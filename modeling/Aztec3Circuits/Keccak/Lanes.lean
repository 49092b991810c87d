import Aztec3Circuits.Folds
import Aztec3Circuits.Keccak.Circuit

/-! Sparse lanes. A lane `s` is held as `laneSparse s = ∑ bit s k * 11 ^ k`; the circuit adds such
values while no digit passes 10 and reads the digits back through lookups. This module says what
each lookup and `normalize_and_rotate` return on a number whose 64 base-11 digits are known, and
how the bits of lanes combine under xor, χ and rotation. -/
namespace Aztec3Circuits.Keccak

section Bits

variable {s t u : BitVec 64} {k : Nat}

theorem bit_lt_two : bit s k < 2 := Bool.toNat_lt _

theorem bit_lt_eleven : bit s k < 11 := by
  have := bit_lt_two (s := s) (k := k)
  omega

theorem bit_xor : bit (s ^^^ t) k = (bit s k + bit t k) % 2 := by
  unfold bit
  rw [BitVec.getLsbD_xor]
  cases s.getLsbD k <;> cases t.getLsbD k <;> rfl

theorem bit_chi (hk : k < 64) :
    bit (s ^^^ (~~~t &&& u)) k = chiNormalization (1 + 2 * bit s k + bit u k - bit t k) := by
  unfold bit
  simp only [BitVec.getLsbD_xor, BitVec.getLsbD_and, BitVec.getLsbD_not, hk, decide_True, Bool.true_and]
  cases s.getLsbD k <;> cases t.getLsbD k <;> cases u.getLsbD k <;> rfl

theorem bit_rotateLeft {r : Nat} (hr : r < 64) (hk : k < 64) :
    bit (s.rotateLeft r) k = bit s ((k + (64 - r)) % 64) := by
  unfold bit
  rw [BitVec.getLsbD_rotateLeft_of_le hr]
  by_cases low : k < r
  · rw [show (k + (64 - r)) % 64 = 64 - r + k by omega]
    simp [low]
  · rw [show (k + (64 - r)) % 64 = k - r by omega]
    simp [low, hk]

theorem eq_of_bit_eq (same : ∀ k < 64, bit s k = bit t k) : s = t :=
  BitVec.eq_of_getLsbD_eq fun i => by
    have := same i i.2
    unfold bit at this
    cases hs : s.getLsbD i <;> cases ht : t.getLsbD i <;> simp_all

theorem toNat_eq_digitSum (s : BitVec 64) : s.toNat = digitSum 2 64 (bit s) := by
  conv_lhs => rw [← digitSum_digits s.isLt]
  refine digitSum_congr fun k _ => ?_
  rw [bit, ← BitVec.testBit_toNat, Nat.testBit_to_div_mod]
  rcases Nat.mod_two_eq_zero_or_one (s.toNat / 2 ^ k) with h | h <;> simp [h]

theorem laneSparse_lt (s : BitVec 64) : laneSparse s < 11 ^ 64 :=
  digitSum_lt fun _ _ => bit_lt_eleven

@[simp] theorem bit_zero (k : Nat) : bit 0 k = 0 := by
  simp [bit]

@[simp] theorem laneSparse_zero : laneSparse 0 = 0 := by
  simp only [laneSparse, digitSum, bit_zero, zero_mul, Finset.sum_const_zero]

end Bits

section Lookups

variable {e : Nat → Nat} (small : ∀ k < 64, e k < 11)
include small

theorem thetaOutput_digitSum : thetaOutput (digitSum 11 64 e) = digitSum 11 64 fun k => e k % 2 :=
  lookupDigits_digitSum _ small

theorem chiOutput_digitSum :
    chiOutput (digitSum 11 64 e) = (digitSum 11 64 fun k => chiNormalization (e k), chiNormalization (e 63)) := by
  rw [chiOutput, lookupDigits_digitSum _ small, digit_digitSum small (by norm_num)]

end Lookups

theorem formatInput_toNat (s : BitVec 64) : formatInput s.toNat = (laneSparse s, bit s 63) := by
  have small : ∀ k < 64, bit s k < 2 := fun _ _ => bit_lt_two
  rw [formatInput, toNat_eq_digitSum, lookupDigits_digitSum _ small, digit_digitSum small (by norm_num)]
  rfl

theorem formatOutput_laneSparse (s : BitVec 64) : formatOutput (laneSparse s) = s.toNat := by
  rw [formatOutput, laneSparse, lookupDigits_digitSum _ fun _ _ => bit_lt_eleven, toNat_eq_digitSum]
  rfl

/-! ### `normalize_and_rotate` -/

def consumedBits (bits : Nat) : Nat → Nat
  | 0 => 0
  | m + 1 => consumedBits bits m + bitSlice bits m

def sliceMsb (bits normalized j : Nat) : Nat :=
  normalized / 11 ^ consumedBits bits j % 11 ^ bitSlice bits j / (11 ^ bitSlice bits j / 11)

def sliceKey (bits input normalized j : Nat) : (Nat × Nat) × (Nat × Nat) :=
  ((input / 11 ^ consumedBits bits j % 11 ^ bitSlice bits j, 0),
    (normalized / 11 ^ consumedBits bits j % 11 ^ bitSlice bits j, sliceMsb bits normalized j))

theorem consumedBits_of_le {bits m : Nat} (full : 8 * m ≤ bits) : consumedBits bits m = 8 * m := by
  induction m with
  | zero => rfl
  | succ m ih =>
    simp only [consumedBits, ih (by omega), bitSlice, maxBitsPerTable]
    split_ifs <;> omega

theorem consumedBits_numTables (bits : Nat) : consumedBits bits (numTables bits) = bits := by
  simp only [numTables, maxBitsPerTable]
  split_ifs with rest
  · simp only [consumedBits, consumedBits_of_le (show 8 * (bits / 8) ≤ bits by omega), bitSlice, maxBitsPerTable]
    split_ifs <;> omega
  · rw [Nat.add_zero, consumedBits_of_le (by omega)]
    omega

theorem numTables_pos {bits : Nat} : 0 < numTables bits ↔ 0 < bits := by
  simp only [numTables, maxBitsPerTable]
  split_ifs <;> omega

theorem bitSlice_le (bits j : Nat) : bitSlice bits j ≤ maxBitsPerTable := by
  simp only [bitSlice, maxBitsPerTable]
  split_ifs <;> omega

theorem bitSlice_pos {bits j : Nat} (hj : j < numTables bits) : 0 < bitSlice bits j := by
  simp only [numTables, bitSlice, maxBitsPerTable] at hj ⊢
  split_ifs at hj ⊢ <;> omega

theorem consumedBits_le {bits j : Nat} (hj : j ≤ numTables bits) : consumedBits bits j ≤ bits := by
  by_cases full : 8 * j ≤ bits
  · rw [consumedBits_of_le full]
    exact full
  · have last : j = numTables bits := by
      simp only [numTables, maxBitsPerTable] at hj ⊢
      split_ifs at hj ⊢ <;> omega
    rw [last, consumedBits_numTables]

theorem sliceMsb_digitSum {bits j : Nat} (hj : j < numTables bits) {d : Nat → Nat} (small : ∀ k < bits, d k < 11) :
    sliceMsb bits (digitSum 11 bits d) j = d (consumedBits bits j + (bitSlice bits j - 1)) := by
  have fits : consumedBits bits j + bitSlice bits j ≤ bits := consumedBits_le (j := j + 1) hj
  obtain ⟨w, hw⟩ : ∃ w, bitSlice bits j = w + 1 := ⟨bitSlice bits j - 1, by have := bitSlice_pos hj; omega⟩
  rw [sliceMsb, digitSum_slice small fits, hw, pow_succ, Nat.mul_div_cancel _ (by norm_num),
    digitSum_div_top fun k hk => small _ (by omega), Nat.add_sub_cancel]

theorem sliceMsb_last {bits : Nat} (pos : 0 < bits) {d : Nat → Nat} (small : ∀ k < bits, d k < 11) :
    sliceMsb bits (digitSum 11 bits d) (numTables bits - 1) = d (bits - 1) := by
  have tables := numTables_pos.mpr pos
  have ends := consumedBits_numTables bits
  have wide := bitSlice_pos (show numTables bits - 1 < numTables bits by omega)
  rw [show numTables bits = numTables bits - 1 + 1 by omega, consumedBits] at ends
  rw [sliceMsb_digitSum (by omega) small]
  exact congrArg d (by omega)

theorem sliceKey_digitSum {bits n j : Nat} (hj : j < numTables bits) (within : bits ≤ n) {d : Nat → Nat}
    (small : ∀ k < n, d k < 11) :
    sliceKey bits (digitSum 11 n d) (digitSum 11 bits fun k => d k % 2) j =
      ((digitSum 11 (bitSlice bits j) fun k => d (consumedBits bits j + k), 0),
        (digitSum 11 (bitSlice bits j) fun k => d (consumedBits bits j + k) % 2,
          d (consumedBits bits j + (bitSlice bits j - 1)) % 2)) := by
  have fits : consumedBits bits j + bitSlice bits j ≤ bits := consumedBits_le (j := j + 1) hj
  have parity : ∀ k < bits, d k % 2 < 11 := fun k _ => by omega
  rw [sliceKey, digitSum_slice small (by omega), digitSum_slice parity fits, sliceMsb_digitSum hj parity]

theorem computeLookupWitnessesForLimb_succ (bits m : Nat) (lookup : ReadData) (input normalized : Nat) :
    computeLookupWitnessesForLimb bits (m + 1) lookup input normalized =
      lookupSlice bits (computeLookupWitnessesForLimb bits m lookup input normalized) m := by
  simp only [computeLookupWitnessesForLimb, List.range_succ, List.foldl_append, List.foldl_cons, List.foldl_nil]

theorem computeLookupWitnessesForLimb_spec (bits m : Nat) (lookup : ReadData) (input normalized : Nat) :
    computeLookupWitnessesForLimb bits m lookup input normalized =
      (⟨lookup.c1 ++ (List.range m).map (fun j => input / 11 ^ consumedBits bits j),
        lookup.c2 ++ (List.range m).map (fun j => normalized / 11 ^ consumedBits bits j),
        lookup.c3 ++ (List.range m).map (sliceMsb bits normalized),
        lookup.keyEntries ++ (List.range m).map (sliceKey bits input normalized)⟩,
        input / 11 ^ consumedBits bits m, normalized / 11 ^ consumedBits bits m) := by
  induction m with
  | zero => simp only [computeLookupWitnessesForLimb, consumedBits, List.range_zero, List.map_nil,
      List.foldl_nil, List.append_nil, pow_zero, Nat.div_one]
  | succ m ih =>
    rw [computeLookupWitnessesForLimb_succ, ih]
    simp only [lookupSlice, consumedBits, List.range_succ, List.map_append, List.map_cons, List.map_nil,
      List.append_assoc, pow_add, Nat.div_div_eq_div_mul, sliceMsb, sliceKey]

theorem rotateReadData_spec (laneIndex v : Nat) :
    (rotateReadData laneIndex v).c1 =
        (List.range (numTables (64 - rotation laneIndex))).map
            (fun j => v / 11 ^ consumedBits (64 - rotation laneIndex) j) ++
          (List.range (numTables (rotation laneIndex))).map
            (fun j => v / 11 ^ (64 - rotation laneIndex) / 11 ^ consumedBits (rotation laneIndex) j) ∧
      (rotateReadData laneIndex v).c2 =
        (List.range (numTables (64 - rotation laneIndex))).map
            (fun j => normalizeSparse (v % 11 ^ (64 - rotation laneIndex)) / 11 ^ consumedBits (64 - rotation laneIndex) j) ++
          (List.range (numTables (rotation laneIndex))).map
            (fun j => normalizeSparse (v / 11 ^ (64 - rotation laneIndex)) / 11 ^ consumedBits (rotation laneIndex) j) ∧
      (rotateReadData laneIndex v).c3 =
        (List.range (numTables (64 - rotation laneIndex))).map
            (sliceMsb (64 - rotation laneIndex) (normalizeSparse (v % 11 ^ (64 - rotation laneIndex)))) ++
          (List.range (numTables (rotation laneIndex))).map
            (sliceMsb (rotation laneIndex) (normalizeSparse (v / 11 ^ (64 - rotation laneIndex)))) ∧
      (rotateReadData laneIndex v).keyEntries =
        (List.range (numTables (64 - rotation laneIndex))).map
            (sliceKey (64 - rotation laneIndex) v (normalizeSparse (v % 11 ^ (64 - rotation laneIndex)))) ++
          (List.range (numTables (rotation laneIndex))).map
            (sliceKey (rotation laneIndex) (v / 11 ^ (64 - rotation laneIndex))
              (normalizeSparse (v / 11 ^ (64 - rotation laneIndex)))) := by
  simp only [rotateReadData, computeLookupWitnessesForLimb_spec, consumedBits_numTables, List.nil_append,
    and_self]

variable {p : Nat}

theorem val_digitSum {n : Nat} {d : Nat → Nat} (small : ∀ k < n, d k < 11) (large : 11 ^ n < p) :
    ((digitSum 11 n d : Nat) : ZMod p).val = digitSum 11 n d :=
  ZMod.val_cast_of_lt ((digitSum_lt small).trans large)

theorem digitSum_cut {e : Nat → Nat} (small : ∀ k < 64, e k < 11) {r : Nat} (hr : r ≤ 64) :
    digitSum 11 64 e % 11 ^ (64 - r) = digitSum 11 (64 - r) e ∧
      digitSum 11 64 e / 11 ^ (64 - r) = digitSum 11 r fun k => e (64 - r + k) := by
  have right := digitSum_mod (b := 11) (n := r) fun k (hk : k < 64 - r) => small k (by omega)
  have left := digitSum_div (b := 11) (n := r) fun k (hk : k < 64 - r) => small k (by omega)
  rw [Nat.sub_add_cancel hr] at right left
  exact ⟨right, left⟩

theorem digitSum_rotate (d : Nat → Nat) {r : Nat} (hr : r ≤ 64) :
    (digitSum 11 64 fun k => d ((k + (64 - r)) % 64)) =
      (digitSum 11 r fun k => d (64 - r + k)) + 11 ^ r * digitSum 11 (64 - r) d := by
  have low : (digitSum 11 r fun k => d ((k + (64 - r)) % 64)) = digitSum 11 r fun k => d (64 - r + k) :=
    digitSum_congr fun k hk => by rw [Nat.mod_eq_of_lt (show k + (64 - r) < 64 by omega), Nat.add_comm]
  have high : (digitSum 11 (64 - r) fun k => d ((r + k + (64 - r)) % 64)) = digitSum 11 (64 - r) d :=
    digitSum_congr fun k hk => by rw [show (r + k + (64 - r)) % 64 = k by omega]
  have rotated := digitSum_split (b := 11) (m := r) (n := 64 - r) (d := fun k => d ((k + (64 - r)) % 64))
  rwa [Nat.add_sub_cancel' hr, low, high] at rotated

theorem normalizeAndRotate_digitSum (large : 11 ^ 64 < p) (laneIndex : Nat) {e : Nat → Nat}
    (small : ∀ k < 64, e k < 11) :
    normalizeAndRotate laneIndex ((digitSum 11 64 e : Nat) : ZMod p) =
      (((digitSum 11 64 fun k => e ((k + (64 - rotation laneIndex)) % 64) % 2 : Nat) : ZMod p),
        ((e 63 % 2 : Nat) : ZMod p)) := by
  obtain ⟨-, c2, c3, -⟩ := rotateReadData_spec laneIndex (digitSum 11 64 e)
  have hr := rotation_lt laneIndex
  simp only [normalizeAndRotate]
  rw [val_digitSum small large, c2, c3]
  generalize rotation laneIndex = r at hr ⊢
  obtain ⟨right, left⟩ := digitSum_cut small hr.le
  have parity : ∀ k < 64, e k % 2 < 11 := fun k _ => by omega
  have rightTables := numTables_pos.mpr (show 0 < 64 - r by omega)
  have last : numTables r + numTables (64 - r) - 1 < numTables (64 - r) + numTables r := by omega
  rw [right, left, normalizeSparse_digitSum fun k hk => small k (by omega),
    normalizeSparse_digitSum fun k hk => small _ (by omega), digitSum_rotate (fun k => e k % 2) hr.le,
    getD_append_map_range _ _ (Nat.lt_add_right _ rightTables), if_pos rightTables, getD_append_map_range _ _ last,
    consumedBits, pow_zero, Nat.div_one]
  by_cases unrotated : r = 0
  · subst unrotated
    have none : numTables 0 = 0 := rfl
    rw [if_pos none, if_pos (by omega), none, Nat.zero_add, sliceMsb_last (by norm_num) parity, digitSum_zero,
      pow_zero, one_mul, Nat.zero_add]
  · have leftTables := numTables_pos.mpr (show 0 < r by omega)
    rw [if_neg (by omega), if_neg (by omega), getD_append_map_range _ _ (Nat.lt_add_of_pos_right leftTables),
      if_neg (Nat.lt_irrefl _), Nat.sub_self, consumedBits, pow_zero, Nat.div_one,
      show numTables r + numTables (64 - r) - 1 - numTables (64 - r) = numTables r - 1 by omega,
      sliceMsb_last (by omega) fun k hk => parity _ (by omega), show 64 - r + (r - 1) = 63 by omega]
    push_cast
    rw [mul_comm]

theorem normalizeAndRotate_lane (large : 11 ^ 64 < p) (laneIndex : Nat) {e : Nat → Nat}
    (small : ∀ k < 64, e k < 11) {s : BitVec 64} (parity : ∀ k < 64, e k % 2 = bit s k) :
    normalizeAndRotate laneIndex ((digitSum 11 64 e : Nat) : ZMod p) =
      ((laneSparse (s.rotateLeft (rotation laneIndex)) : ZMod p), (bit s 63 : ZMod p)) := by
  have rotated : (digitSum 11 64 fun k => e ((k + (64 - rotation laneIndex)) % 64) % 2) =
      laneSparse (s.rotateLeft (rotation laneIndex)) :=
    digitSum_congr fun k hk => by
      rw [bit_rotateLeft (rotation_lt laneIndex) hk, parity _ (Nat.mod_lt _ (by norm_num))]
  rw [normalizeAndRotate_digitSum large laneIndex small, rotated, parity 63 (by norm_num)]

theorem pow_lt_of_le (large : 11 ^ 66 < p) {n : Nat} (hn : n ≤ 66) : 11 ^ n < p :=
  lt_of_le_of_lt (Nat.pow_le_pow_right (by norm_num) hn) large

theorem val_laneSparse (large : 11 ^ 64 < p) (s : BitVec 64) : ((laneSparse s : Nat) : ZMod p).val = laneSparse s :=
  ZMod.val_cast_of_lt ((laneSparse_lt s).trans large)

def Unreduced (v : ZMod p) (n : Nat) : Prop := v.val = n ∧ n < 11 ^ 66

theorem unreduced_of_eq (large : 11 ^ 66 < p) {v : ZMod p} {n m : Nat} (hv : v = m) (hm : m < 11 ^ 66)
    (hn : n = m) : Unreduced v n := by
  subst hn hv
  exact ⟨ZMod.val_cast_of_lt (hm.trans large), hm⟩

theorem laneSparse_add_unreduced (large : 11 ^ 66 < p) (s t : BitVec 64) :
    Unreduced ((laneSparse s : ZMod p) + (laneSparse t : ZMod p))
      (((laneSparse s : Nat) : ZMod p).val + ((laneSparse t : Nat) : ZMod p).val) := by
  have bound : laneSparse s + laneSparse t < 11 ^ 66 := by
    have := laneSparse_lt s
    have := laneSparse_lt t
    have : 2 * 11 ^ 64 ≤ 11 ^ 66 := by norm_num
    omega
  refine unreduced_of_eq large (Nat.cast_add _ _).symm bound ?_
  rw [val_laneSparse (pow_lt_of_le large (by norm_num)), val_laneSparse (pow_lt_of_le large (by norm_num))]

/-! ### The invariants -/

def HoldsLoosely (v : ZMod p) (s : BitVec 64) : Prop :=
  ∃ e : Nat → Nat, v = ((digitSum 11 64 e : Nat) : ZMod p) ∧ ∀ k < 64, e k ≤ 2 ∧ e k % 2 = bit s k

theorem holdsLoosely_add (s t : BitVec 64) :
    HoldsLoosely ((laneSparse s : ZMod p) + (laneSparse t : ZMod p)) (s ^^^ t) :=
  ⟨fun k => bit s k + bit t k, by rw [digitSum_add, Nat.cast_add]; rfl, fun k _ =>
    ⟨Nat.add_le_add (Nat.le_of_lt_succ bit_lt_two) (Nat.le_of_lt_succ bit_lt_two), bit_xor.symm⟩⟩

theorem normalizeAndRotate_holdsLoosely (large : 11 ^ 64 < p) (laneIndex : Nat) {v : ZMod p} {s : BitVec 64}
    (loose : HoldsLoosely v s) :
    normalizeAndRotate laneIndex v = ((laneSparse (s.rotateLeft (rotation laneIndex)) : ZMod p), (bit s 63 : ZMod p)) := by
  obtain ⟨e, rfl, digits⟩ := loose
  exact normalizeAndRotate_lane large laneIndex (fun k hk => by have := (digits k hk).1; omega) fun k hk => (digits k hk).2

/-- The circuit's lanes hold the Keccak state `A` in sparse form, each with its top bit. -/
structure LanesHold (internal : KeccakState p) (A : List (BitVec 64)) : Prop where
  state : ∀ i < 25, internal.state.getD i 0 = (laneSparse (A.getD i 0) : ZMod p)
  msb : ∀ i < 25, internal.stateMsb.getD i 0 = (bit (A.getD i 0) 63 : ZMod p)

/-- The lanes hold `A` and the twisted lanes are consistent with them, as at the start of every
round. -/
structure Holds (internal : KeccakState p) (A : List (BitVec 64)) extends LanesHold internal A : Prop where
  twisted : ∀ i < 25, internal.twistedState.getD i 0 = internal.state.getD i 0 * 11 + internal.stateMsb.getD i 0

theorem empty_holds (p : Nat) : Holds (KeccakState.empty p) (List.replicate 25 0) := by
  refine ⟨⟨fun _ _ => ?_, fun _ _ => ?_⟩, fun _ _ => ?_⟩ <;>
    simp only [KeccakState.empty, List.getD_eq_getElem?_getD, List.getElem?_getD_replicate_default_eq,
      laneSparse_zero, bit_zero, Nat.cast_zero, zero_mul, add_zero]

theorem computeTwistedState_holds {internal : KeccakState p} {A : List (BitVec 64)} (lanes : LanesHold internal A) :
    Holds (computeTwistedState internal) A :=
  ⟨⟨lanes.state, lanes.msb⟩, fun _ hi =>
    getD_map_range (fun i => internal.state.getD i 0 * 11 + internal.stateMsb.getD i 0) hi 0⟩

/-- The state whose lanes hold `A`, with its twisted lanes computed by `compute_twisted_state`. -/
def KeccakState.ofLanes (p : Nat) (A : List (BitVec 64)) : KeccakState p :=
  computeTwistedState ⟨(List.range 25).map fun i => (laneSparse (A.getD i 0) : ZMod p),
    (List.range 25).map fun i => (bit (A.getD i 0) 63 : ZMod p), List.replicate 25 0, by simp, by simp, by simp⟩

theorem ofLanes_holds (p : Nat) (A : List (BitVec 64)) : Holds (KeccakState.ofLanes p A) A :=
  computeTwistedState_holds ⟨fun _ hi => getD_map_range (fun i => (laneSparse (A.getD i 0) : ZMod p)) hi 0,
    fun _ hi => getD_map_range (fun i => (bit (A.getD i 0) 63 : ZMod p)) hi 0⟩

end Aztec3Circuits.Keccak

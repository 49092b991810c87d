import Aztec3Circuits.Keccak.Lanes

/-! The lookup columns `normalize_and_rotate` builds by hand. A limb of 64 base-11 digits is cut
below digit `64 - r`, `r = ROTATIONS[lane_index]`, and each part is read through slices of at most
`MAXIMUM_MULTITABLE_BITS` digits, the right part's first. `C1` is one accumulator over the whole
limb, `C2` one accumulator over each normalised part, `C3` holds the top digit of each normalised
slice, and the key entries hold each slice with its normalisation. -/
namespace Aztec3Circuits.Keccak

open Finset

/-- The slices of `normalize_and_rotate<laneIndex>`, the right part's and the left part's. -/
def rotateSlices (laneIndex : Nat) : Nat := numTables (64 - rotation laneIndex) + numTables (rotation laneIndex)

def rotateOffset (laneIndex t : Nat) : Nat :=
  if t < numTables (64 - rotation laneIndex) then consumedBits (64 - rotation laneIndex) t
  else 64 - rotation laneIndex + consumedBits (rotation laneIndex) (t - numTables (64 - rotation laneIndex))

def rotateWidth (laneIndex t : Nat) : Nat :=
  if t < numTables (64 - rotation laneIndex) then bitSlice (64 - rotation laneIndex) t
  else bitSlice (rotation laneIndex) (t - numTables (64 - rotation laneIndex))

section Slices

variable (laneIndex : Nat)

theorem consumedBits_eq_sum (bits m : Nat) : consumedBits bits m = ∑ j ∈ range m, bitSlice bits j := by
  induction m with
  | zero => rfl
  | succ m ih => rw [consumedBits, ih, sum_range_succ]

theorem rightTables_pos : 0 < numTables (64 - rotation laneIndex) :=
  numTables_pos.mpr (Nat.sub_pos_of_lt (rotation_lt laneIndex))

theorem rotateOffset_zero : rotateOffset laneIndex 0 = 0 := by
  rw [rotateOffset, if_pos (rightTables_pos laneIndex)]
  rfl

theorem rotateOffset_right :
    rotateOffset laneIndex (numTables (64 - rotation laneIndex)) = 64 - rotation laneIndex := by
  rw [rotateOffset, if_neg (Nat.lt_irrefl _), Nat.sub_self]
  rfl

theorem rotateOffset_succ (t : Nat) :
    rotateOffset laneIndex (t + 1) = rotateOffset laneIndex t + rotateWidth laneIndex t := by
  have ends := consumedBits_numTables (64 - rotation laneIndex)
  unfold rotateOffset rotateWidth
  split_ifs with next this this
  · rfl
  · omega
  · rw [show t + 1 - numTables (64 - rotation laneIndex) = 0 by omega]
    show 64 - rotation laneIndex + 0 = consumedBits (64 - rotation laneIndex) (t + 1)
    rw [show t + 1 = numTables (64 - rotation laneIndex) by omega, ends, Nat.add_zero]
  · rw [show t + 1 - numTables (64 - rotation laneIndex) = t - numTables (64 - rotation laneIndex) + 1 by omega,
      consumedBits, Nat.add_assoc]

theorem rotateOffset_slices : rotateOffset laneIndex (rotateSlices laneIndex) = 64 := by
  rw [rotateOffset, rotateSlices, if_neg (by omega), Nat.add_sub_cancel_left, consumedBits_numTables,
    Nat.sub_add_cancel (rotation_lt laneIndex).le]

theorem rotateWidth_le (t : Nat) : rotateWidth laneIndex t ≤ maxBitsPerTable := by
  unfold rotateWidth
  split_ifs <;> exact bitSlice_le _ _

theorem rotateWidth_pos {t : Nat} (ht : t < rotateSlices laneIndex) : 0 < rotateWidth laneIndex t := by
  unfold rotateWidth
  split_ifs with right
  · exact bitSlice_pos right
  · exact bitSlice_pos (by unfold rotateSlices at ht; omega)

theorem rotateOffset_add_rotateWidth {t : Nat} (ht : t < rotateSlices laneIndex) :
    rotateOffset laneIndex t + rotateWidth laneIndex t ≤ 64 := by
  rw [← rotateOffset_succ, rotateOffset]
  have hr := rotation_lt laneIndex
  unfold rotateSlices at ht
  split_ifs with right
  · have : consumedBits (64 - rotation laneIndex) (t + 1) ≤ 64 - rotation laneIndex := consumedBits_le right.le
    omega
  · have : consumedBits (rotation laneIndex) (t + 1 - numTables (64 - rotation laneIndex)) ≤ rotation laneIndex :=
      consumedBits_le (by omega)
    omega

theorem rotateOffset_left {t : Nat} (left : ¬t < numTables (64 - rotation laneIndex)) :
    64 - rotation laneIndex ≤ rotateOffset laneIndex t := by
  rw [rotateOffset, if_neg left]
  omega

theorem rightWidths : ∑ t ∈ range (numTables (64 - rotation laneIndex)), rotateWidth laneIndex t =
    64 - rotation laneIndex := by
  rw [sum_congr rfl fun t mem => by rw [rotateWidth, if_pos (mem_range.mp mem)], ← consumedBits_eq_sum,
    consumedBits_numTables]

theorem leftWidths : ∑ t ∈ range (numTables (rotation laneIndex)),
    rotateWidth laneIndex (numTables (64 - rotation laneIndex) + t) = rotation laneIndex := by
  rw [sum_congr rfl fun t _ => by rw [rotateWidth, if_neg (by omega), Nat.add_sub_cancel_left],
    ← consumedBits_eq_sum, consumedBits_numTables]

end Slices

theorem accumulate (x w : Nat) : x = x % 11 ^ w + 11 ^ w * (x / 11 ^ w) := (Nat.mod_add_div x _).symm

section Columns

variable (laneIndex v : Nat)

theorem rotateReadData_lengths :
    (rotateReadData laneIndex v).c1.length = rotateSlices laneIndex ∧
      (rotateReadData laneIndex v).c2.length = rotateSlices laneIndex ∧
      (rotateReadData laneIndex v).c3.length = rotateSlices laneIndex ∧
      (rotateReadData laneIndex v).keyEntries.length = rotateSlices laneIndex := by
  obtain ⟨c1, c2, c3, keys⟩ := rotateReadData_spec laneIndex v
  simp only [c1, c2, c3, keys, List.length_append, List.length_map, List.length_range, rotateSlices, and_self]

theorem rotateReadData_c1 {t : Nat} (ht : t < rotateSlices laneIndex) :
    (rotateReadData laneIndex v).c1.getD t 0 = v / 11 ^ rotateOffset laneIndex t := by
  rw [(rotateReadData_spec laneIndex v).1, getD_append_map_range _ _ ht, rotateOffset]
  split_ifs
  · rfl
  · rw [Nat.div_div_eq_div_mul, ← pow_add]

theorem rotateReadData_c2 {t : Nat} (ht : t < rotateSlices laneIndex) :
    (rotateReadData laneIndex v).c2.getD t 0 =
      if t < numTables (64 - rotation laneIndex) then
        normalizeSparse (v % 11 ^ (64 - rotation laneIndex)) / 11 ^ rotateOffset laneIndex t
      else normalizeSparse (v / 11 ^ (64 - rotation laneIndex)) /
        11 ^ (rotateOffset laneIndex t - (64 - rotation laneIndex)) := by
  rw [(rotateReadData_spec laneIndex v).2.1, getD_append_map_range _ _ ht, rotateOffset]
  split_ifs
  · rfl
  · rw [Nat.add_sub_cancel_left]

theorem rotateReadData_keyEntries {t : Nat} (ht : t < rotateSlices laneIndex) :
    (rotateReadData laneIndex v).keyEntries.getD t ((0, 0), (0, 0)) =
      if t < numTables (64 - rotation laneIndex) then
        sliceKey (64 - rotation laneIndex) v (normalizeSparse (v % 11 ^ (64 - rotation laneIndex))) t
      else sliceKey (rotation laneIndex) (v / 11 ^ (64 - rotation laneIndex))
        (normalizeSparse (v / 11 ^ (64 - rotation laneIndex))) (t - numTables (64 - rotation laneIndex)) := by
  rw [(rotateReadData_spec laneIndex v).2.2.2, getD_append_map_range _ _ ht]

theorem rotateReadData_slices {t : Nat} (ht : t < rotateSlices laneIndex) :
    ((rotateReadData laneIndex v).keyEntries.getD t ((0, 0), (0, 0))).1.1 =
        v / 11 ^ rotateOffset laneIndex t % 11 ^ rotateWidth laneIndex t ∧
      ((rotateReadData laneIndex v).keyEntries.getD t ((0, 0), (0, 0))).2.1 =
        (if t < numTables (64 - rotation laneIndex) then
          normalizeSparse (v % 11 ^ (64 - rotation laneIndex)) / 11 ^ rotateOffset laneIndex t
        else normalizeSparse (v / 11 ^ (64 - rotation laneIndex)) /
          11 ^ (rotateOffset laneIndex t - (64 - rotation laneIndex))) % 11 ^ rotateWidth laneIndex t := by
  rw [rotateReadData_keyEntries _ _ ht]
  unfold rotateOffset rotateWidth
  split_ifs
  · exact ⟨rfl, rfl⟩
  · rw [sliceKey, Nat.add_sub_cancel_left, Nat.div_div_eq_div_mul, ← pow_add]
    exact ⟨rfl, rfl⟩

theorem rotateReadData_c3 {t : Nat} (ht : t < rotateSlices laneIndex) :
    (rotateReadData laneIndex v).c3.getD t 0 =
      ((rotateReadData laneIndex v).keyEntries.getD t ((0, 0), (0, 0))).2.2 := by
  rw [(rotateReadData_spec laneIndex v).2.2.1, getD_append_map_range _ _ ht, rotateReadData_keyEntries _ _ ht]
  split_ifs <;> rfl

end Columns

section Digits

variable (laneIndex : Nat) {b : Nat → Nat} (small : ∀ k < 64, b k < 11)
include small

theorem normalizeSparse_right :
    normalizeSparse (digitSum 11 64 b % 11 ^ (64 - rotation laneIndex)) =
      digitSum 11 (64 - rotation laneIndex) fun k => b k % 2 := by
  rw [(digitSum_cut small (rotation_lt laneIndex).le).1, normalizeSparse_digitSum fun k hk => small k (by omega)]

theorem normalizeSparse_left :
    normalizeSparse (digitSum 11 64 b / 11 ^ (64 - rotation laneIndex)) =
      digitSum 11 (rotation laneIndex) fun k => b (64 - rotation laneIndex + k) % 2 := by
  have hr := rotation_lt laneIndex
  rw [(digitSum_cut small hr.le).2, normalizeSparse_digitSum fun k hk => small _ (by omega)]

theorem rotateReadData_c1_le {t : Nat} (ht : t ≤ rotateSlices laneIndex) :
    (rotateReadData laneIndex (digitSum 11 64 b)).c1.getD t 0 = digitSum 11 64 b / 11 ^ rotateOffset laneIndex t := by
  rcases ht.lt_or_eq with inside | last
  · exact rotateReadData_c1 _ _ inside
  · rw [last, List.getD_eq_default _ _ (rotateReadData_lengths _ _).1.le, rotateOffset_slices,
      Nat.div_eq_of_lt (digitSum_lt small)]

theorem rotateReadData_c2_le {t : Nat} (ht : t ≤ rotateSlices laneIndex) :
    (rotateReadData laneIndex (digitSum 11 64 b)).c2.getD t 0 =
      if t < numTables (64 - rotation laneIndex) then
        normalizeSparse (digitSum 11 64 b % 11 ^ (64 - rotation laneIndex)) / 11 ^ rotateOffset laneIndex t
      else normalizeSparse (digitSum 11 64 b / 11 ^ (64 - rotation laneIndex)) /
        11 ^ (rotateOffset laneIndex t - (64 - rotation laneIndex)) := by
  rcases ht.lt_or_eq with inside | last
  · exact rotateReadData_c2 _ _ inside
  · have hr := rotation_lt laneIndex
    rw [last, List.getD_eq_default _ _ (rotateReadData_lengths _ _).2.1.le, if_neg (by unfold rotateSlices; omega),
      rotateOffset_slices, Nat.sub_sub_self hr.le, normalizeSparse_left laneIndex small,
      Nat.div_eq_of_lt (digitSum_lt fun k _ => by omega)]

theorem rotateReadData_key {t : Nat} (ht : t < rotateSlices laneIndex) :
    (rotateReadData laneIndex (digitSum 11 64 b)).keyEntries.getD t ((0, 0), (0, 0)) =
      ((digitSum 11 (rotateWidth laneIndex t) fun k => b (rotateOffset laneIndex t + k), 0),
        (digitSum 11 (rotateWidth laneIndex t) fun k => b (rotateOffset laneIndex t + k) % 2,
          b (rotateOffset laneIndex t + (rotateWidth laneIndex t - 1)) % 2)) := by
  have hr := rotation_lt laneIndex
  rw [rotateReadData_keyEntries _ _ ht, normalizeSparse_right laneIndex small, normalizeSparse_left laneIndex small]
  unfold rotateOffset rotateWidth
  split_ifs with right
  · exact sliceKey_digitSum right (by omega) small
  · have left : t - numTables (64 - rotation laneIndex) < numTables (rotation laneIndex) := by
      unfold rotateSlices at ht
      omega
    rw [(digitSum_cut small hr.le).2, sliceKey_digitSum left le_rfl fun k hk => small _ (by omega)]
    simp only [Nat.add_assoc]

/-- The columns of `normalize_and_rotate<laneIndex>` on the limb of digits `b`. Slice `t` is
`rotateWidth laneIndex t` digits wide from digit `rotateOffset laneIndex t` on; the first
`numTables (64 - r)` slices are the right part's. `C1` accumulates over all slices and reads `0` past
the last; `C2` accumulates over the normalised right part, restarts at the left part, and reads `0`
past the last slice. Each key entry holds its slice of the limb, the slice's normalisation, and the
parity of the slice's top digit, which `C3` holds too. -/
structure RotateColumns (laneIndex : Nat) (b : Nat → Nat) (lookup : ReadData) : Prop where
  widths : ∀ t < rotateSlices laneIndex, 1 ≤ rotateWidth laneIndex t ∧ rotateWidth laneIndex t ≤ maxBitsPerTable
  rightWidths : ∑ t ∈ range (numTables (64 - rotation laneIndex)), rotateWidth laneIndex t = 64 - rotation laneIndex
  leftWidths : ∑ t ∈ range (numTables (rotation laneIndex)),
    rotateWidth laneIndex (numTables (64 - rotation laneIndex) + t) = rotation laneIndex
  lengths : lookup.c1.length = rotateSlices laneIndex ∧ lookup.c2.length = rotateSlices laneIndex ∧
    lookup.c3.length = rotateSlices laneIndex ∧ lookup.keyEntries.length = rotateSlices laneIndex
  c1First : lookup.c1.getD 0 0 = digitSum 11 64 b
  c1Step : ∀ t < rotateSlices laneIndex, lookup.c1.getD t 0 =
    (lookup.keyEntries.getD t ((0, 0), (0, 0))).1.1 + 11 ^ rotateWidth laneIndex t * lookup.c1.getD (t + 1) 0
  c2Right : lookup.c2.getD 0 0 = normalizeSparse (digitSum 11 64 b % 11 ^ (64 - rotation laneIndex))
  c2Left : lookup.c2.getD (numTables (64 - rotation laneIndex)) 0 =
    normalizeSparse (digitSum 11 64 b / 11 ^ (64 - rotation laneIndex))
  c2Step : ∀ t < rotateSlices laneIndex, lookup.c2.getD t 0 =
    (lookup.keyEntries.getD t ((0, 0), (0, 0))).2.1 + 11 ^ rotateWidth laneIndex t *
      if t + 1 = numTables (64 - rotation laneIndex) then 0 else lookup.c2.getD (t + 1) 0
  keys : ∀ t < rotateSlices laneIndex, lookup.keyEntries.getD t ((0, 0), (0, 0)) =
    ((digitSum 11 (rotateWidth laneIndex t) fun k => b (rotateOffset laneIndex t + k), 0),
      (digitSum 11 (rotateWidth laneIndex t) fun k => b (rotateOffset laneIndex t + k) % 2,
        b (rotateOffset laneIndex t + (rotateWidth laneIndex t - 1)) % 2))
  keysNormalized : ∀ t < rotateSlices laneIndex, (lookup.keyEntries.getD t ((0, 0), (0, 0))).2.1 =
    normalizeSparse (lookup.keyEntries.getD t ((0, 0), (0, 0))).1.1
  c3Msb : ∀ t < rotateSlices laneIndex, lookup.c3.getD t 0 = (lookup.keyEntries.getD t ((0, 0), (0, 0))).2.2

theorem rotateReadData_c1_step {t : Nat} (ht : t < rotateSlices laneIndex) :
    (rotateReadData laneIndex (digitSum 11 64 b)).c1.getD t 0 =
      ((rotateReadData laneIndex (digitSum 11 64 b)).keyEntries.getD t ((0, 0), (0, 0))).1.1 +
        11 ^ rotateWidth laneIndex t * (rotateReadData laneIndex (digitSum 11 64 b)).c1.getD (t + 1) 0 := by
  rw [rotateReadData_c1 _ _ ht, (rotateReadData_slices _ _ ht).1, rotateReadData_c1_le laneIndex small ht,
    rotateOffset_succ, pow_add, ← Nat.div_div_eq_div_mul]
  exact accumulate _ _

theorem rotateReadData_c2_step {t : Nat} (ht : t < rotateSlices laneIndex) :
    (rotateReadData laneIndex (digitSum 11 64 b)).c2.getD t 0 =
      ((rotateReadData laneIndex (digitSum 11 64 b)).keyEntries.getD t ((0, 0), (0, 0))).2.1 +
        11 ^ rotateWidth laneIndex t * if t + 1 = numTables (64 - rotation laneIndex) then 0
          else (rotateReadData laneIndex (digitSum 11 64 b)).c2.getD (t + 1) 0 := by
  rw [rotateReadData_c2 _ _ ht, (rotateReadData_slices _ _ ht).2]
  by_cases right : t < numTables (64 - rotation laneIndex)
  · rw [if_pos right]
    split_ifs with boundary
    · have ends : rotateOffset laneIndex t + rotateWidth laneIndex t = 64 - rotation laneIndex := by
        rw [← rotateOffset_succ, boundary, rotateOffset_right]
      have parity : ∀ k < 64 - rotation laneIndex, b k % 2 < 11 := fun k _ => by omega
      have consumed : normalizeSparse (digitSum 11 64 b % 11 ^ (64 - rotation laneIndex)) /
          11 ^ rotateOffset laneIndex t / 11 ^ rotateWidth laneIndex t = 0 := by
        rw [Nat.div_div_eq_div_mul, ← pow_add, ends, normalizeSparse_right laneIndex small,
          Nat.div_eq_of_lt (digitSum_lt parity)]
      exact (accumulate _ _).trans (by rw [consumed])
    · rw [rotateReadData_c2 _ _ (by unfold rotateSlices; omega), if_pos (by omega), rotateOffset_succ, pow_add,
        ← Nat.div_div_eq_div_mul]
      exact accumulate _ _
  · have after := rotateOffset_left laneIndex right
    rw [if_neg right, if_neg (by omega), rotateReadData_c2_le laneIndex small ht, if_neg (by omega),
      rotateOffset_succ, show rotateOffset laneIndex t + rotateWidth laneIndex t - (64 - rotation laneIndex) =
        rotateOffset laneIndex t - (64 - rotation laneIndex) + rotateWidth laneIndex t by omega,
      pow_add, ← Nat.div_div_eq_div_mul]
    exact accumulate _ _

theorem rotateColumns : RotateColumns laneIndex b (rotateReadData laneIndex (digitSum 11 64 b)) := by
  have slicesPos : 0 < rotateSlices laneIndex := Nat.lt_add_right _ (rightTables_pos laneIndex)
  refine ⟨fun t ht => ⟨rotateWidth_pos laneIndex ht, rotateWidth_le laneIndex t⟩, rightWidths laneIndex,
    leftWidths laneIndex, rotateReadData_lengths _ _, ?_, fun t ht => rotateReadData_c1_step laneIndex small ht,
    ?_, ?_, fun t ht => rotateReadData_c2_step laneIndex small ht, fun t ht => rotateReadData_key laneIndex small ht,
    fun t ht => ?_, fun t ht => rotateReadData_c3 _ _ ht⟩
  · rw [rotateReadData_c1 _ _ slicesPos, rotateOffset_zero, pow_zero, Nat.div_one]
  · rw [rotateReadData_c2 _ _ slicesPos, if_pos (rightTables_pos laneIndex), rotateOffset_zero, pow_zero,
      Nat.div_one]
  · rw [rotateReadData_c2_le laneIndex small (Nat.le_add_right _ _), if_neg (Nat.lt_irrefl _),
      rotateOffset_right, Nat.sub_self, pow_zero, Nat.div_one]
  · have inside := rotateOffset_add_rotateWidth laneIndex ht
    rw [rotateReadData_key laneIndex small ht, normalizeSparse_digitSum fun k hk => small _ (by omega)]

end Digits

section Rotate

variable {p : Nat}

/-- `normalize_and_rotate<laneIndex>` on a limb of 64 digits below 11: the lookup columns it builds
are as `RotateColumns` describes, and it returns the parities of the digits rotated left by
`ROTATIONS[laneIndex]` and, as `msb`, the parity of the limb's top digit. -/
theorem normalizeAndRotate_columns (large : 11 ^ 64 < p) (laneIndex : Nat) {b : Nat → Nat}
    (small : ∀ k < 64, b k < 11) :
    RotateColumns laneIndex b (rotateReadData laneIndex ((digitSum 11 64 b : Nat) : ZMod p).val) ∧
      normalizeAndRotate laneIndex ((digitSum 11 64 b : Nat) : ZMod p) =
        (((digitSum 11 64 fun k => b ((k + (64 - rotation laneIndex)) % 64) % 2 : Nat) : ZMod p),
          ((b 63 % 2 : Nat) : ZMod p)) := by
  rw [val_digitSum small large]
  exact ⟨rotateColumns laneIndex small, normalizeAndRotate_digitSum large laneIndex small⟩

theorem normalizeAndRotate_columns_ternary :
    (11 ^ 64 < frModulus ∧ ∀ k < 64, (fun k => k % 3 : Nat → Nat) k < 11) ∧
      RotateColumns 1 (fun k => k % 3) (rotateReadData 1 ((digitSum 11 64 (fun k => k % 3) : Nat) : ZMod frModulus).val) ∧
      normalizeAndRotate 1 ((digitSum 11 64 (fun k => k % 3) : Nat) : ZMod frModulus) =
        (((digitSum 11 64 fun k => (fun k => k % 3 : Nat → Nat) ((k + (64 - rotation 1)) % 64) % 2 : Nat) : ZMod frModulus),
          (((fun k => k % 3 : Nat → Nat) 63 % 2 : Nat) : ZMod frModulus)) :=
  have small : ∀ k < 64, (fun k => k % 3 : Nat → Nat) k < 11 := fun k _ => (Nat.mod_lt k (by norm_num)).trans (by norm_num)
  ⟨⟨by decide, small⟩, normalizeAndRotate_columns (by decide) 1 small⟩

end Rotate

end Aztec3Circuits.Keccak

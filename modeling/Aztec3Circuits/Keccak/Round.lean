import Mathlib.Tactic.LinearCombination
import Aztec3Circuits.Keccak.Theta

/-! The rounds of `keccakf1600` refine Keccak-f[1600]. θ leaves every lane holding its image
loosely (digits at most two); ρ normalises and rotates each lane; π only moves lanes; χ reads
`1 + 2A - B + C` digit by digit and restores the top bits; ι adds the round constant to lane 0,
normalises it and recomputes the twisted lanes, except after the last round. The top bits that ρ
writes are those of the unrotated lanes and π does not move them: they are stale until χ. -/
namespace Aztec3Circuits.Keccak

variable {p : Nat} {internal : KeccakState p} {A B : List (BitVec 64)}

/-- The lanes alone hold `B` in sparse form, whatever `state_msb` holds. -/
def StateHolds (state : List (ZMod p)) (B : List (BitVec 64)) : Prop :=
  ∀ i < 25, state.getD i 0 = (laneSparse (B.getD i 0) : ZMod p)

theorem pow_lt_of_large (large : 11 ^ 66 < p) : 11 ^ 64 < p :=
  lt_of_le_of_lt (Nat.pow_le_pow_right (by norm_num) (by norm_num)) large

theorem rotateLeft_zero (s : BitVec 64) : s.rotateLeft 0 = s :=
  eq_of_bit_eq fun k hk => by rw [bit_rotateLeft (by norm_num) hk, Nat.add_mod_right, Nat.mod_eq_of_lt hk]

/-! ### ρ and π -/

theorem rho_state (large : 11 ^ 66 < p) (loose : ∀ i < 25, HoldsLoosely (internal.state.getD i 0) (B.getD i 0)) :
    StateHolds (rho internal).state (Spec.rho B) := fun i hi => by
  simp only [rho, Spec.rho]
  rw [getD_map_range _ hi, getD_map_range _ hi, normalizeAndRotate_holdsLoosely (pow_lt_of_large large) i (loose i hi)]

theorem pi_state_getD {j : Nat} (hj : j < 25) :
    (pi internal).state.getD j 0 = internal.state.getD ((j % 5 + 3 * (j / 5)) % 5 + 5 * (j % 5)) 0 := by
  have mem : (j % 5, (j % 5 + 3 * (j / 5)) % 5) ∈ piWrites := by
    simp only [piWrites, List.mem_flatMap, List.mem_map, List.mem_range]
    exact ⟨j % 5, Nat.mod_lt _ (by norm_num), _, Nat.mod_lt _ (by norm_num), rfl⟩
  have target : (2 * ((j % 5 + 3 * (j / 5)) % 5) + 3 * (j % 5)) % 5 * 5 +
      (0 * ((j % 5 + 3 * (j / 5)) % 5) + 1 * (j % 5)) % 5 = j := by
    have lanes : ∀ j < 25, (2 * ((j % 5 + 3 * (j / 5)) % 5) + 3 * (j % 5)) % 5 * 5 +
        (0 * ((j % 5 + 3 * (j / 5)) % 5) + 1 * (j % 5)) % 5 = j := by decide
    exact lanes j hj
  simp only [pi]
  rw [getD_map_range _ hj]
  conv_lhs => rw [← target]
  rw [foldl_update_pos (fun yx : Nat × Nat => (2 * yx.2 + 3 * yx.1) % 5 * 5 + (0 * yx.2 + 1 * yx.1) % 5)
    (fun yx => internal.state.getD (5 * yx.1 + yx.2) 0) piWrites (by decide) _ mem]
  congr 1
  omega

theorem pi_state (lanes : StateHolds internal.state B) : StateHolds (pi internal).state (Spec.pi B) :=
  fun j hj => by
    rw [pi_state_getD hj, lanes _ (by omega), Spec.pi, getD_map_range _ hj]

/-! ### χ -/

theorem chi_digitSum (a b c : BitVec 64) :
    (digitSum 11 64 fun k => 1 + 2 * bit a k + bit c k - bit b k) + laneSparse b =
      laneSparse a + laneSparse a + chiOffset + laneSparse c := by
  simp only [laneSparse, chiOffset, ← digitSum_add]
  exact digitSum_congr fun k _ => by have := bit_lt_two (s := b) (k := k); omega

theorem laneSparse_le_chiOffset (s : BitVec 64) : laneSparse s ≤ chiOffset := by
  have split : chiOffset = laneSparse s + digitSum 11 64 fun k => 1 - bit s k := by
    rw [laneSparse, ← digitSum_add, chiOffset]
    exact digitSum_congr fun k _ => by have := bit_lt_two (s := s) (k := k); omega
  omega

theorem chi_digits_lt (a b c : BitVec 64) : ∀ k < 64, 1 + 2 * bit a k + bit c k - bit b k < 11 := fun k _ => by
  have := bit_lt_two (s := a) (k := k)
  have := bit_lt_two (s := c) (k := k)
  omega

theorem chi_input (a b c : BitVec 64) :
    (laneSparse a : ZMod p) + laneSparse a + (chiOffset : ZMod p) + -(laneSparse b : ZMod p) + laneSparse c =
      ((digitSum 11 64 fun k => 1 + 2 * bit a k + bit c k - bit b k : Nat) : ZMod p) := by
  have cast := congrArg (Nat.cast : Nat → ZMod p) (chi_digitSum a b c)
  push_cast at cast
  linear_combination -cast

theorem chiOutput_input (large : 11 ^ 64 < p) (a b c : BitVec 64) :
    chiOutput ((laneSparse a : ZMod p) + laneSparse a + (chiOffset : ZMod p) + -(laneSparse b : ZMod p) +
      laneSparse c).val = (laneSparse (a ^^^ (~~~b &&& c)), bit (a ^^^ (~~~b &&& c)) 63) := by
  have small := chi_digits_lt a b c
  rw [chi_input, val_digitSum small large, chiOutput_digitSum small, ← bit_chi (by norm_num)]
  exact Prod.ext (digitSum_congr fun k hk => (bit_chi hk).symm) rfl

def chiLane (B : List (BitVec 64)) (j : Nat) : ZMod p × ZMod p :=
  ((laneSparse ((Spec.chi B).getD j 0) : ZMod p), (bit ((Spec.chi B).getD j 0) 63 : ZMod p))

theorem foldl_writeLane (lanes : (Nat → ZMod p) × (Nat → ZMod p)) (y : Nat) (read : Nat → Nat × Nat) (j : Nat) :
    (((List.range 5).foldl (fun l x => writeLane l (y * 5 + x) (read x)) lanes).1 j,
        ((List.range 5).foldl (fun l x => writeLane l (y * 5 + x) (read x)) lanes).2 j) =
      if j / 5 = y then (((read (j % 5)).1 : ZMod p), ((read (j % 5)).2 : ZMod p)) else (lanes.1 j, lanes.2 j) := by
  have nodup : ((List.range 5).map (y * 5 + ·)).Nodup := (List.nodup_range 5).map fun _ _ => Nat.add_left_cancel
  have frame : ∀ (l : (Nat → ZMod p) × (Nat → ZMod p)) x k, k ≠ y * 5 + x →
      ((writeLane l (y * 5 + x) (read x)).1 k, (writeLane l (y * 5 + x) (read x)).2 k) = (l.1 k, l.2 k) :=
    fun l x k ne => by simp only [writeLane, Function.update_noteq ne]
  split_ifs with inRow
  · obtain ⟨x, hx, rfl⟩ : ∃ x < 5, j = y * 5 + x := ⟨j % 5, Nat.mod_lt _ (by norm_num), by omega⟩
    rw [show (y * 5 + x) % 5 = x by omega]
    exact foldl_sel_pos (fun l x => writeLane l (y * 5 + x) (read x)) (fun l k => (l.1 k, l.2 k)) (y * 5 + ·)
      (fun x _ => (((read x).1 : ZMod p), ((read x).2 : ZMod p))) frame (fun l x => by simp [writeLane]) _ lanes x
      nodup (List.mem_range.mpr hx)
  · exact foldl_sel_of_forall_ne (fun l x => writeLane l (y * 5 + x) (read x)) (fun l k => (l.1 k, l.2 k))
      (y * 5 + ·) frame _ lanes j fun x mem same => inRow (by simp only [List.mem_range] at mem; simp only at same; omega)

theorem chiRow_spec (large : 11 ^ 64 < p) (lanes : (Nat → ZMod p) × (Nat → ZMod p)) {y : Nat} (hy : y < 5)
    (row : ∀ x < 5, lanes.1 (y * 5 + x) = (laneSparse (B.getD (y * 5 + x) 0) : ZMod p)) (j : Nat) :
    ((chiRow lanes y).1 j, (chiRow lanes y).2 j) = if j / 5 = y then chiLane B j else (lanes.1 j, lanes.2 j) := by
  simp only [chiRow, chiInput]
  rw [foldl_writeLane]
  split_ifs with inRow
  · obtain ⟨x, hx, rfl⟩ : ∃ x < 5, j = y * 5 + x := ⟨j % 5, Nat.mod_lt _ (by norm_num), by omega⟩
    rw [show (y * 5 + x) % 5 = x by omega, getD_map_range _ hx, row x hx, row _ (Nat.mod_lt _ (by norm_num)),
      row _ (Nat.mod_lt _ (by norm_num)), chiOutput_input large, chiLane, Spec.chi, getD_map_range _ (by omega),
      show (y * 5 + x) % 5 = x by omega, show (y * 5 + x) / 5 = y by omega, Nat.mul_comm 5 y, Nat.add_comm _ (y * 5),
      Nat.add_comm ((x + 2) % 5)]
  · rfl

theorem chiRows_spec (large : 11 ^ 64 < p) (lanes : StateHolds internal.state B) {m : Nat} (hm : m ≤ 5) (j : Nat) :
    (((List.range m).foldl chiRow (fun j => internal.state.getD j 0, fun j => internal.stateMsb.getD j 0)).1 j,
        ((List.range m).foldl chiRow (fun j => internal.state.getD j 0, fun j => internal.stateMsb.getD j 0)).2 j) =
      if j / 5 < m then chiLane B j else (internal.state.getD j 0, internal.stateMsb.getD j 0) := by
  induction m generalizing j with
  | zero => rfl
  | succ m ih =>
    have earlier := fun j => ih (by omega) j
    simp only [List.range_succ, List.foldl_append, List.foldl_cons, List.foldl_nil]
    rw [chiRow_spec large _ (by omega) (fun x hx => ?_) j]
    · by_cases here : j / 5 = m
      · rw [if_pos here, if_pos (by omega)]
      · rw [if_neg here, earlier j]
        simp only [show j / 5 < m + 1 ↔ j / 5 < m by omega]
    · have lane := congrArg Prod.fst (earlier (m * 5 + x))
      simp only at lane
      rw [lane, if_neg (by omega), lanes _ (by omega)]

theorem chi_lanesHold (large : 11 ^ 66 < p) (lanes : StateHolds internal.state B) :
    LanesHold (chi internal) (Spec.chi B) := by
  have rows := fun j => chiRows_spec (pow_lt_of_large large) lanes (le_refl 5) j
  refine ⟨fun j hj => ?_, fun j hj => ?_⟩ <;> simp only [chi] <;> rw [getD_map_range _ hj]
  · have lane := congrArg Prod.fst (rows j)
    simp only at lane
    rw [lane, if_pos (by omega)]
    rfl
  · have lane := congrArg Prod.snd (rows j)
    simp only at lane
    rw [lane, if_pos (by omega)]
    rfl

def chiLanesAt (internal : KeccakState p) (y : Nat) : (Nat → ZMod p) × (Nat → ZMod p) :=
  (List.range y).foldl chiRow (fun j => internal.state.getD j 0, fun j => internal.stateMsb.getD j 0)

def ChiInputUnreduced (lanes : Nat → ZMod p) (y x : Nat) : Prop :=
  Unreduced (chiInput lanes y x)
    ((lanes (y * 5 + x)).val + (lanes (y * 5 + x)).val + chiOffset - (lanes (y * 5 + (x + 1) % 5)).val +
      (lanes (y * 5 + (x + 2) % 5)).val)

theorem chiInput_unreduced (large : 11 ^ 66 < p) {lanes : Nat → ZMod p} {y : Nat}
    (row : ∀ x < 5, lanes (y * 5 + x) = (laneSparse (B.getD (y * 5 + x) 0) : ZMod p)) {x : Nat} (hx : x < 5) :
    ChiInputUnreduced lanes y x := by
  have fits := pow_lt_of_le large (show 64 ≤ 66 by norm_num)
  have sum := chi_digitSum (B.getD (y * 5 + x) 0) (B.getD (y * 5 + (x + 1) % 5) 0) (B.getD (y * 5 + (x + 2) % 5) 0)
  unfold ChiInputUnreduced chiInput
  rw [row x hx, row _ (Nat.mod_lt _ (by norm_num)), row _ (Nat.mod_lt _ (by norm_num)), chi_input]
  refine unreduced_of_eq large rfl ((digitSum_lt (chi_digits_lt _ _ _)).trans (by norm_num)) ?_
  have := laneSparse_le_chiOffset (B.getD (y * 5 + (x + 1) % 5) 0)
  rw [val_laneSparse fits, val_laneSparse fits, val_laneSparse fits]
  omega

theorem chi_unreduced (large : 11 ^ 66 < p) (lanes : StateHolds internal.state B) {y : Nat} (hy : y < 5) {x : Nat}
    (hx : x < 5) : ChiInputUnreduced (chiLanesAt internal y).1 y x :=
  chiInput_unreduced large (fun x' hx' => by
    have lane := congrArg Prod.fst (chiRows_spec (pow_lt_of_large large) lanes hy.le (y * 5 + x'))
    simp only at lane
    rw [chiLanesAt, lane, if_neg (by omega), lanes _ (by omega)]) hx

/-! ### ι and the rounds -/

theorem iota_lane (large : 11 ^ 66 < p) (lanes : LanesHold internal B) (round : Nat) :
    normalizeAndRotate 0 (internal.state.getD 0 0 + (sparseRc round : ZMod p)) =
      ((laneSparse (B.getD 0 0 ^^^ roundConstant round) : ZMod p), (bit (B.getD 0 0 ^^^ roundConstant round) 63 : ZMod p)) := by
  rw [lanes.state 0 (by norm_num), sparseRc,
    normalizeAndRotate_holdsLoosely (pow_lt_of_large large) 0 (holdsLoosely_add _ _), show rotation 0 = 0 from rfl,
    rotateLeft_zero]

theorem iota_lanesHold (large : 11 ^ 66 < p) (lanes : LanesHold internal B) (round : Nat) :
    LanesHold (iota internal round) (Spec.iota round B) ∧
      (round ≠ 23 → Holds (iota internal round) (Spec.iota round B)) := by
  have spec : ∀ i < 25, (Spec.iota round B).getD i 0 = if i = 0 then B.getD 0 0 ^^^ roundConstant round else B.getD i 0 :=
    fun i hi => getD_map_range _ hi _
  have state : ∀ i < 25, (internal.state.set 0 (normalizeAndRotate 0 (internal.state.getD 0 0 + (sparseRc round : ZMod p))).1).getD i 0 =
      (laneSparse ((Spec.iota round B).getD i 0) : ZMod p) := fun i hi => by
    rw [getD_set _ (by rw [internal.state_length]; norm_num), spec i hi, iota_lane large lanes]
    split_ifs
    · rfl
    · exact lanes.state i hi
  have msb : ∀ i < 25, (internal.stateMsb.set 0 (normalizeAndRotate 0 (internal.state.getD 0 0 + (sparseRc round : ZMod p))).2).getD i 0 =
      (bit ((Spec.iota round B).getD i 0) 63 : ZMod p) := fun i hi => by
    rw [getD_set _ (by rw [internal.stateMsb_length]; norm_num), spec i hi, iota_lane large lanes]
    split_ifs
    · rfl
    · exact lanes.msb i hi
  simp only [iota]
  split_ifs with last
  · exact ⟨⟨state, msb⟩, fun _ => computeTwistedState_holds ⟨state, msb⟩⟩
  · exact ⟨⟨state, msb⟩, fun notLast => absurd notLast last⟩

theorem iota_unreduced (large : 11 ^ 66 < p) (lanes : LanesHold internal B) (round : Nat) :
    Unreduced (internal.state.getD 0 0 + (sparseRc round : ZMod p)) ((internal.state.getD 0 0).val + sparseRc round) := by
  have sum := laneSparse_add_unreduced large (p := p) (B.getD 0 0) (roundConstant round)
  rw [val_laneSparse (pow_lt_of_le large (by norm_num)) (roundConstant round)] at sum
  rwa [lanes.state 0 (by norm_num), sparseRc]

theorem round_holds (large : 11 ^ 66 < p) (holds : Holds internal A) (round : Nat) :
    LanesHold (iota (chi (pi (rho (theta internal)))) round) (Spec.round A round) ∧
      (round ≠ 23 → Holds (iota (chi (pi (rho (theta internal)))) round) (Spec.round A round)) :=
  iota_lanesHold large (chi_lanesHold large (pi_state (rho_state large fun _ hi => theta_holdsLoosely large holds hi)))
    round

theorem rounds_holds (large : 11 ^ 66 < p) (holds : Holds internal A) {n : Nat} (hn : n ≤ 23) :
    Holds ((List.range n).foldl (fun internal i => iota (chi (pi (rho (theta internal)))) i) internal)
      ((List.range n).foldl Spec.round A) := by
  induction n with
  | zero => exact holds
  | succ n ih =>
    simp only [List.range_succ, List.foldl_append, List.foldl_cons, List.foldl_nil]
    exact (round_holds large (ih (by omega)) n).2 (by omega)

/-- The sums of one round from a state at θ's entry are computed without a reduction modulo `p`:
θ's column sums and `D[i]`, χ's `2A + CHI_OFFSET - B + C` and ι's lane 0 plus the round constant. -/
structure RoundUnreduced (internal : KeccakState p) (round : Nat) : Prop where
  thetaSums : ThetaUnreduced internal
  chiSums : ∀ y < 5, ∀ x < 5, ChiInputUnreduced (chiLanesAt (pi (rho (theta internal))) y).1 y x
  iotaSum : Unreduced ((chi (pi (rho (theta internal)))).state.getD 0 0 + (sparseRc round : ZMod p))
    (((chi (pi (rho (theta internal)))).state.getD 0 0).val + sparseRc round)

theorem round_unreduced (large : 11 ^ 66 < p) (holds : Holds internal A) (round : Nat) :
    RoundUnreduced internal round :=
  have lanes := pi_state (rho_state large fun _ hi => theta_holdsLoosely large holds hi)
  ⟨theta_unreduced large holds, fun _ hy _ hx => chi_unreduced large lanes hy hx,
    iota_unreduced large (chi_lanesHold large lanes) round⟩

theorem keccakf1600_lanesHold (large : 11 ^ 66 < p) (holds : Holds internal A) :
    LanesHold (keccakf1600 internal) (Spec.keccakF A) := by
  simp only [keccakf1600, Spec.keccakF, List.range_succ 23, List.foldl_append, List.foldl_cons, List.foldl_nil]
  exact (round_holds large (rounds_holds large holds le_rfl) 23).1

end Aztec3Circuits.Keccak

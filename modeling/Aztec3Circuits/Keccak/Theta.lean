import Aztec3Circuits.Keccak.Lanes

/-! θ in the circuit. The twisted lane `11 * sparse(s) + bit 63` has bit 63 of `s` at its lowest
digit and bits 0 to 63 above it. Adding the twisted lanes of column `(i + 4) % 5` to eleven times
those of column `(i + 1) % 5` puts at digit `m + 1` the number of ones at bit `m` of the first
column plus the number at bit `m - 1` (bit 63 for `m = 0`) of the second. No digit passes ten, so
nothing carries, and the parities of the slice `mid` between the lowest and the top digit are θ's
effect on column `i`: the rotation by one comes from the digit shift. -/
namespace Aztec3Circuits.Keccak

def twistedBit (s : BitVec 64) (k : Nat) : Nat := if k = 0 then bit s 63 else bit s (k - 1)

def columnBits (A : List (BitVec 64)) (x k : Nat) : Nat :=
  twistedBit (A.getD x 0) k + twistedBit (A.getD (x + 5) 0) k + twistedBit (A.getD (x + 10) 0) k +
    twistedBit (A.getD (x + 15) 0) k + twistedBit (A.getD (x + 20) 0) k

/-- Digit `k` of `D[i]`: column `(i + 4) % 5`, plus column `(i + 1) % 5` one digit up. -/
def thetaDigit (A : List (BitVec 64)) (i k : Nat) : Nat :=
  columnBits A ((i + 4) % 5) k + if k = 0 then 0 else columnBits A ((i + 1) % 5) (k - 1)

section Digits

variable (A : List (BitVec 64)) (s : BitVec 64)

theorem twistedBit_le_one (k : Nat) : twistedBit s k ≤ 1 := by
  unfold twistedBit
  split_ifs <;> exact Nat.le_of_lt_succ bit_lt_two

theorem twistedBit_top : twistedBit s 65 = 0 := by
  simp [twistedBit, bit]

theorem twisted_eq_digitSum : laneSparse s * 11 + bit s 63 = digitSum 11 65 (twistedBit s) := by
  rw [digitSum_succ', laneSparse]
  simp only [twistedBit, if_pos, Nat.add_sub_cancel, Nat.succ_ne_zero, if_false]
  ring

theorem columnBits_le (x k : Nat) : columnBits A x k ≤ 5 := by
  have := twistedBit_le_one (A.getD x 0) k
  have := twistedBit_le_one (A.getD (x + 5) 0) k
  have := twistedBit_le_one (A.getD (x + 10) 0) k
  have := twistedBit_le_one (A.getD (x + 15) 0) k
  have := twistedBit_le_one (A.getD (x + 20) 0) k
  unfold columnBits
  omega

theorem thetaDigit_le (i k : Nat) : thetaDigit A i k ≤ 10 := by
  have := columnBits_le A ((i + 4) % 5) k
  have := columnBits_le A ((i + 1) % 5) (k - 1)
  unfold thetaDigit
  split_ifs <;> omega

theorem bit_parity (x m : Nat) :
    bit (Spec.parity A x) m = (bit (A.getD x 0) m + bit (A.getD (x + 5) 0) m + bit (A.getD (x + 10) 0) m +
      bit (A.getD (x + 15) 0) m + bit (A.getD (x + 20) 0) m) % 2 := by
  simp only [Spec.parity, bit_xor]
  omega

theorem thetaDigit_succ_parity (i : Nat) {m : Nat} (hm : m < 64) :
    thetaDigit A i (m + 1) % 2 = bit (Spec.thetaEffect A i) m := by
  rw [Spec.thetaEffect, bit_xor, bit_rotateLeft (by norm_num) hm, bit_parity, bit_parity]
  simp only [thetaDigit, columnBits, twistedBit, Nat.add_sub_cancel, Nat.succ_ne_zero, if_false]
  rcases Nat.eq_zero_or_pos m with rfl | pos
  · simp only [if_true, show (0 + (64 - 1)) % 64 = 63 from rfl]
    omega
  · simp only [pos.ne', if_false, show (m + (64 - 1)) % 64 = m - 1 by omega]
    omega

theorem columnBits_digitSum (x : Nat) :
    digitSum 11 65 (columnBits A x) = digitSum 11 65 (twistedBit (A.getD x 0)) +
      digitSum 11 65 (twistedBit (A.getD (x + 5) 0)) + digitSum 11 65 (twistedBit (A.getD (x + 10) 0)) +
      digitSum 11 65 (twistedBit (A.getD (x + 15) 0)) + digitSum 11 65 (twistedBit (A.getD (x + 20) 0)) := by
  simp only [← digitSum_add]
  rfl

theorem thetaDigit_digitSum (i : Nat) :
    digitSum 11 66 (thetaDigit A i) =
      digitSum 11 65 (columnBits A ((i + 4) % 5)) + digitSum 11 65 (columnBits A ((i + 1) % 5)) * 11 := by
  have low : digitSum 11 66 (columnBits A ((i + 4) % 5)) = digitSum 11 65 (columnBits A ((i + 4) % 5)) := by
    rw [digitSum_succ]
    simp [columnBits, twistedBit_top]
  have high : (digitSum 11 66 fun k => if k = 0 then 0 else columnBits A ((i + 1) % 5) (k - 1)) =
      11 * digitSum 11 65 (columnBits A ((i + 1) % 5)) := by
    rw [digitSum_succ']
    simp
  have split : digitSum 11 66 (thetaDigit A i) = digitSum 11 66 (columnBits A ((i + 4) % 5)) +
      digitSum 11 66 fun k => if k = 0 then 0 else columnBits A ((i + 1) % 5) (k - 1) := digitSum_add
  rw [split, low, high, Nat.mul_comm]

end Digits

theorem thetaSlices_digitSum {d : Nat → Nat} (small : ∀ k < 66, d k < 11) :
    thetaSlices (digitSum 11 66 d) = (d 0, digitSum 11 64 fun m => d (m + 1), d 65) := by
  have upper : ∀ k < 65, d (k + 1) < 11 := fun k hk => small (k + 1) (by omega)
  have quotient : digitSum 11 66 d / 11 = digitSum 11 65 fun k => d (k + 1) := by
    rw [digitSum_succ', Nat.add_mul_div_left _ _ (by norm_num), Nat.div_eq_of_lt (small 0 (by norm_num)),
      Nat.zero_add]
  have top : (digitSum 11 65 fun k => d (k + 1)) / 11 ^ 64 = d 65 := by
    rw [show 65 = 64 + 1 from rfl, digitSum_div fun k hk => upper k (by omega), digitSum_succ, digitSum_zero]
    simp
  have rest : (digitSum 11 65 fun k => d (k + 1)) % 11 ^ 64 = digitSum 11 64 fun m => d (m + 1) := by
    rw [show 65 = 64 + 1 from rfl, digitSum_mod fun k hk => upper k (by omega)]
  simp only [thetaSlices, quotient, top]
  refine Prod.ext ?_ (Prod.ext ?_ rfl)
  · rw [digitSum_succ', Nat.add_mul_mod_self_left, Nat.mod_eq_of_lt (small 0 (by norm_num))]
  · show (digitSum 11 65 fun k => d (k + 1)) - d 65 * 11 ^ 64 = _
    rw [← rest, Nat.mod_def, top, Nat.mul_comm]

variable {p : Nat} {internal : KeccakState p} {A : List (BitVec 64)}

theorem twistedState_getD (holds : Holds internal A) {j : Nat} (hj : j < 25) :
    internal.twistedState.getD j 0 = ((digitSum 11 65 (twistedBit (A.getD j 0)) : Nat) : ZMod p) := by
  rw [holds.twisted j hj, holds.state j hj, holds.msb j hj, ← twisted_eq_digitSum]
  push_cast
  rfl

theorem thetaColumns_getD (holds : Holds internal A) {x : Nat} (hx : x < 5) :
    (thetaColumns internal).getD x 0 = ((digitSum 11 65 (columnBits A x) : Nat) : ZMod p) := by
  rw [thetaColumns, getD_map_range _ hx, columnBits_digitSum]
  push_cast
  rw [twistedState_getD holds (by omega), twistedState_getD holds (by omega), twistedState_getD holds (by omega),
    twistedState_getD holds (by omega), twistedState_getD holds (by omega), Nat.add_comm 5 x, Nat.add_comm 10 x,
    Nat.add_comm 15 x, Nat.add_comm 20 x]

theorem thetaD_getD (holds : Holds internal A) {i : Nat} (hi : i < 5) :
    (thetaD internal).getD i 0 = ((digitSum 11 66 (thetaDigit A i) : Nat) : ZMod p) := by
  rw [thetaD, getD_map_range _ hi, thetaColumns_getD holds (Nat.mod_lt _ (by norm_num)),
    thetaColumns_getD holds (Nat.mod_lt _ (by norm_num)), thetaDigit_digitSum]
  push_cast
  rfl

theorem normalizedD_getD (large : 11 ^ 66 < p) (holds : Holds internal A) {i : Nat} (hi : i < 5) :
    ((thetaD internal).map fun d => ((thetaOutput (thetaSlices d.val).2.1 : Nat) : ZMod p)).getD i 0 =
      (laneSparse (Spec.thetaEffect A i) : ZMod p) := by
  have small : ∀ k < 66, thetaDigit A i k < 11 := fun k _ => Nat.lt_succ_of_le (thetaDigit_le A i k)
  rw [getD_map_of_lt _ (by simpa [thetaD] using hi) _ 0, thetaD_getD holds hi, val_digitSum small large,
    thetaSlices_digitSum small, thetaOutput_digitSum fun k hk => small (k + 1) (by omega)]
  exact congrArg _ (digitSum_congr fun m hm => thetaDigit_succ_parity A i hm)

theorem theta_holdsLoosely (large : 11 ^ 66 < p) (holds : Holds internal A) {k : Nat} (hk : k < 25) :
    HoldsLoosely ((theta internal).state.getD k 0) ((Spec.theta A).getD k 0) := by
  simp only [theta, Spec.theta]
  rw [getD_map_range _ hk, getD_map_range _ hk, holds.state k hk, normalizedD_getD large holds (Nat.mod_lt _ (by norm_num))]
  exact holdsLoosely_add _ _

/-- What θ's witnesses for one `D[i]` satisfy, `D` the integer of `D[i]`: its base-11 digits are
the column counts, so nothing carries; `hi * 11 ^ 65 + mid * 11 + lo` recomposes it, `lo` and `hi`
are at most five, and the digits of `mid` have the parities of θ's effect on column `i`. -/
structure ThetaSliceFacts (A : List (BitVec 64)) (i D : Nat) : Prop where
  digits : ∀ k < 66, D / 11 ^ k % 11 = thetaDigit A i k ∧ thetaDigit A i k ≤ 10
  lt : D < 11 ^ 66
  recompose : D = (thetaSlices D).2.2 * 11 ^ 65 + (thetaSlices D).2.1 * 11 + (thetaSlices D).1
  lo_le : (thetaSlices D).1 ≤ 5
  hi_le : (thetaSlices D).2.2 ≤ 5
  parity : ∀ m < 64, (thetaSlices D).2.1 / 11 ^ m % 11 % 2 = bit (Spec.thetaEffect A i) m

theorem thetaSliceFacts (large : 11 ^ 66 < p) (holds : Holds internal A) {i : Nat} (hi : i < 5) :
    ThetaSliceFacts A i ((thetaD internal).getD i 0).val := by
  have small : ∀ k < 66, thetaDigit A i k < 11 := fun k _ => Nat.lt_succ_of_le (thetaDigit_le A i k)
  have top : ∀ x, columnBits A x 65 = 0 := fun x => by simp [columnBits, twistedBit_top]
  rw [thetaD_getD holds hi, val_digitSum small large]
  refine ⟨fun k hk => ⟨digit_digitSum small hk, thetaDigit_le A i k⟩, digitSum_lt small, ?_, ?_, ?_, fun m hm => ?_⟩ <;>
    rw [thetaSlices_digitSum small]
  · rw [digitSum_succ', digitSum_succ]
    ring
  · simpa [thetaDigit] using columnBits_le A ((i + 4) % 5) 0
  · simpa [thetaDigit, top] using columnBits_le A ((i + 1) % 5) 64
  · rw [digit_digitSum (fun k hk => small (k + 1) (by omega)) hm]
    exact thetaDigit_succ_parity A i hm

/-- θ's column sums and its `D[i]` are computed without a reduction modulo `p`. -/
structure ThetaUnreduced (internal : KeccakState p) : Prop where
  columns : ∀ x < 5, Unreduced ((thetaColumns internal).getD x 0)
    ((internal.twistedState.getD x 0).val + (internal.twistedState.getD (5 + x) 0).val +
      (internal.twistedState.getD (10 + x) 0).val + (internal.twistedState.getD (15 + x) 0).val +
      (internal.twistedState.getD (20 + x) 0).val)
  d : ∀ i < 5, Unreduced ((thetaD internal).getD i 0)
    (((thetaColumns internal).getD ((i + 4) % 5) 0).val + ((thetaColumns internal).getD ((i + 1) % 5) 0).val * 11)

theorem val_twistedState (large : 11 ^ 66 < p) (holds : Holds internal A) {j : Nat} (hj : j < 25) :
    (internal.twistedState.getD j 0).val = digitSum 11 65 (twistedBit (A.getD j 0)) := by
  rw [twistedState_getD holds hj,
    val_digitSum (fun k _ => Nat.lt_succ_of_le ((twistedBit_le_one _ k).trans (by norm_num))) (pow_lt_of_le large (by norm_num))]

theorem val_thetaColumns (large : 11 ^ 66 < p) (holds : Holds internal A) {x : Nat} (hx : x < 5) :
    ((thetaColumns internal).getD x 0).val = digitSum 11 65 (columnBits A x) := by
  rw [thetaColumns_getD holds hx,
    val_digitSum (fun k _ => Nat.lt_succ_of_le ((columnBits_le A x k).trans (by norm_num))) (pow_lt_of_le large (by norm_num))]

theorem theta_unreduced (large : 11 ^ 66 < p) (holds : Holds internal A) : ThetaUnreduced internal where
  columns x hx := by
    have small : ∀ k < 65, columnBits A x k < 11 := fun k _ => Nat.lt_succ_of_le ((columnBits_le A x k).trans (by norm_num))
    refine unreduced_of_eq large (thetaColumns_getD holds hx) ((digitSum_lt small).trans (by norm_num)) ?_
    rw [columnBits_digitSum, val_twistedState large holds (by omega), val_twistedState large holds (by omega),
      val_twistedState large holds (by omega), val_twistedState large holds (by omega),
      val_twistedState large holds (by omega), Nat.add_comm 5 x, Nat.add_comm 10 x, Nat.add_comm 15 x, Nat.add_comm 20 x]
  d i hi := by
    refine unreduced_of_eq large (thetaD_getD holds hi) (digitSum_lt fun k _ => Nat.lt_succ_of_le (thetaDigit_le A i k)) ?_
    rw [val_thetaColumns large holds (Nat.mod_lt _ (by norm_num)), val_thetaColumns large holds (Nat.mod_lt _ (by norm_num)),
      thetaDigit_digitSum]

theorem theta_digits (large : 11 ^ 66 < p) (holds : Holds internal A) :
    (∀ i < 5, ThetaSliceFacts A i ((thetaD internal).getD i 0).val) ∧
      ∀ k < 25, HoldsLoosely ((theta internal).state.getD k 0) ((Spec.theta A).getD k 0) :=
  ⟨fun _ hi => thetaSliceFacts large holds hi, fun _ hk => theta_holdsLoosely large holds hk⟩

theorem theta_digits_permuted :
    11 ^ 66 < frModulus ∧
      Holds (KeccakState.ofLanes frModulus (Spec.keccakF (List.replicate 25 0))) (Spec.keccakF (List.replicate 25 0)) ∧
      ((∀ i < 5, ThetaSliceFacts (Spec.keccakF (List.replicate 25 0)) i
          ((thetaD (KeccakState.ofLanes frModulus (Spec.keccakF (List.replicate 25 0)))).getD i 0).val) ∧
        ∀ k < 25, HoldsLoosely ((theta (KeccakState.ofLanes frModulus (Spec.keccakF (List.replicate 25 0)))).state.getD k 0)
          ((Spec.theta (Spec.keccakF (List.replicate 25 0))).getD k 0)) :=
  have large : 11 ^ 66 < frModulus := by norm_num [frModulus]
  ⟨large, ofLanes_holds _ _, theta_digits large (ofLanes_holds _ _)⟩

end Aztec3Circuits.Keccak

import Mathlib.Data.ZMod.Basic
import Mathlib.Tactic.Ring

/-! The prime fields of `barretenberg::field`. An element is stored as four 64-bit limbs, read
here as one integer below `2 ^ 256`, in Montgomery form: the stored integer `x` stands for the
residue `x * R⁻¹` with `R = 2 ^ 256`, and is kept in the coarse range `[0, 2p)`. The arithmetic
of `field_impl` is not part of the sources: the Montgomery product and the coarse subtraction
are modelled from the description of the field, over the constants of its `Params`. -/
namespace Aztec3Circuits.Field

def radix : Nat := 2 ^ 256

/-- The constants of a field's `Params` that its arithmetic reads: the modulus, `-p⁻¹ mod R`
for the reduction, and `R⁻¹ mod p`, each with the law that defines it. -/
structure Montgomery where
  modulus : Nat
  negInv : Nat
  rInv : ZMod modulus
  negInv_law : (modulus * negInv + 1) % radix = 0
  rInv_law : (radix : ZMod modulus) * rInv = 1

namespace Montgomery

variable (M : Montgomery)

def value (x : Nat) : ZMod M.modulus := x * M.rInv

/-- `twice_modulus = modulus + modulus`. -/
def twiceModulus : Nat := M.modulus + M.modulus

/-- Modelled from the spec: the Montgomery reduction of `field_impl`, not part of the sources:
`t * p⁻¹ mod R` multiples of the modulus cancel the low 256 bits of `t`, which are dropped. -/
def reduce (t : Nat) : Nat := (t + t * M.negInv % radix * M.modulus) / radix

/-- Modelled from the spec: `operator*` of `field_impl`, the 512-bit product Montgomery-reduced. -/
def mul (a b : Nat) : Nat := M.reduce (a * b)

/-- Modelled from the spec: `operator-` of `field_impl` on coarse representatives: the
difference of the stored integers, with `2p` added back on a borrow. -/
def sub (a b : Nat) : Nat := if b ≤ a then a - b else a + M.twiceModulus - b

/-- `conditionally_subtract_from_double_modulus(predicate)`: `2p - x` for a nonzero predicate. -/
def conditionallySubtractFromDoubleModulus (x predicate : Nat) : Nat :=
  if predicate ≠ 0 then M.sub M.twiceModulus x else x

theorem radix_dvd_reduce (t : Nat) : radix ∣ t + t * M.negInv % radix * M.modulus := by
  have low : t * M.negInv % radix * M.modulus ≡ t * M.negInv * M.modulus [MOD radix] :=
    (Nat.mod_modEq _ _).mul_right _
  have cancel : t * (M.modulus * M.negInv + 1) ≡ 0 [MOD radix] :=
    Nat.modEq_zero_iff_dvd.mpr (Dvd.dvd.mul_left (Nat.dvd_of_mod_eq_zero M.negInv_law) t)
  refine Nat.modEq_zero_iff_dvd.mp ((Nat.ModEq.add_left t low).trans ?_)
  rwa [show t + t * M.negInv * M.modulus = t * (M.modulus * M.negInv + 1) by ring]

theorem modulus_pos : 0 < M.modulus := by
  have law := M.negInv_law
  refine Nat.pos_of_ne_zero fun zero => ?_
  rw [zero, Nat.zero_mul, Nat.zero_add] at law
  exact absurd law (by decide)

theorem reduce_lt {t c : Nat} (ht : t < radix * c) : M.reduce t < c + M.modulus := by
  have low : t * M.negInv % radix * M.modulus < radix * M.modulus :=
    Nat.mul_lt_mul_of_pos_right (Nat.mod_lt _ (by decide)) M.modulus_pos
  rw [reduce, Nat.div_lt_iff_lt_mul (by decide), Nat.add_mul, Nat.mul_comm c, Nat.mul_comm M.modulus]
  omega

theorem cast_reduce (t : Nat) : (M.reduce t : ZMod M.modulus) = t * M.rInv := by
  have exact : M.reduce t * radix = t + t * M.negInv % radix * M.modulus :=
    Nat.div_mul_cancel (M.radix_dvd_reduce t)
  calc (M.reduce t : ZMod M.modulus) = ((M.reduce t * radix : Nat) : ZMod M.modulus) * M.rInv := by
        rw [Nat.cast_mul, mul_assoc, M.rInv_law, mul_one]
    _ = t * M.rInv := by
        rw [exact, Nat.cast_add, Nat.cast_mul _ M.modulus, ZMod.natCast_self, mul_zero, add_zero]

@[simp] theorem cast_mul (a b : Nat) : (M.mul a b : ZMod M.modulus) = a * b * M.rInv := by
  rw [mul, cast_reduce, Nat.cast_mul]

@[simp] theorem value_mul (a b : Nat) : M.value (M.mul a b) = M.value a * M.value b := by
  rw [value, cast_mul, value, value]
  ring

@[simp] theorem cast_twiceModulus : (M.twiceModulus : ZMod M.modulus) = 0 := by
  rw [twiceModulus, Nat.cast_add, ZMod.natCast_self, add_zero]

@[simp] theorem value_twiceModulus : M.value M.twiceModulus = 0 := by
  rw [value, cast_twiceModulus, zero_mul]

theorem value_sub {a b : Nat} (coarse : b ≤ a + M.twiceModulus) :
    M.value (M.sub a b) = M.value a - M.value b := by
  unfold sub
  split_ifs with le
  · rw [value, Nat.cast_sub le, value, value, sub_mul]
  · simp only [value]
    rw [Nat.cast_sub coarse, Nat.cast_add, cast_twiceModulus]
    ring

theorem conditionallySubtractFromDoubleModulus_spec {x : Nat} (coarse : x < M.twiceModulus)
    (predicate : Nat) :
    M.value (M.conditionallySubtractFromDoubleModulus x predicate) =
        (if predicate ≠ 0 then -M.value x else M.value x) ∧
      (0 < x → M.conditionallySubtractFromDoubleModulus x predicate < M.twiceModulus) := by
  unfold conditionallySubtractFromDoubleModulus
  split_ifs with set
  · rw [value_sub M (by omega), value_twiceModulus, zero_sub, sub, if_pos coarse.le]
    exact ⟨rfl, fun pos => by omega⟩
  · exact ⟨rfl, fun _ => coarse⟩

end Montgomery

end Aztec3Circuits.Field

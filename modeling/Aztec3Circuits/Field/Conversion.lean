import Aztec3Circuits.Field.Endomorphism

/-! Conversions of `barretenberg::field` between integers and Montgomery form, and the
constructors from native integers. `to_montgomery_form`, `from_montgomery_form` and `self_neg`
belong to `field_impl`, which is not part of the sources; they are modelled from the description
of the field, whose conversions reduce fully into `[0, p)`. The constructor from a signed `int`
negates a negative input as an `int` before it casts it to `uint64_t`: on `INT_MIN` the negation
overflows, and under two's complement the cast then sign-extends `-2 ^ 31` itself, so that
`field(INT_MIN)` stands for `2 ^ 31 - 2 ^ 64` rather than `-2 ^ 31`. -/
namespace Aztec3Circuits.Field

namespace Montgomery

variable (M : Montgomery)

theorem reduceOnce_lt {x : Nat} (hx : x < M.twiceModulus) : M.reduceOnce x < M.modulus := by
  unfold reduceOnce twiceModulus at *
  split_ifs <;> omega

@[simp] theorem value_reduceOnce (x : Nat) : M.value (M.reduceOnce x) = M.value x := by
  rw [value, cast_reduceOnce, value]

end Montgomery

/-- The constants of a field's `Params` that its conversions read besides those of its
arithmetic: `r_squared = R ^ 2 mod p`, stored fully reduced, for a modulus of four limbs. -/
structure FieldParams extends Montgomery where
  rSquared : Nat
  modulus_lt : modulus < radix
  rSquared_lt : rSquared < modulus
  rSquared_law : (rSquared : ZMod modulus) = radix ^ 2

namespace FieldParams

variable (F : FieldParams)

/-- Modelled from the spec: `to_montgomery_form` of `field_impl`, the Montgomery product with
`r_squared`, reduced once into `[0, p)`. -/
def toMontgomeryForm (x : Nat) : Nat := F.reduceOnce (F.mul x F.rSquared)

/-- Modelled from the spec: `from_montgomery_form` of `field_impl`, the Montgomery product with
the raw integer `1`, reduced once into `[0, p)`. -/
def fromMontgomeryForm (x : Nat) : Nat := F.reduceOnce (F.mul x 1)

/-- Modelled from the spec: `self_neg` of `field_impl`, the difference from `twice_modulus`
that `conditionally_subtract_from_double_modulus` takes as well. -/
def selfNeg (x : Nat) : Nat := F.sub F.twiceModulus x

/-- `field(const unsigned long long input)`: `data = { input, 0, 0, 0 }`, taken to Montgomery
form. -/
def ofUInt64 (input : UInt64) : Nat := F.toMontgomeryForm input.toNat

/-- `field(const int input)`. A negative input stores `static_cast<uint64_t>(-input)` in
`data[0]`, takes it to Montgomery form and negates it, `self_neg()` then `self_reduce_once()`; any
other input is converted as it is. `-input` is the negation of a 32-bit `int` in two's complement
and the cast to `uint64_t` sign-extends. -/
def ofInt (input : BitVec 32) : Nat :=
  if input.toInt < 0 then
    F.reduceOnce (F.selfNeg (F.toMontgomeryForm (BitVec.signExtend 64 (-input)).toNat))
  else F.toMontgomeryForm (BitVec.signExtend 64 input).toNat

theorem toMontgomeryForm_lt {x : Nat} (hx : x < radix) : F.toMontgomeryForm x < F.modulus := by
  have product : x * F.rSquared < radix * F.modulus := Nat.mul_lt_mul'' hx F.rSquared_lt
  exact F.reduceOnce_lt (F.reduce_lt product)

theorem fromMontgomeryForm_lt {x : Nat} (hx : x < radix) : F.fromMontgomeryForm x < F.modulus := by
  have product : x * 1 < radix * 1 := by omega
  have reduced : F.mul x 1 < 1 + F.modulus := F.reduce_lt product
  have pos := F.modulus_pos
  exact F.reduceOnce_lt (by unfold Montgomery.twiceModulus; omega)

theorem cast_toMontgomeryForm (x : Nat) :
    (F.toMontgomeryForm x : ZMod F.modulus) = x * radix := by
  rw [toMontgomeryForm, Montgomery.cast_reduceOnce, Montgomery.cast_mul, F.rSquared_law,
    show (x : ZMod F.modulus) * radix ^ 2 * F.rInv = x * radix * (radix * F.rInv) by ring,
    F.rInv_law, mul_one]

@[simp] theorem value_toMontgomeryForm (x : Nat) : F.value (F.toMontgomeryForm x) = x := by
  rw [Montgomery.value, cast_toMontgomeryForm, mul_assoc, F.rInv_law, mul_one]

theorem cast_fromMontgomeryForm (x : Nat) : (F.fromMontgomeryForm x : ZMod F.modulus) = F.value x := by
  rw [fromMontgomeryForm, Montgomery.cast_reduceOnce, Montgomery.cast_mul, Nat.cast_one, mul_one]
  rfl

theorem fromMontgomeryForm_eq_val {x : Nat} (hx : x < radix) :
    F.fromMontgomeryForm x = (F.value x).val := by
  rw [← cast_fromMontgomeryForm, ZMod.val_cast_of_lt (F.fromMontgomeryForm_lt hx)]

theorem toMontgomeryForm_eq_val {x : Nat} (hx : x < radix) :
    F.toMontgomeryForm x = ((x : ZMod F.modulus) * radix).val := by
  rw [← cast_toMontgomeryForm, ZMod.val_cast_of_lt (F.toMontgomeryForm_lt hx)]

theorem value_selfNeg {x : Nat} (coarse : x ≤ F.twiceModulus + F.twiceModulus) :
    F.value (F.selfNeg x) = -F.value x := by
  rw [selfNeg, Montgomery.value_sub _ coarse, Montgomery.value_twiceModulus, zero_sub]

@[simp] theorem value_ofUInt64 (input : UInt64) : F.value (F.ofUInt64 input) = input.toNat := by
  rw [ofUInt64, value_toMontgomeryForm]

theorem toNat_signExtend (x : BitVec 32) :
    ((BitVec.signExtend 64 x).toNat : Int) = x.toInt % 2 ^ 64 := by
  rw [BitVec.signExtend, BitVec.toNat_ofInt, Int.toNat_of_nonneg (Int.emod_nonneg _ (by decide))]
  rfl

theorem toInt_bounds (x : BitVec 32) : -2 ^ 31 ≤ x.toInt ∧ x.toInt < 2 ^ 31 := by
  have least : (BitVec.intMin 32).toInt = -2 ^ 31 := by decide
  refine ⟨least ▸ BitVec.toInt_intMin_le x, ?_⟩
  have lt := x.isLt
  rw [BitVec.toInt_eq_toNat_cond]
  split_ifs <;> omega

/-- `field(n)` stands for `n` for every `int` but `INT_MIN`, whose negation overflows: it comes
back as `INT_MIN`, is sign-extended to `2 ^ 64 - 2 ^ 31`, and the element stands for
`2 ^ 31 - 2 ^ 64`. -/
theorem value_ofInt (input : BitVec 32) :
    F.value (F.ofInt input) =
      if input = BitVec.intMin 32 then 2 ^ 31 - 2 ^ 64 else (input.toInt : ZMod F.modulus) := by
  have converted (x : BitVec 32) :
      F.value (F.toMontgomeryForm (BitVec.signExtend 64 x).toNat) = ((x.toInt % 2 ^ 64 : Int) : ZMod F.modulus) := by
    rw [value_toMontgomeryForm, ← toNat_signExtend, Int.cast_natCast]
  have coarse (x : BitVec 32) :
      F.toMontgomeryForm (BitVec.signExtend 64 x).toNat ≤ F.twiceModulus + F.twiceModulus := by
    have lt := F.toMontgomeryForm_lt (x := (BitVec.signExtend 64 x).toNat)
      (lt_trans (BitVec.isLt _) (by decide))
    unfold Montgomery.twiceModulus
    omega
  obtain ⟨low, high⟩ := toInt_bounds input
  unfold ofInt
  split_ifs with negative least least
  · subst least
    rw [Montgomery.value_reduceOnce, value_selfNeg _ (coarse _), converted, BitVec.neg_intMin,
      show (BitVec.intMin 32).toInt % 2 ^ 64 = 2 ^ 64 - 2 ^ 31 by decide]
    push_cast
    ring
  · rw [Montgomery.value_reduceOnce, value_selfNeg _ (coarse _), converted,
      BitVec.toInt_neg_of_ne_intMin least, Int.emod_eq_of_lt (by omega) (by omega), Int.cast_neg, neg_neg]
  · exact absurd (least ▸ negative) (by decide)
  · rw [converted, Int.emod_eq_of_lt (by omega) (by omega)]

def fieldParams97 : FieldParams where
  modulus := 97
  negInv := 41780650755732647833247262632000791493447932611313605581247581858525356055647
  rInv := 35
  negInv_law := by decide
  rInv_law := by decide
  rSquared := 35
  modulus_lt := by decide
  rSquared_lt := by decide
  rSquared_law := by decide

theorem value_ofInt_intMin_ne :
    fieldParams97.value (fieldParams97.ofInt (BitVec.intMin 32)) ≠ ((BitVec.intMin 32).toInt : ZMod 97) := by
  decide

end FieldParams

end Aztec3Circuits.Field

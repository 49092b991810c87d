import Mathlib.Tactic.LinearCombination
import Aztec3Circuits.Field.Conversion

/-! `split_into_endomorphism_scalars_384`, the path of a modulus of `2 ^ 254` or more: the rounded
quotients `c1`, `c2` are the top bits of 512-bit products shifted by 384, taken to Montgomery form
and multiplied by the raw constants `-b1` and `b2`, and `k1 = k - (c1 b1 - c2 b2) β`,
`k2 = -(c1 b1 - c2 b2)`. For such a modulus `field_impl` keeps elements fully reduced: its
`operator-` is `subtract` and its product is reduced into `[0, p)`, modelled from the description
of the field. When `endo_g1` and `endo_g2` are the floors of `2 ^ 384 b2 / p` and `2 ^ 384 (-b1) / p`,
each quotient is within two of the exact one, so both scalars stand for small integers: Babai's
rounding in the lattice of pairs `(x, y)` with `x = y λ`. -/
namespace Aztec3Circuits.Field

namespace FieldParams

variable (F : FieldParams) (E : EndoParams)

/-- Modelled from the spec: `subtract` of `field_impl`, which `operator-` takes for a modulus of
`2 ^ 254` or more: the difference with `p` added back on a borrow. -/
def subtract (a b : Nat) : Nat := if b ≤ a then a - b else a + F.modulus - b

/-- Modelled from the spec: `operator*` for such a modulus, the Montgomery product reduced into
`[0, p)`. -/
def mulReduced (a b : Nat) : Nat := F.reduceOnce (F.mul a b)

/-- Modelled from the spec: `operator-()` for such a modulus, `p - *this`. -/
def neg (x : Nat) : Nat := F.subtract F.modulus x

/-- `split_into_endomorphism_scalars_384(input, k1_out, k2_out)`: the new `(k1_out, k2_out)`.
`endo_g1` and `endo_g2` are read with their fourth limbs, `c1.lo` and `c2.lo` are the low 256 bits
of the shifted products, and `minus_b1f`, `b2f` and `beta` are the raw constants. -/
def splitIntoEndomorphismScalars384 (input : Nat) : Nat × Nat :=
  let k := F.reduceOnce input
  let c1 := k * E.g1 / 2 ^ 384
  let c2 := k * E.g2 / 2 ^ 384
  let c1f := F.mulReduced (F.toMontgomeryForm (c1 % radix)) E.minusB1
  let c2f := F.mulReduced (F.toMontgomeryForm (c2 % radix)) E.b2
  let r2f := F.subtract c1f c2f
  let r1f := F.subtract (F.reduceOnce input) (F.mulReduced r2f E.cubeRoot)
  (r1f, F.neg r2f)

theorem cast_subtract {a b : Nat} (borrow : b ≤ a + F.modulus) :
    (F.subtract a b : ZMod F.modulus) = a - b := by
  unfold subtract
  split_ifs with le
  · rw [Nat.cast_sub le]
  · rw [Nat.cast_sub borrow, Nat.cast_add, ZMod.natCast_self, add_zero]

theorem subtract_lt {a b : Nat} (ha : a < F.modulus) (hb : b < F.modulus) : F.subtract a b < F.modulus := by
  unfold subtract
  split_ifs <;> omega

theorem mulReduced_lt {a b : Nat} (ha : a < F.modulus) (hb : b < radix) : F.mulReduced a b < F.modulus := by
  have product : a * b < radix * F.modulus := by
    rw [Nat.mul_comm radix]
    exact Nat.mul_lt_mul'' ha hb
  have reduced := F.reduce_lt product
  exact F.reduceOnce_lt (by unfold Montgomery.twiceModulus; exact reduced)

@[simp] theorem cast_mulReduced (a b : Nat) : (F.mulReduced a b : ZMod F.modulus) = a * b * F.rInv := by
  rw [mulReduced, Montgomery.cast_reduceOnce, Montgomery.cast_mul]

theorem cast_splitIntoEndomorphismScalars384 (input : Nat)
    (limbs : E.minusB1 < radix ∧ E.b2 < radix ∧ E.cubeRoot < radix) :
    ((F.splitIntoEndomorphismScalars384 E input).1 : ZMod F.modulus) = input -
        ((F.reduceOnce input * E.g1 / 2 ^ 384 % radix : Nat) * E.minusB1 -
          (F.reduceOnce input * E.g2 / 2 ^ 384 % radix : Nat) * E.b2) * F.value E.cubeRoot ∧
      ((F.splitIntoEndomorphismScalars384 E input).2 : ZMod F.modulus) =
        (F.reduceOnce input * E.g2 / 2 ^ 384 % radix : Nat) * E.b2 -
          (F.reduceOnce input * E.g1 / 2 ^ 384 % radix : Nat) * E.minusB1 := by
  obtain ⟨b1, b2, root⟩ := limbs
  have converted (c : Nat) : F.toMontgomeryForm (c % radix) < F.modulus := F.toMontgomeryForm_lt (Nat.mod_lt _ (by decide))
  have c1f := F.mulReduced_lt (converted (F.reduceOnce input * E.g1 / 2 ^ 384)) b1
  have c2f := F.mulReduced_lt (converted (F.reduceOnce input * E.g2 / 2 ^ 384)) b2
  have r2f := F.subtract_lt c1f c2f
  have product := F.mulReduced_lt r2f root
  simp (disch := omega) only [splitIntoEndomorphismScalars384, neg, F.cast_subtract, Montgomery.cast_reduceOnce,
    ZMod.natCast_self, cast_mulReduced, cast_toMontgomeryForm, Montgomery.value]
  constructor
  · linear_combination
      (-((F.reduceOnce input * E.g1 / 2 ^ 384 % radix : Nat) * (E.minusB1 : ZMod F.modulus) -
        (F.reduceOnce input * E.g2 / 2 ^ 384 % radix : Nat) * E.b2) * E.cubeRoot * F.rInv) * F.rInv_law
  · linear_combination
      (-((F.reduceOnce input * E.g1 / 2 ^ 384 % radix : Nat) * (E.minusB1 : ZMod F.modulus) -
        (F.reduceOnce input * E.g2 / 2 ^ 384 % radix : Nat) * E.b2)) * F.rInv_law

theorem reduceOnce_le (x : Nat) : F.reduceOnce x ≤ x := by
  unfold Montgomery.reduceOnce
  split_ifs <;> omega

theorem rounded_quotient_bounds {k m p : Nat} (hp : 0 < p) (hk : k ≤ 2 ^ 384) :
    k * (2 ^ 384 * m / p) / 2 ^ 384 * p ≤ k * m ∧ k * m < k * (2 ^ 384 * m / p) / 2 ^ 384 * p + 2 * p := by
  have hK : 0 < 2 ^ 384 := by positivity
  have g_le : 2 ^ 384 * m / p * p ≤ 2 ^ 384 * m := Nat.div_mul_le_self _ _
  have g_lt : 2 ^ 384 * m < 2 ^ 384 * m / p * p + p := Nat.lt_div_mul_add hp
  have c_le : k * (2 ^ 384 * m / p) / 2 ^ 384 * 2 ^ 384 ≤ k * (2 ^ 384 * m / p) := Nat.div_mul_le_self _ _
  have c_lt : k * (2 ^ 384 * m / p) < k * (2 ^ 384 * m / p) / 2 ^ 384 * 2 ^ 384 + 2 ^ 384 := Nat.lt_div_mul_add hK
  constructor
  · refine Nat.le_of_mul_le_mul_left ?_ hK
    calc 2 ^ 384 * (k * (2 ^ 384 * m / p) / 2 ^ 384 * p)
        = k * (2 ^ 384 * m / p) / 2 ^ 384 * 2 ^ 384 * p := by ring
      _ ≤ k * (2 ^ 384 * m / p) * p := Nat.mul_le_mul_right _ c_le
      _ = k * (2 ^ 384 * m / p * p) := by ring
      _ ≤ k * (2 ^ 384 * m) := Nat.mul_le_mul_left _ g_le
      _ = 2 ^ 384 * (k * m) := by ring
  · refine Nat.lt_of_mul_lt_mul_left (a := 2 ^ 384) ?_
    calc 2 ^ 384 * (k * m) = k * (2 ^ 384 * m) := by ring
      _ ≤ k * (2 ^ 384 * m / p * p + p) := Nat.mul_le_mul_left _ g_lt.le
      _ = k * (2 ^ 384 * m / p) * p + k * p := by ring
      _ < (k * (2 ^ 384 * m / p) / 2 ^ 384 * 2 ^ 384 + 2 ^ 384) * p + 2 ^ 384 * p :=
        Nat.add_lt_add_of_lt_of_le (Nat.mul_lt_mul_of_pos_right c_lt hp) (Nat.mul_le_mul_right _ hk)
      _ = 2 ^ 384 * (k * (2 ^ 384 * m / p) / 2 ^ 384 * p + 2 * p) := by ring

section Rounding

variable {p k c1 c2 m1 m2 : Nat}

theorem remainder_bounds {c m : Nat} (le : c * p ≤ k * m) (lt : k * m < c * p + 2 * p) :
    0 ≤ (k * m - c * p : Int) ∧ (k * m - c * p : Int) ≤ 2 * p := by
  have low : (c * p : Int) ≤ k * m := by exact_mod_cast le
  have high : (k * m : Int) < c * p + 2 * p := by exact_mod_cast lt
  constructor <;> linarith

/-- Babai's bound: with `c1` and `c2` within two of `k m2 / p` and `k m1 / p`, and `(x1, m1)`,
`(x2, -m2)` of determinant `p`, the integers `k - c1 x1 - c2 x2` and `c2 m2 - c1 m1` are small, since
`p` times them are `x1 d1 + x2 d2` and `m1 d1 - m2 d2` for the remainders `d1`, `d2` in `[0, 2p]`. -/
theorem rounding_bounds (hp : 0 < p) {x1 x2 : Int} (det : m2 * x1 + m1 * x2 = p)
    (q1 : c1 * p ≤ k * m2 ∧ k * m2 < c1 * p + 2 * p) (q2 : c2 * p ≤ k * m1 ∧ k * m1 < c2 * p + 2 * p) :
    |(k - c1 * x1 - c2 * x2 : Int)| ≤ 2 * (|x1| + |x2|) ∧ -(2 * m2 : Int) ≤ c2 * m2 - c1 * m1 ∧
      (c2 * m2 - c1 * m1 : Int) ≤ 2 * m1 := by
  have p_pos : (0 : Int) < p := by exact_mod_cast hp
  obtain ⟨d1, d1'⟩ := remainder_bounds q1.1 q1.2
  obtain ⟨d2, d2'⟩ := remainder_bounds q2.1 q2.2
  have scaled1 : (p : Int) * (k - c1 * x1 - c2 * x2) = x1 * (k * m2 - c1 * p) + x2 * (k * m1 - c2 * p) := by
    linear_combination (-(k : Int)) * det
  have scaled2 : (p : Int) * (c2 * m2 - c1 * m1) = m1 * (k * m2 - c1 * p) - m2 * (k * m1 - c2 * p) := by ring
  refine ⟨le_of_mul_le_mul_left ?_ p_pos, le_of_mul_le_mul_left ?_ p_pos, le_of_mul_le_mul_left ?_ p_pos⟩
  · calc (p : Int) * |k - c1 * x1 - c2 * x2| = |x1 * (k * m2 - c1 * p) + x2 * (k * m1 - c2 * p)| := by
          rw [← scaled1, abs_mul, abs_of_pos p_pos]
      _ ≤ |x1| * (k * m2 - c1 * p) + |x2| * (k * m1 - c2 * p) := by
          refine (abs_add _ _).trans_eq ?_
          rw [abs_mul, abs_mul, abs_of_nonneg d1, abs_of_nonneg d2]
      _ ≤ |x1| * (2 * p) + |x2| * (2 * p) :=
          add_le_add (mul_le_mul_of_nonneg_left d1' (abs_nonneg _)) (mul_le_mul_of_nonneg_left d2' (abs_nonneg _))
      _ = p * (2 * (|x1| + |x2|)) := by ring
  · rw [scaled2]
    linarith [mul_nonneg (Nat.cast_nonneg (α := Int) m1) d1, mul_le_mul_of_nonneg_left d2' (Nat.cast_nonneg (α := Int) m2)]
  · rw [scaled2]
    linarith [mul_nonneg (Nat.cast_nonneg (α := Int) m2) d2, mul_le_mul_of_nonneg_left d1' (Nat.cast_nonneg (α := Int) m1)]

end Rounding

def endoParams97 : EndoParams := ⟨2 ^ 384 * 3 / 97, 2 ^ 384 * 8 / 97, 8, 3, 35⟩

end FieldParams

end Aztec3Circuits.Field

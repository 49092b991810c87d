import Aztec3Circuits.Field.Montgomery

/-! `split_into_endomorphism_scalars` on the path of a modulus below `2 ^ 254`, which a field
takes when `modulus_3 < 0x4000000000000000`. The lattice constants `endo_g1`, `endo_g2`,
`endo_minus_b1`, `endo_b2` and the limbs of `cube_root_of_unity()` belong to the field's `Params`,
which are not part of the sources, so they are parameters here. Whatever their values, the
written scalars reconstruct the input, `k1 - k2 * λ = k`, once the fully reduced `t1` and `t2`
fit the two limbs the split keeps; whether they fit is a property of the constants alone. -/
namespace Aztec3Circuits.Field

/-- The `Params` constants the split reads, each the integer of its limbs. -/
structure EndoParams where
  g1 : Nat
  g2 : Nat
  minusB1 : Nat
  b2 : Nat
  cubeRoot : Nat

def twoLimbRadix : Nat := 2 ^ 128

namespace Montgomery

variable (M : Montgomery) (E : EndoParams)

/-- Modelled from the spec: `reduce_once` of `field_impl`, one subtraction of the modulus that
takes a coarse representative into the full range. -/
def reduceOnce (x : Nat) : Nat := if M.modulus ≤ x then x - M.modulus else x

/-- Modelled from the spec: `operator+` of `field_impl` on coarse representatives, the sum with
`2p` subtracted once it reaches `2p`. -/
def add (a b : Nat) : Nat := if M.twiceModulus ≤ a + b then a + b - M.twiceModulus else a + b

/-- `t1 = (q2_lo - q1_lo).reduce_once()`: `c1` and `c2` are the high halves of the 512-bit
products `endo_g2 * input` and `endo_g1 * input`, and `q1_lo`, `q2_lo` the low halves of
`c1 * endo_minus_b1` and `c2 * endo_b2`. -/
def endoT1 (input : Nat) : Nat :=
  let c1Hi := E.g2 * input / radix
  let c2Hi := E.g1 * input / radix
  M.reduceOnce (M.sub (c2Hi * E.b2 % radix) (c1Hi * E.minusB1 % radix))

def endoT2 (input t1 : Nat) : Nat := M.reduceOnce (M.add (M.mul t1 E.cubeRoot) input)

/-- `split_into_endomorphism_scalars(k, k1, k2)`: the new `(k1, k2)`, whose two low limbs are
those of `t2` and `t1` and whose upper limbs are left as they were. -/
def splitIntoEndomorphismScalars (k k1 k2 : Nat) : Nat × Nat :=
  let input := M.reduceOnce k
  let t1 := M.endoT1 E input
  let t2 := M.endoT2 E input t1
  (k1 / twoLimbRadix * twoLimbRadix + t2 % twoLimbRadix,
    k2 / twoLimbRadix * twoLimbRadix + t1 % twoLimbRadix)

@[simp] theorem cast_reduceOnce (x : Nat) : (M.reduceOnce x : ZMod M.modulus) = x := by
  unfold reduceOnce
  split_ifs with le
  · rw [Nat.cast_sub le, ZMod.natCast_self, sub_zero]
  · rfl

@[simp] theorem cast_add (a b : Nat) : (M.add a b : ZMod M.modulus) = a + b := by
  unfold add
  split_ifs with le
  · rw [Nat.cast_sub le, cast_twiceModulus, sub_zero, Nat.cast_add]
  · rw [Nat.cast_add]

theorem low_limbs_written {x t : Nat} (hx : x < twoLimbRadix) (ht : t < twoLimbRadix) :
    x / twoLimbRadix * twoLimbRadix + t % twoLimbRadix = t := by
  rw [Nat.div_eq_of_lt hx, Nat.mod_eq_of_lt ht, zero_mul, zero_add]

theorem cast_endoT2 (input t1 : Nat) :
    (M.endoT2 E input t1 : ZMod M.modulus) = t1 * M.value E.cubeRoot + input := by
  rw [endoT2, cast_reduceOnce, cast_add, cast_mul, value, mul_assoc]

theorem splitIntoEndomorphismScalars_reconstructs (k : Nat) {k1 k2 : Nat}
    (hk1 : k1 < twoLimbRadix) (hk2 : k2 < twoLimbRadix)
    (fits1 : M.endoT1 E (M.reduceOnce k) < twoLimbRadix)
    (fits2 : M.endoT2 E (M.reduceOnce k) (M.endoT1 E (M.reduceOnce k)) < twoLimbRadix) :
    ((M.splitIntoEndomorphismScalars E k k1 k2).1 : ZMod M.modulus) -
        (M.splitIntoEndomorphismScalars E k k1 k2).2 * M.value E.cubeRoot = k := by
  simp only [splitIntoEndomorphismScalars, low_limbs_written hk1 fits2, low_limbs_written hk2 fits1,
    cast_endoT2, cast_reduceOnce, add_sub_cancel_left]

end Montgomery

end Aztec3Circuits.Field

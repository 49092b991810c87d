import Aztec3Circuits.Field.Serialize

/-! The explicit conversions of a field element to native integers, and the constructors they
undo. Each conversion takes the element out of Montgomery form and reads low limbs of the
canonical integer: `uint32_t` the low half of `data[0]`, `uint64_t` the limb `data[0]`,
`uint128_t` the limbs `data[1]` and `data[0]`, `uint256_t` all four. Whatever representative an
element is stored as, each conversion returns its residue's integer modulo `2 ^ w`, and a native
integer taken into the field and back comes out modulo `p`. -/
namespace Aztec3Circuits.Field

namespace FieldParams

variable (F : FieldParams)

/-- `field(const uint256_t& input)`: the four limbs of `input`, taken to Montgomery form. -/
def ofUInt256 (input : Nat) : Nat := F.toMontgomeryForm input

/-- `field(const unsigned int input)`: `data = { input, 0, 0, 0 }`, taken to Montgomery form. -/
def ofUInt32 (input : UInt32) : Nat := F.toMontgomeryForm input.toNat

/-- `explicit operator uint32_t()`: `static_cast<uint32_t>(out.data[0])` of
`out = from_montgomery_form()`. -/
def toUInt32 (x : Nat) : UInt32 := (limb (F.fromMontgomeryForm x) 0).toUInt32

def toUInt64 (x : Nat) : UInt64 := limb (F.fromMontgomeryForm x) 0

/-- `explicit operator uint128_t()`: `(hi << 64) | lo` of `hi = out.data[1]` and `lo = out.data[0]`. -/
def toUInt128 (x : Nat) : Nat :=
  let out := F.fromMontgomeryForm x
  (limb out 1).toNat <<< 64 ||| (limb out 0).toNat

def toUInt256 (x : Nat) : Nat :=
  let out := F.fromMontgomeryForm x
  ofLimbs (limb out 0) (limb out 1) (limb out 2) (limb out 3)

end FieldParams

theorem toNat_limb (x i : Nat) : (limb x i).toNat = x / 2 ^ (64 * i) % 2 ^ 64 := toNat_toUInt64_mod _

theorem toNat_toUInt32 (n : Nat) : n.toUInt32.toNat = n % 2 ^ 32 := BitVec.toNat_ofNat n 32

theorem lowLimbs_or (x : Nat) : (limb x 1).toNat <<< 64 ||| (limb x 0).toNat = x % 2 ^ 128 := by
  rw [toNat_limb, toNat_limb, Nat.shiftLeft_eq, Nat.mul_comm, ← Nat.mul_add_lt_is_or (Nat.mod_lt _ (by decide))]
  omega

namespace FieldParams

variable (F : FieldParams)

theorem toNat_toUInt32_canonical {x : Nat} (hx : x < radix) : (F.toUInt32 x).toNat = (F.value x).val % 2 ^ 32 := by
  rw [toUInt32, UInt64.toUInt32, toNat_toUInt32, toNat_limb, F.fromMontgomeryForm_eq_val hx]
  omega

theorem toNat_toUInt64_canonical {x : Nat} (hx : x < radix) : (F.toUInt64 x).toNat = (F.value x).val % 2 ^ 64 := by
  rw [toUInt64, toNat_limb, F.fromMontgomeryForm_eq_val hx]
  omega

theorem toUInt128_canonical {x : Nat} (hx : x < radix) : F.toUInt128 x = (F.value x).val % 2 ^ 128 := by
  rw [toUInt128, lowLimbs_or, F.fromMontgomeryForm_eq_val hx]

theorem toUInt256_canonical {x : Nat} (hx : x < radix) : F.toUInt256 x = (F.value x).val := by
  have : NeZero F.modulus := ⟨F.modulus_pos.ne'⟩
  rw [toUInt256, F.fromMontgomeryForm_eq_val hx]
  exact (ofLimbs_limbs _).trans (Nat.mod_eq_of_lt ((ZMod.val_lt _).trans F.modulus_lt))

/-- Every conversion reads the canonical integer of the residue an element stands for, whatever
representative below `R` is stored: modulo `2 ^ 32`, `2 ^ 64` and `2 ^ 128`, and whole. -/
theorem conversions_canonical {x : Nat} (hx : x < radix) :
    (F.toUInt32 x).toNat = (F.value x).val % 2 ^ 32 ∧ (F.toUInt64 x).toNat = (F.value x).val % 2 ^ 64 ∧
      F.toUInt128 x = (F.value x).val % 2 ^ 128 ∧ F.toUInt256 x = (F.value x).val :=
  ⟨F.toNat_toUInt32_canonical hx, F.toNat_toUInt64_canonical hx, F.toUInt128_canonical hx, F.toUInt256_canonical hx⟩

/-- A native integer taken into the field and converted back comes out modulo `p`: through
`unsigned int` and `uint32_t`, `unsigned long long` and `uint64_t`, and `uint256_t` and
`uint256_t`, or `uint128_t`, which drops the two upper limbs. -/
theorem conversions_roundTrip (small : UInt32) (word : UInt64) {input : Nat} (fits : input < radix) :
    (F.toUInt32 (F.ofUInt32 small)).toNat = small.toNat % F.modulus ∧
      (F.toUInt64 (F.ofUInt64 word)).toNat = word.toNat % F.modulus ∧
      F.toUInt128 (F.ofUInt256 input) = input % F.modulus % 2 ^ 128 ∧
      F.toUInt256 (F.ofUInt256 input) = input % F.modulus := by
  have stored (n : Nat) (hn : n < radix) : F.toMontgomeryForm n < radix := (F.toMontgomeryForm_lt hn).trans F.modulus_lt
  have residue (n : Nat) : (F.value (F.toMontgomeryForm n)).val = n % F.modulus := by
    rw [value_toMontgomeryForm, ZMod.val_natCast]
  have small_lt : small.toNat < radix := small.toBitVec.isLt.trans (by decide)
  have word_lt : word.toNat < radix := word.toBitVec.isLt.trans (by decide)
  refine ⟨?_, ?_, ?_, ?_⟩
  · rw [ofUInt32, F.toNat_toUInt32_canonical (stored _ small_lt), residue]
    exact Nat.mod_eq_of_lt ((Nat.mod_le _ _).trans_lt small.toBitVec.isLt)
  · rw [ofUInt64, F.toNat_toUInt64_canonical (stored _ word_lt), residue]
    exact Nat.mod_eq_of_lt ((Nat.mod_le _ _).trans_lt word.toBitVec.isLt)
  · rw [ofUInt256, F.toUInt128_canonical (stored _ fits), residue]
  · rw [ofUInt256, F.toUInt256_canonical (stored _ fits), residue]

theorem conversions_canonical_ninetySeven :
    150 < radix ∧
      (fieldParams97.toUInt32 150).toNat = (fieldParams97.value 150).val % 2 ^ 32 ∧
      (fieldParams97.toUInt64 150).toNat = (fieldParams97.value 150).val % 2 ^ 64 ∧
      fieldParams97.toUInt128 150 = (fieldParams97.value 150).val % 2 ^ 128 ∧
      fieldParams97.toUInt256 150 = (fieldParams97.value 150).val :=
  ⟨by decide, fieldParams97.conversions_canonical (by decide)⟩

theorem conversions_roundTrip_ninetySeven :
    1000 < radix ∧
      (fieldParams97.toUInt32 (fieldParams97.ofUInt32 5)).toNat = (5 : UInt32).toNat % fieldParams97.modulus ∧
      (fieldParams97.toUInt64 (fieldParams97.ofUInt64 7)).toNat = (7 : UInt64).toNat % fieldParams97.modulus ∧
      fieldParams97.toUInt128 (fieldParams97.ofUInt256 1000) = 1000 % fieldParams97.modulus % 2 ^ 128 ∧
      fieldParams97.toUInt256 (fieldParams97.ofUInt256 1000) = 1000 % fieldParams97.modulus :=
  ⟨by decide, fieldParams97.conversions_roundTrip 5 7 (by decide)⟩

end FieldParams

end Aztec3Circuits.Field

import Aztec3Circuits.Field.Conversion

/-! Serialisation of a field element. `write` emits the four limbs of the element's integer out
of Montgomery form, `data[3]` first, and `read` reads four limbs back in the same order and takes
their integer to Montgomery form. The `uint64_t` reads and writes of `serialize` are not part of
the sources: they are modelled big-endian, as the description of the field's byte format has them.
A buffer is a list of bytes, and a read also returns the bytes after the ones it consumed. -/
namespace Aztec3Circuits.Field

def toBytesBE : Nat → Nat → List UInt8
  | 0, _ => []
  | n + 1, v => toBytesBE n (v / 256) ++ [(v % 256).toUInt8]

def ofBytesBE (bytes : List UInt8) : Nat := bytes.foldl (fun acc byte => acc * 256 + byte.toNat) 0

/-- Modelled from the spec: `serialize::write(buf, uint64_t)` appends the eight bytes of the
value, most significant first. -/
def writeUint64 (buf : List UInt8) (value : UInt64) : List UInt8 := buf ++ toBytesBE 8 value.toNat

/-- Modelled from the spec: `serialize::read(it, uint64_t)` reads eight bytes, most significant
first, and moves past them. -/
def readUint64 (it : List UInt8) : UInt64 × List UInt8 := ((ofBytesBE (it.take 8)).toUInt64, it.drop 8)

def limb (x i : Nat) : UInt64 := (x / 2 ^ (64 * i) % 2 ^ 64).toUInt64

def ofLimbs (d0 d1 d2 d3 : UInt64) : Nat :=
  d0.toNat + 2 ^ 64 * d1.toNat + 2 ^ 128 * d2.toNat + 2 ^ 192 * d3.toNat

namespace FieldParams

variable (F : FieldParams)

/-- `write(buf, value)`: the limbs of `value.from_montgomery_form()`, `data[3]` first. -/
def write (buf : List UInt8) (value : Nat) : List UInt8 :=
  let input := F.fromMontgomeryForm value
  let buf := writeUint64 buf (limb input 3)
  let buf := writeUint64 buf (limb input 2)
  let buf := writeUint64 buf (limb input 1)
  writeUint64 buf (limb input 0)

/-- `read(it, value)`: `data[3]`, …, `data[0]` read in turn into `field{ 0, 0, 0, 0 }`, and the
result taken to Montgomery form. -/
def read (it : List UInt8) : Nat × List UInt8 :=
  let (d3, it) := readUint64 it
  let (d2, it) := readUint64 it
  let (d1, it) := readUint64 it
  let (d0, it) := readUint64 it
  (F.toMontgomeryForm (ofLimbs d0 d1 d2 d3), it)

end FieldParams

section Bytes

@[simp] theorem length_toBytesBE (n v : Nat) : (toBytesBE n v).length = n := by
  induction n generalizing v with
  | zero => rfl
  | succ n ih => rw [toBytesBE, List.length_append, ih, List.length_singleton]

theorem ofBytesBE_append_singleton (bytes : List UInt8) (byte : UInt8) :
    ofBytesBE (bytes ++ [byte]) = ofBytesBE bytes * 256 + byte.toNat := by
  rw [ofBytesBE, List.foldl_append]
  rfl

theorem toNat_toUInt8_mod (v : Nat) : (v % 256).toUInt8.toNat = v % 256 :=
  UInt8.toNat_ofNat_of_lt (Nat.mod_lt _ (by decide))

theorem toNat_toUInt64_mod (v : Nat) : (v % 2 ^ 64).toUInt64.toNat = v % 2 ^ 64 :=
  UInt64.toNat_ofNat_of_lt (Nat.mod_lt _ (by decide))

theorem ofBytesBE_toBytesBE (n v : Nat) : ofBytesBE (toBytesBE n v) = v % 256 ^ n := by
  induction n generalizing v with
  | zero => rw [pow_zero, Nat.mod_one]; rfl
  | succ n ih =>
    rw [toBytesBE, ofBytesBE_append_singleton, ih, toNat_toUInt8_mod, pow_succ', Nat.mod_mul]
    ring

theorem toBytesBE_ofBytesBE (bytes : List UInt8) : toBytesBE bytes.length (ofBytesBE bytes) = bytes := by
  induction bytes using List.reverseRecOn with
  | nil => rfl
  | append_singleton bytes byte ih =>
    have lt : byte.toNat < 256 := byte.toNat_lt_size
    have last : ((ofBytesBE bytes * 256 + byte.toNat) % 256).toUInt8 = byte :=
      UInt8.toNat.inj (by rw [toNat_toUInt8_mod]; omega)
    rw [List.length_append, List.length_singleton, toBytesBE, ofBytesBE_append_singleton, last,
      show (ofBytesBE bytes * 256 + byte.toNat) / 256 = ofBytesBE bytes by omega, ih]

theorem ofBytesBE_lt (bytes : List UInt8) : ofBytesBE bytes < 256 ^ bytes.length := by
  have same := ofBytesBE_toBytesBE bytes.length (ofBytesBE bytes)
  rw [toBytesBE_ofBytesBE] at same
  exact same ▸ Nat.mod_lt _ (by positivity)

theorem toBytesBE_mod (n v : Nat) : toBytesBE n (v % 256 ^ n) = toBytesBE n v := by
  induction n generalizing v with
  | zero => rfl
  | succ n ih =>
    rw [toBytesBE, toBytesBE, pow_succ', Nat.mod_mul_right_div_self, ih, Nat.mod_mul_right_mod]

theorem toBytesBE_add (m n v : Nat) : toBytesBE (m + n) v = toBytesBE m (v / 256 ^ n) ++ toBytesBE n v := by
  induction n generalizing v with
  | zero => rw [pow_zero, Nat.div_one, Nat.add_zero, toBytesBE, List.append_nil]
  | succ n ih =>
    rw [← Nat.add_assoc, toBytesBE, ih, Nat.div_div_eq_div_mul, ← pow_succ', List.append_assoc]
    rfl

theorem toBytesBE_limbs (v : Nat) :
    toBytesBE 32 v = toBytesBE 8 (v / 2 ^ (64 * 3)) ++ toBytesBE 8 (v / 2 ^ (64 * 2)) ++
      toBytesBE 8 (v / 2 ^ (64 * 1)) ++ toBytesBE 8 (v / 2 ^ (64 * 0)) := by
  have split (n : Nat) : toBytesBE (8 + 8 * n) v = toBytesBE 8 (v / 2 ^ (64 * n)) ++ toBytesBE (8 * n) v := by
    rw [toBytesBE_add, pow_mul, pow_mul]
    rfl
  calc toBytesBE 32 v = toBytesBE 8 (v / 2 ^ (64 * 3)) ++ toBytesBE (8 + 8 * 2) v := split 3
    _ = toBytesBE 8 (v / 2 ^ (64 * 3)) ++ (toBytesBE 8 (v / 2 ^ (64 * 2)) ++ toBytesBE (8 + 8 * 1) v) :=
      congrArg _ (split 2)
    _ = _ := by
      rw [split 1, show 8 * 1 = 8 + 8 * 0 by rfl, split 0, Nat.mul_zero, toBytesBE, List.append_nil]
      simp only [List.append_assoc]

end Bytes

theorem writeUint64_limb (buf : List UInt8) (x i : Nat) :
    writeUint64 buf (limb x i) = buf ++ toBytesBE 8 (x / 2 ^ (64 * i)) := by
  rw [writeUint64, limb, toNat_toUInt64_mod]
  exact congrArg _ (toBytesBE_mod 8 _)

theorem readUint64_toBytesBE (a : Nat) (rest : List UInt8) :
    readUint64 (toBytesBE 8 a ++ rest) = ((a % 2 ^ 64).toUInt64, rest) := by
  rw [readUint64, List.take_left' (length_toBytesBE 8 a), List.drop_left' (length_toBytesBE 8 a),
    ofBytesBE_toBytesBE]
  rfl

theorem ofLimbs_limbs (v : Nat) :
    ofLimbs ((v / 2 ^ (64 * 0) % 2 ^ 64).toUInt64) ((v / 2 ^ (64 * 1) % 2 ^ 64).toUInt64)
      ((v / 2 ^ (64 * 2) % 2 ^ 64).toUInt64) ((v / 2 ^ (64 * 3) % 2 ^ 64).toUInt64) = v % radix := by
  simp only [ofLimbs, toNat_toUInt64_mod, radix]
  omega

namespace FieldParams

variable (F : FieldParams)

theorem write_eq {x : Nat} (hx : x < radix) (buf : List UInt8) :
    F.write buf x = buf ++ toBytesBE 32 (F.value x).val := by
  rw [write]
  simp only [writeUint64_limb, F.fromMontgomeryForm_eq_val hx, toBytesBE_limbs, List.append_assoc]

theorem read_append {bytes : List UInt8} (hb : bytes.length = 32) (rest : List UInt8) :
    F.read (bytes ++ rest) = (F.toMontgomeryForm (ofBytesBE bytes), rest) := by
  have lt : ofBytesBE bytes < radix := by
    have lt := ofBytesBE_lt bytes
    rwa [hb] at lt
  conv_lhs => rw [← toBytesBE_ofBytesBE bytes, hb, toBytesBE_limbs]
  simp only [read, List.append_assoc, readUint64_toBytesBE, ofLimbs_limbs, Nat.mod_eq_of_lt lt]

theorem read_eq {bytes : List UInt8} (hb : bytes.length = 32) :
    F.read bytes = (F.toMontgomeryForm (ofBytesBE bytes), []) := by
  simpa only [List.append_nil] using F.read_append hb []

theorem ofBytesBE_lt_radix {bytes : List UInt8} (hb : bytes.length = 32) : ofBytesBE bytes < radix := by
  have lt := ofBytesBE_lt bytes
  rwa [hb] at lt

theorem write_read {bytes : List UInt8} (hb : bytes.length = 32) :
    F.write [] (F.read bytes).1 = toBytesBE 32 (ofBytesBE bytes % F.modulus) := by
  have canonical := F.toMontgomeryForm_lt (ofBytesBE_lt_radix hb)
  rw [read_eq F hb, F.write_eq (canonical.trans F.modulus_lt), value_toMontgomeryForm,
    ZMod.val_natCast, List.nil_append]

/-- The byte format of a field element. `write` emits the canonical 32 big-endian bytes of the
fully reduced integer of every stored element, and `read` on them gives back an element equal to
it. A 32-byte buffer reads as its integer modulo `p`: two buffers read to the same element exactly
when their integers are congruent, and writing what was read gives the buffer back exactly when
its integer is below `p`. -/
theorem write_read_roundTrip {x : Nat} (hx : x < radix) (buf rest : List UInt8) {b b' : List UInt8}
    (hb : b.length = 32) (hb' : b'.length = 32) :
    (F.write buf x = buf ++ toBytesBE 32 (F.value x).val ∧ ofBytesBE (F.write [] x) = (F.value x).val) ∧
    (F.value (F.read (F.write [] x ++ rest)).1 = F.value x ∧ (F.read (F.write [] x ++ rest)).2 = rest) ∧
    F.write [] (F.read b).1 = toBytesBE 32 (ofBytesBE b % F.modulus) ∧
    ((F.read b).1 = (F.read b').1 ↔ ofBytesBE b % F.modulus = ofBytesBE b' % F.modulus) ∧
    (F.write [] (F.read b).1 = b ↔ ofBytesBE b < F.modulus) := by
  have : NeZero F.modulus := ⟨F.modulus_pos.ne'⟩
  have encoded {y : Nat} (hy : y < radix) : ofBytesBE (toBytesBE 32 y) = y := by
    rw [ofBytesBE_toBytesBE]
    exact Nat.mod_eq_of_lt hy
  have reduced : (F.value x).val < radix := (ZMod.val_lt _).trans F.modulus_lt
  have unit : IsUnit (radix : ZMod F.modulus) := isUnit_of_mul_eq_one _ _ F.rInv_law
  refine ⟨⟨F.write_eq hx buf, ?_⟩, ?_, F.write_read hb, ?_, ?_⟩
  · rw [F.write_eq hx, List.nil_append, encoded reduced]
  · rw [F.write_eq hx, List.nil_append, F.read_append (length_toBytesBE 32 _), encoded reduced,
      value_toMontgomeryForm, ZMod.natCast_zmod_val]
    exact ⟨rfl, rfl⟩
  · rw [read_eq F hb, read_eq F hb', F.toMontgomeryForm_eq_val (ofBytesBE_lt_radix hb),
      F.toMontgomeryForm_eq_val (ofBytesBE_lt_radix hb'), (ZMod.val_injective _).eq_iff,
      unit.mul_left_inj, ZMod.natCast_eq_natCast_iff']
  · rw [F.write_read hb]
    constructor
    · intro same
      have decoded := congrArg ofBytesBE same
      rwa [encoded ((Nat.mod_le _ _).trans_lt (ofBytesBE_lt_radix hb)),
        Nat.mod_eq_iff_lt F.modulus_pos.ne'] at decoded
    · intro lt
      rw [Nat.mod_eq_of_lt lt, ← hb, toBytesBE_ofBytesBE]

theorem write_read_roundTrip_five :
    (5 < radix ∧ (List.replicate 32 (255 : UInt8)).length = 32 ∧ (List.replicate 32 (0 : UInt8)).length = 32) ∧
    (fieldParams97.write [] 5 = [] ++ toBytesBE 32 (fieldParams97.value 5).val ∧
        ofBytesBE (fieldParams97.write [] 5) = (fieldParams97.value 5).val) ∧
      (fieldParams97.value (fieldParams97.read (fieldParams97.write [] 5 ++ [])).1 = fieldParams97.value 5 ∧
        (fieldParams97.read (fieldParams97.write [] 5 ++ [])).2 = []) ∧
      fieldParams97.write [] (fieldParams97.read (List.replicate 32 255)).1 =
        toBytesBE 32 (ofBytesBE (List.replicate 32 255) % fieldParams97.modulus) ∧
      ((fieldParams97.read (List.replicate 32 255)).1 = (fieldParams97.read (List.replicate 32 0)).1 ↔
        ofBytesBE (List.replicate 32 255) % fieldParams97.modulus =
          ofBytesBE (List.replicate 32 0) % fieldParams97.modulus) ∧
      (fieldParams97.write [] (fieldParams97.read (List.replicate 32 255)).1 = List.replicate 32 255 ↔
        ofBytesBE (List.replicate 32 255) < fieldParams97.modulus) :=
  ⟨⟨by decide, List.length_replicate _ _, List.length_replicate _ _⟩,
    write_read_roundTrip fieldParams97 (by decide) [] [] (List.length_replicate _ _) (List.length_replicate _ _)⟩

end FieldParams

end Aztec3Circuits.Field

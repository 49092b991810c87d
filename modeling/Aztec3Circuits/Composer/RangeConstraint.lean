import Mathlib.Data.ZMod.Basic

/-! `UltraComposer::create_range_constraint`. A width of at most `DEFAULT_PLOOKUP_RANGE_BITNUM`
bits is checked directly: a no-op polynomial gate on the variable, then
`create_new_range_constraint(variable, 1 << num_bits)`. A wider one goes to
`decompose_into_default_range`. Neither callee is part of the sources; both are modelled from the
description of the composer, with the lookup range check taking an inclusive maximum, as
`DEFAULT_PLOOKUP_RANGE_SIZE = (1 << 14) - 1` does for 14-bit limbs. The decomposition accepts
exactly the values below `2 ^ num_bits`; the direct check also accepts `2 ^ num_bits` itself. -/
namespace Aztec3Circuits.Composer

def defaultPlookupRangeBitnum : Nat := 14

def defaultPlookupRangeSize : Nat := (1 <<< defaultPlookupRangeBitnum) - 1

variable {p : Nat}

/-- `poly_triple`: the wires and selectors of a `create_poly_gate` gate. -/
structure PolyTriple (p : Nat) where
  a : Nat
  b : Nat
  c : Nat
  qM : ZMod p
  qL : ZMod p
  qR : ZMod p
  qO : ZMod p
  qC : ZMod p

/-- The relation a `create_poly_gate` gate imposes on the variable values. -/
def PolyTriple.Holds (gate : PolyTriple p) (value : Nat → ZMod p) : Prop :=
  gate.qM * value gate.a * value gate.b + gate.qL * value gate.a + gate.qR * value gate.b +
    gate.qO * value gate.c + gate.qC = 0

/-- The constraints `create_range_constraint` hands on. -/
inductive RangeConstraint (p : Nat) where
  | poly (gate : PolyTriple p)
  | newRange (variableIndex targetRange : Nat)
  | decompose (variableIndex numBits targetRangeBitnum : Nat)

/-- `create_range_constraint(variable_index, num_bits, msg)`. -/
def createRangeConstraint (variableIndex numBits : Nat) : List (RangeConstraint p) :=
  if numBits ≤ defaultPlookupRangeBitnum then
    [.poly ⟨variableIndex, variableIndex, variableIndex, 0, 1, -1, 0, 0⟩,
      .newRange variableIndex (1 <<< numBits)]
  else [.decompose variableIndex numBits defaultPlookupRangeBitnum]

/-- Modelled from the spec: `create_new_range_constraint(variable, target_range)` range-checks
the variable through the lookup mechanism against the inclusive maximum `target_range`. -/
def NewRangeHolds (value : ZMod p) (targetRange : Nat) : Prop := value.val ≤ targetRange

/-- Modelled from the spec: `k` limbs of `bitnum` bits, least significant first, summed with
power-of-two coefficients into `v`, the most significant one sized to the bits left of
`numBits`; each limb is range-checked against its inclusive maximum. -/
def LimbsHold (bitnum : Nat) : Nat → Nat → Nat → Prop
  | 0, _, v => v = 0
  | k + 1, numBits, v => ∃ lo hi, v = lo + 2 ^ bitnum * hi ∧ lo ≤ 2 ^ min bitnum numBits - 1 ∧
      LimbsHold bitnum k (numBits - bitnum) hi

def numLimbs (numBits bitnum : Nat) : Nat := (numBits + bitnum - 1) / bitnum

/-- Modelled from the spec: `decompose_into_default_range(variable, num_bits, bitnum)` holds
when the variable's value is the sum of its range-checked limbs. -/
def DecomposeHolds (value : ZMod p) (numBits bitnum : Nat) : Prop :=
  ∃ v : Nat, (v : ZMod p) = value ∧ LimbsHold bitnum (numLimbs numBits bitnum) numBits v

def RangeConstraint.Holds (value : Nat → ZMod p) : RangeConstraint p → Prop
  | .poly gate => gate.Holds value
  | .newRange x targetRange => NewRangeHolds (value x) targetRange
  | .decompose x numBits bitnum => DecomposeHolds (value x) numBits bitnum

theorem limbsHold_iff (bitnum k : Nat) :
    ∀ numBits v, LimbsHold bitnum k numBits v ↔ v < 2 ^ min numBits (bitnum * k) := by
  induction k with
  | zero => intro numBits v; simp [LimbsHold]
  | succ k ih =>
    intro numBits v
    have split : min numBits (bitnum * (k + 1)) = min bitnum numBits + min (numBits - bitnum) (bitnum * k) := by
      rw [Nat.mul_succ]
      omega
    have pos := Nat.pos_pow_of_pos bitnum (show 0 < 2 by decide)
    simp only [LimbsHold, ih, split, Nat.pow_add]
    rcases Nat.lt_or_ge numBits bitnum with short | full
    · -- the top limb holds the bits that are left, and nothing is above it
      have := Nat.pos_pow_of_pos numBits (show 0 < 2 by decide)
      rw [show min bitnum numBits = numBits by omega, show min (numBits - bitnum) (bitnum * k) = 0 by omega,
        Nat.pow_zero, Nat.mul_one]
      constructor
      · rintro ⟨lo, hi, rfl, hlo, hhi⟩
        rw [show hi = 0 by omega]
        omega
      · exact fun lt => ⟨v, 0, by rw [Nat.mul_zero, Nat.add_zero], by omega, Nat.one_pos⟩
    · rw [show min bitnum numBits = bitnum by omega]
      constructor
      · rintro ⟨lo, hi, rfl, hlo, hhi⟩
        calc lo + 2 ^ bitnum * hi < 2 ^ bitnum * (hi + 1) := by rw [Nat.mul_succ]; omega
          _ ≤ 2 ^ bitnum * 2 ^ min (numBits - bitnum) (bitnum * k) := Nat.mul_le_mul_left _ hhi
      · intro lt
        refine ⟨v % 2 ^ bitnum, v / 2 ^ bitnum, (Nat.mod_add_div v _).symm, ?_, ?_⟩
        · have := Nat.mod_lt v pos
          omega
        · rwa [Nat.div_lt_iff_lt_mul pos, Nat.mul_comm]

theorem le_mul_numLimbs {bitnum : Nat} (pos : 0 < bitnum) (numBits : Nat) :
    numBits ≤ bitnum * numLimbs numBits bitnum := by
  have := Nat.mod_add_div (numBits + bitnum - 1) bitnum
  have := Nat.mod_lt (numBits + bitnum - 1) pos
  rw [numLimbs]
  omega

theorem decomposeHolds_iff {value : ZMod p} {numBits bitnum : Nat} (pos : 0 < bitnum)
    (field : 2 ^ numBits ≤ p) : DecomposeHolds value numBits bitnum ↔ value.val < 2 ^ numBits := by
  have cover : min numBits (bitnum * numLimbs numBits bitnum) = numBits :=
    Nat.min_eq_left (le_mul_numLimbs pos numBits)
  have : NeZero p := ⟨by have := Nat.one_le_two_pow (n := numBits); omega⟩
  simp only [DecomposeHolds, limbsHold_iff, cover]
  constructor
  · rintro ⟨v, rfl, lt⟩
    rwa [ZMod.val_natCast, Nat.mod_eq_of_lt (lt_of_lt_of_le lt field)]
  · exact fun lt => ⟨value.val, ZMod.natCast_zmod_val value, lt⟩

theorem createRangeConstraint_holds_iff (value : Nat → ZMod p) (x numBits : Nat)
    (field : 2 ^ numBits ≤ p) :
    (∀ con ∈ (createRangeConstraint x numBits : List (RangeConstraint p)), con.Holds value) ↔
      (value x).val < 2 ^ numBits ∨ numBits ≤ defaultPlookupRangeBitnum ∧ (value x).val = 2 ^ numBits := by
  unfold createRangeConstraint
  split_ifs with direct
  · have gate : PolyTriple.Holds ⟨x, x, x, 0, 1, -1, 0, 0⟩ value := by
      simp only [PolyTriple.Holds]
      ring
    simp only [List.mem_cons, List.mem_singleton, forall_eq_or_imp, forall_eq, List.not_mem_nil,
      RangeConstraint.Holds, gate, NewRangeHolds, Nat.one_shiftLeft, direct, true_and, or_false]
    omega
  · simp only [List.mem_singleton, forall_eq, RangeConstraint.Holds,
      decomposeHolds_iff (show 0 < defaultPlookupRangeBitnum by decide) field, direct, false_and, or_false]

/-- On every direct width the variable value `2 ^ num_bits` passes `create_range_constraint`,
although it does not fit in `num_bits` bits. -/
theorem createRangeConstraint_accepts_two_pow (p numBits : Nat)
    (small : numBits ≤ defaultPlookupRangeBitnum) (field : 2 ^ numBits < p) :
    ∃ value : Nat → ZMod p,
      (∀ con ∈ (createRangeConstraint 0 numBits : List (RangeConstraint p)), con.Holds value) ∧
        ¬ (value 0).val < 2 ^ numBits := by
  have boundary : ((2 ^ numBits : Nat) : ZMod p).val = 2 ^ numBits := by
    rw [ZMod.val_natCast, Nat.mod_eq_of_lt field]
  refine ⟨fun _ => ((2 ^ numBits : Nat) : ZMod p), ?_, by rw [boundary]; omega⟩
  rw [createRangeConstraint_holds_iff _ _ _ field.le, boundary]
  exact .inr ⟨small, rfl⟩

theorem createRangeConstraint_accepts_two_pow_one :
    (1 ≤ defaultPlookupRangeBitnum ∧ 2 ^ 1 < 17) ∧
      ∃ value : Nat → ZMod 17,
        (∀ con ∈ (createRangeConstraint 0 1 : List (RangeConstraint 17)), con.Holds value) ∧
          ¬ (value 0).val < 2 ^ 1 :=
  ⟨⟨by decide, by decide⟩, createRangeConstraint_accepts_two_pow 17 1 (by decide) (by decide)⟩

end Aztec3Circuits.Composer

import Aztec3Circuits.Permutation.Mapping
import Aztec3Circuits.Field.Montgomery

/-! `compute_standard_plonk_lagrange_polynomial`: the Plonk sigma and id polynomials store, for
each entry of a permutation table, the subgroup element `ω ^ row` times the coset generator of
its column. The roots table holds only `ω ^ j` for `j < n / 2`: a row `r ≥ n / 2` reads entry
`r - n / 2` and negates it, `ω ^ (n / 2)` being `-1`, by subtracting it from `2p`, since the
table's entries are coarse. -/
namespace Aztec3Circuits.Permutation

open Field

/-- Modelled from the spec: `numeric::get_msb`, not part of the sources: the index of the most
significant set bit, which the comment on `log2_root_size` reads as `log2` of a power of two. -/
def getMsb (x : Nat) : Nat := Nat.log2 x

/-- The members of `evaluation_domain` that the polynomial reads: the size, its `log2`, and the
stored tables of `get_round_roots()`. -/
structure EvaluationDomain where
  size : Nat
  log2Size : Nat
  roundRoots : Nat → Nat → Nat

section Lagrange

variable (M : Montgomery) (cosetGenerators : Nat → Nat)

/-- `external_coset_generator()`: entry 7 of the `Params` coset generators. -/
def externalCosetGenerator : Nat := cosetGenerators 7

/-- `tag_coset_generator()`: entry 6 of the `Params` coset generators. -/
def tagCosetGenerator : Nat := cosetGenerators 6

/-- `coset_generator(idx)`; its `ASSERT(idx < 7)` is a debug check. -/
def cosetGenerator (idx : Nat) : Nat := cosetGenerators idx

def lagrangeEntry (roots : Nat → Nat) (rootSize log2RootSize : Nat) (e : PermutationSubgroupElement) :
    Nat :=
  let rawIdx := e.rowIndex
  let negativeIdx := decide (rawIdx ≥ rootSize)
  let idx := rawIdx - (negativeIdx.toNat <<< log2RootSize)
  let output := M.conditionallySubtractFromDoubleModulus (roots idx) negativeIdx.toNat
  if e.isPublicInput then M.mul output (externalCosetGenerator cosetGenerators)
  else if e.isTag then M.mul output (tagCosetGenerator cosetGenerators)
  else if e.columnIndex > 0 then M.mul output (cosetGenerator cosetGenerators (e.columnIndex - 1))
  else output

/-- `compute_standard_plonk_lagrange_polynomial(output, permutation, small_domain)`, returning
the new contents of `output`. The loop over the domain reads `permutation[i]` and writes
`output[i]` for every `i < small_domain.size`: past the end of a shorter permutation this is
undefined behaviour, modelled as an error. -/
def computeStandardPlonkLagrangePolynomial (output : List Nat)
    (permutation : List PermutationSubgroupElement) (smallDomain : EvaluationDomain) :
    Except String (List Nat) :=
  if output.length < permutation.length then
    .error "Permutation polynomial size is insufficient to store permutations."
  else if permutation.length < smallDomain.size then
    .error "permutation[i] read past its end"
  else
    let roots := smallDomain.roundRoots (smallDomain.log2Size - 2)
    let rootSize := smallDomain.size >>> 1
    let log2RootSize := getMsb rootSize
    .ok (output.mapIdx fun i old =>
      if i < smallDomain.size then
        lagrangeEntry M cosetGenerators roots rootSize log2RootSize (permutation.getD i ⟨0, 0, false, false⟩)
      else old)

def cosetFactor (e : PermutationSubgroupElement) : ZMod M.modulus :=
  if e.isPublicInput then M.value (externalCosetGenerator cosetGenerators)
  else if e.isTag then M.value (tagCosetGenerator cosetGenerators)
  else if 0 < e.columnIndex then M.value (cosetGenerator cosetGenerators (e.columnIndex - 1))
  else 1

theorem value_lagrangeEntry (roots : Nat → Nat) (rootSize log2RootSize : Nat)
    (e : PermutationSubgroupElement) (x : ZMod M.modulus)
    (stored : M.value (M.conditionallySubtractFromDoubleModulus
      (roots (e.rowIndex - ((decide (e.rowIndex ≥ rootSize)).toNat <<< log2RootSize)))
      (decide (e.rowIndex ≥ rootSize)).toNat) = x) :
    M.value (lagrangeEntry M cosetGenerators roots rootSize log2RootSize e) =
      x * cosetFactor M cosetGenerators e := by
  simp only [lagrangeEntry, cosetFactor]
  split_ifs <;> simp [stored]

end Lagrange

section HalfTable

variable {k r : Nat} (log2 : 1 ≤ k)
include log2

theorem two_pow_div_two : 2 ^ k / 2 = 2 ^ (k - 1) := by
  obtain ⟨j, rfl⟩ : ∃ j, k = j + 1 := ⟨k - 1, by omega⟩
  simp [Nat.pow_succ]

theorem rootSize_eq : 2 ^ k >>> 1 = 2 ^ (k - 1) ∧ getMsb (2 ^ k >>> 1) = k - 1 := by
  have half : 2 ^ k >>> 1 = 2 ^ (k - 1) := by
    rw [Nat.shiftRight_eq_div_pow, Nat.pow_one, two_pow_div_two log2]
  exact ⟨half, by rw [half, getMsb, Nat.log2_two_pow]⟩

variable (row : r < 2 ^ k)
include row

theorem halfIndex_lt :
    r - ((decide (r ≥ 2 ^ k >>> 1)).toNat <<< getMsb (2 ^ k >>> 1)) < 2 ^ k >>> 1 := by
  have whole : 2 ^ k = 2 ^ (k - 1) * 2 := by
    rw [← two_pow_div_two log2, Nat.div_mul_cancel (dvd_pow_self 2 (by omega))]
  rw [(rootSize_eq log2).2, (rootSize_eq log2).1, Nat.shiftLeft_eq]
  by_cases upper : r ≥ 2 ^ (k - 1) <;> simp [upper] <;> omega

omit row in
theorem pow_halfIndex (M : Montgomery) (ω : ZMod M.modulus) (halfTurn : ω ^ (2 ^ k / 2) = -1) :
    (if (decide (r ≥ 2 ^ k >>> 1)).toNat ≠ 0 then
        -ω ^ (r - ((decide (r ≥ 2 ^ k >>> 1)).toNat <<< getMsb (2 ^ k >>> 1)))
      else ω ^ (r - ((decide (r ≥ 2 ^ k >>> 1)).toNat <<< getMsb (2 ^ k >>> 1)))) = ω ^ r := by
  rw [(rootSize_eq log2).2, (rootSize_eq log2).1, Nat.shiftLeft_eq]
  rw [two_pow_div_two log2] at halfTurn
  by_cases upper : r ≥ 2 ^ (k - 1)
  · have negative : (decide (r ≥ 2 ^ (k - 1))).toNat = 1 := by simp [upper]
    rw [negative, if_pos one_ne_zero, Nat.one_mul, ← neg_one_mul, ← halfTurn, ← pow_add,
      Nat.add_sub_cancel' upper]
  · have positive : (decide (r ≥ 2 ^ (k - 1))).toNat = 0 := by simp [upper]
    rw [positive, if_neg (not_not.mpr rfl), Nat.zero_mul, Nat.sub_zero]

end HalfTable

/-- On a power-of-two domain of size `n ≥ 4` whose half roots table holds `ω ^ j` in coarse form,
with `ω ^ (n / 2) = -1`, and a permutation covering the domain, the polynomial is written without
an exception, and every entry of row `r < n` becomes `ω ^ r` times its coset factor; the entries
past the domain are left as they were. -/
theorem computeStandardPlonkLagrangePolynomial_value (M : Montgomery) (cosetGenerators : Nat → Nat)
    (output : List Nat) (permutation : List PermutationSubgroupElement) (smallDomain : EvaluationDomain)
    (ω : ZMod M.modulus) (power : smallDomain.size = 2 ^ smallDomain.log2Size)
    (log2 : 2 ≤ smallDomain.log2Size)
    (roots : ∀ j < smallDomain.size / 2,
      M.value (smallDomain.roundRoots (smallDomain.log2Size - 2) j) = ω ^ j ∧
        smallDomain.roundRoots (smallDomain.log2Size - 2) j < M.twiceModulus)
    (halfTurn : ω ^ (smallDomain.size / 2) = -1) (fits : permutation.length ≤ output.length)
    (full : smallDomain.size ≤ permutation.length) :
    ∃ result, computeStandardPlonkLagrangePolynomial M cosetGenerators output permutation smallDomain =
        .ok result ∧ result.length = output.length ∧
      (∀ i < smallDomain.size, ∀ e, permutation[i]? = some e → e.rowIndex < smallDomain.size →
        ∃ x, result[i]? = some x ∧ M.value x = ω ^ e.rowIndex * cosetFactor M cosetGenerators e) ∧
      ∀ i, smallDomain.size ≤ i → result[i]? = output[i]? := by
  rw [computeStandardPlonkLagrangePolynomial, if_neg (by omega), if_neg (by omega)]
  refine ⟨_, rfl, List.length_mapIdx, fun i hi e entry row => ?_, fun i hi => ?_⟩
  · have inOutput : i < output.length := by
      have := (List.getElem?_eq_some_iff.mp entry).1
      omega
    refine ⟨_, by rw [List.getElem?_mapIdx, List.getElem?_eq_getElem inOutput]; rfl, ?_⟩
    dsimp only
    rw [if_pos hi, List.getD_eq_getElem?_getD, entry, Option.getD_some]
    rw [power] at row hi roots halfTurn
    have one : 1 ≤ smallDomain.log2Size := by omega
    obtain ⟨rootValue, rootCoarse⟩ :=
      roots _ ((halfIndex_lt one row).trans_eq ((rootSize_eq one).1.trans (two_pow_div_two one).symm))
    rw [power]
    refine value_lagrangeEntry M cosetGenerators _ _ _ e _ ?_
    rw [(M.conditionallySubtractFromDoubleModulus_spec rootCoarse _).1, rootValue]
    exact pow_halfIndex one M ω halfTurn
  · rw [List.getElem?_mapIdx]
    cases h : output[i]? with
    | none => rfl
    | some old => simp [Nat.not_lt.mpr hi]

def montgomery97 : Montgomery where
  modulus := 97
  negInv := 41780650755732647833247262632000791493447932611313605581247581858525356055647
  rInv := 35
  negInv_law := by decide
  rInv_law := by decide

def smallDomain97 : EvaluationDomain where
  size := 4
  log2Size := 2
  roundRoots := fun _ j => if j = 0 then 158 else 81

def samplePermutation : List PermutationSubgroupElement := [pointTo ⟨1, 3⟩, pointTo ⟨0, 2⟩, pointTo ⟨0, 0⟩, pointTo ⟨2, 1⟩]

theorem computeStandardPlonkLagrangePolynomial_value_small :
    (smallDomain97.size = 2 ^ smallDomain97.log2Size ∧ 2 ≤ smallDomain97.log2Size ∧
      (∀ j < smallDomain97.size / 2,
        montgomery97.value (smallDomain97.roundRoots (smallDomain97.log2Size - 2) j) = 22 ^ j ∧
          smallDomain97.roundRoots (smallDomain97.log2Size - 2) j < montgomery97.twiceModulus) ∧
      (22 : ZMod montgomery97.modulus) ^ (smallDomain97.size / 2) = -1 ∧
      samplePermutation.length ≤ [0, 0, 0, 0].length ∧ smallDomain97.size ≤ samplePermutation.length) ∧
    ∃ result, computeStandardPlonkLagrangePolynomial montgomery97 (fun _ => 5) [0, 0, 0, 0]
        samplePermutation smallDomain97 = .ok result ∧ result.length = [0, 0, 0, 0].length ∧
      (∀ i < smallDomain97.size, ∀ e, samplePermutation[i]? = some e →
        e.rowIndex < smallDomain97.size →
        ∃ x, result[i]? = some x ∧ montgomery97.value x = 22 ^ e.rowIndex * cosetFactor montgomery97 (fun _ => 5) e) ∧
      ∀ i, smallDomain97.size ≤ i → result[i]? = [0, 0, 0, 0][i]? :=
  ⟨⟨rfl, by decide, by decide, by decide, by decide, by decide⟩,
    computeStandardPlonkLagrangePolynomial_value montgomery97 (fun _ => 5) [0, 0, 0, 0]
      samplePermutation smallDomain97 22 rfl (by decide) (by decide) (by decide) (by decide) (by decide)⟩

end Aztec3Circuits.Permutation

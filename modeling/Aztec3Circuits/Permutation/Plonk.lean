import Aztec3Circuits.Permutation.Honk
import Aztec3Circuits.Permutation.Lagrange

/-! The Plonk permutation polynomials. `compute_plonk_permutation_lagrange_polynomials_from_mapping`
writes one Lagrange polynomial per wire with `compute_standard_plonk_lagrange_polynomial` and puts
it in the polynomial store under `label_j_lagrange`; `compute_standard_plonk_sigma_permutations`
does so for the sigma table of `compute_permutation_mapping<W, false>`. A cell's index is
`ω ^ row` times the coset factor of its column, and the left cell of public-input row `k` points
to `ω ^ k` times the external coset generator. As for Honk, the grand product over the cells and
the public inputs balances exactly for the witnesses constant on the copy cycles that carry the
public inputs, once the coset factors keep the cells and the public inputs apart. -/
namespace Aztec3Circuits.Permutation

open Field

section Polynomials

variable (M : Montgomery) (cosetGenerators : Nat → Nat)

/-- `compute_plonk_permutation_lagrange_polynomials_from_mapping(label, mappings, key)`: the
polynomials it puts in the store, in order, each under its label. `mappings[i]` holds the
`circuit_size` entries of wire `i`, and a new polynomial of `circuit_size` coefficients is zero. -/
def computePlonkPermutationLagrangePolynomialsFromMapping (label : String) (W n : Nat)
    (mappings : CycleNode → PermutationSubgroupElement) (smallDomain : EvaluationDomain) :
    Except String (List (String × List Nat)) :=
  (List.range W).mapM fun i => do
    let polynomialLagrange ← computeStandardPlonkLagrangePolynomial M cosetGenerators
      (List.replicate n 0) ((List.range n).map fun row => mappings ⟨i, row⟩) smallDomain
    pure (label ++ "_" ++ toString (i + 1) ++ "_lagrange", polynomialLagrange)

/-- `compute_standard_plonk_sigma_permutations`, up to the monomial and coset forms that
`compute_monomial_and_coset_fft_polynomials_from_lagrange` then derives by FFT. -/
def computeStandardPlonkSigmaPermutations (W n : Nat) (c : CircuitConstructor)
    (smallDomain : EvaluationDomain) : Except String (List (String × List Nat)) := do
  let (mapping, _) ← computePermutationMapping W false c
  computePlonkPermutationLagrangePolynomialsFromMapping M cosetGenerators "sigma" W n mapping.sigmas smallDomain

/-- `compute_plonk_generalized_sigma_permutations`, up to the monomial and coset forms: the sigma
and the id polynomials of the generalized mapping. -/
def computePlonkGeneralizedSigmaPermutations (W n : Nat) (c : CircuitConstructor)
    (smallDomain : EvaluationDomain) : Except String (List (String × List Nat)) := do
  let (mapping, _) ← computePermutationMapping W true c
  let sigma ← computePlonkPermutationLagrangePolynomialsFromMapping M cosetGenerators "sigma" W n
    mapping.sigmas smallDomain
  let id ← computePlonkPermutationLagrangePolynomialsFromMapping M cosetGenerators "id" W n
    mapping.ids smallDomain
  pure (sigma ++ id)

def domainEntry (smallDomain : EvaluationDomain) (e : PermutationSubgroupElement) : Nat :=
  lagrangeEntry M cosetGenerators (smallDomain.roundRoots (smallDomain.log2Size - 2)) (smallDomain.size >>> 1)
    (getMsb (smallDomain.size >>> 1)) e

def lagrangeColumns (label : String) (W n : Nat) (mappings : CycleNode → PermutationSubgroupElement)
    (smallDomain : EvaluationDomain) : List (String × List Nat) :=
  (List.range W).map fun j => (label ++ "_" ++ toString (j + 1) ++ "_lagrange",
    (List.range n).map fun i => domainEntry M cosetGenerators smallDomain (mappings ⟨j, i⟩))

def storedAt (store : List (String × List Nat)) (x : CycleNode) : Nat :=
  (store.getD x.wireIndex ("", [])).2.getD x.gateIndex 0

theorem mapM_ok {ε α β : Type} (g : α → β) (l : List α) :
    (l.mapM fun a => (.ok (g a) : Except ε β)) = .ok (l.map g) := by
  induction l with
  | nil => rfl
  | cons a rest ih => simp only [List.mapM_cons, ih, List.map_cons]; rfl

theorem computeStandardPlonkLagrangePolynomial_column (column : Nat → PermutationSubgroupElement)
    {n : Nat} {smallDomain : EvaluationDomain} (domain : smallDomain.size = n) :
    computeStandardPlonkLagrangePolynomial M cosetGenerators (List.replicate n 0) ((List.range n).map column)
        smallDomain = .ok ((List.range n).map fun i => domainEntry M cosetGenerators smallDomain (column i)) := by
  rw [computeStandardPlonkLagrangePolynomial, if_neg (by simp), if_neg (by simp [domain])]
  refine congrArg Except.ok (List.ext_getElem (by simp) fun i _ lt => ?_)
  simp only [List.length_map, List.length_range] at lt
  simp [domain, lt, getD_map_range _ lt, domainEntry]

theorem computePlonkPermutationLagrangePolynomialsFromMapping_eq (label : String) (W n : Nat)
    (mappings : CycleNode → PermutationSubgroupElement) {smallDomain : EvaluationDomain}
    (domain : smallDomain.size = n) :
    computePlonkPermutationLagrangePolynomialsFromMapping M cosetGenerators label W n mappings smallDomain =
      .ok (lagrangeColumns M cosetGenerators label W n mappings smallDomain) := by
  simp only [computePlonkPermutationLagrangePolynomialsFromMapping,
    computeStandardPlonkLagrangePolynomial_column M cosetGenerators _ domain]
  exact mapM_ok _ _

theorem storedAt_lagrangeColumns {label : String} {W n : Nat}
    {mappings : CycleNode → PermutationSubgroupElement} {smallDomain : EvaluationDomain} {x : CycleNode}
    (cell : x ∈ cellSet W n) :
    storedAt (lagrangeColumns M cosetGenerators label W n mappings smallDomain) x =
      domainEntry M cosetGenerators smallDomain (mappings x) := by
  rw [storedAt, lagrangeColumns, getD_map_range _ cell.1, getD_map_range _ cell.2]

end Polynomials

/-- What the Lagrange form reads off the small domain: a power-of-two size of at least 4, and a
half table of `get_round_roots` holding `ω ^ j` in coarse form, `ω ^ (n / 2)` being `-1`. -/
structure HalfRoots (M : Montgomery) (smallDomain : EvaluationDomain) (ω : ZMod M.modulus) : Prop where
  power : smallDomain.size = 2 ^ smallDomain.log2Size
  log2 : 2 ≤ smallDomain.log2Size
  roots : ∀ j < smallDomain.size / 2,
    M.value (smallDomain.roundRoots (smallDomain.log2Size - 2) j) = ω ^ j ∧
      smallDomain.roundRoots (smallDomain.log2Size - 2) j < M.twiceModulus
  halfTurn : ω ^ (smallDomain.size / 2) = -1

section Encoding

variable {M : Montgomery} (cosetGenerators : Nat → Nat) {smallDomain : EvaluationDomain}
  {ω : ZMod M.modulus}

theorem value_domainEntry (halfRoots : HalfRoots M smallDomain ω) {e : PermutationSubgroupElement}
    (row : e.rowIndex < smallDomain.size) :
    M.value (domainEntry M cosetGenerators smallDomain e) = ω ^ e.rowIndex * cosetFactor M cosetGenerators e := by
  obtain ⟨power, log2, roots, halfTurn⟩ := halfRoots
  rw [power] at row roots halfTurn
  have one : 1 ≤ smallDomain.log2Size := by omega
  obtain ⟨rootValue, rootCoarse⟩ :=
    roots _ ((halfIndex_lt one row).trans_eq ((rootSize_eq one).1.trans (two_pow_div_two one).symm))
  rw [domainEntry, power]
  refine value_lagrangeEntry M cosetGenerators _ _ _ e _ ?_
  rw [(M.conditionallySubtractFromDoubleModulus_spec rootCoarse _).1, rootValue]
  exact pow_halfIndex one M ω halfTurn

variable (ω)

def plonkIndex : CycleNode ⊕ Nat → ZMod M.modulus
  | .inl x => ω ^ x.gateIndex * cosetFactor M cosetGenerators (pointTo x)
  | .inr k => ω ^ k * M.value (externalCosetGenerator cosetGenerators)

variable {cosetGenerators ω} {W n : Nat} {c : CircuitConstructor} (wf : WellFormed W c) (width : 2 ≤ W)
  (size : c.publicInputs.length + c.numGates ≤ n) (halfRoots : HalfRoots M smallDomain ω)
  (domain : smallDomain.size = n)
include wf width size halfRoots domain

theorem value_sigmaEntry {y : CycleNode} (cell : y ∈ cellSet W n) :
    M.value (domainEntry M cosetGenerators smallDomain
        (((List.range c.publicInputs.length).foldl patchPublicInput ((untaggedThreaded W c).sigmas, [])).1 y)) =
      plonkIndex cosetGenerators ω (honkStep c.publicInputs.length (untaggedThreaded W c).sigmaCell (.inl y)) := by
  rw [foldl_patchPublicInput_sigmas, honkStep, untagged_sigmas wf]
  split_ifs with public
  · rw [value_domainEntry cosetGenerators halfRoots (by rw [domain]; exact cell.2)]
    simp [cosetFactor, pointTo, plonkIndex]
  · rw [value_domainEntry cosetGenerators halfRoots
      (by rw [domain]; exact (untagged_mapsTo wf width size cell).2)]
    rfl

theorem plonk_sigma_pairs (w : CycleNode → ZMod M.modulus) (x : Nat → ZMod M.modulus) :
    ((traceCells W n).map fun cell => (w cell, M.value (storedAt (lagrangeColumns M cosetGenerators "sigma" W n
        ((List.range c.publicInputs.length).foldl patchPublicInput ((untaggedThreaded W c).sigmas, [])).1
        smallDomain) cell))) ++
        ((List.range c.publicInputs.length).map fun k => (x k, ω ^ k * M.value (cosetGenerator cosetGenerators 0))) =
      (honkSlots W n c.publicInputs.length).map fun s =>
        (Sum.elim w x s, plonkIndex cosetGenerators ω (honkStep c.publicInputs.length (untaggedThreaded W c).sigmaCell s)) := by
  rw [honkSlots, List.map_append, List.map_map, List.map_map]
  congr 1
  refine List.map_congr_left fun y mem => ?_
  have cell := mem_traceCells.mp mem
  rw [Function.comp_apply, Sum.elim_inl, storedAt_lagrangeColumns M cosetGenerators cell,
    value_sigmaEntry wf width size halfRoots domain cell]

omit wf width size in
theorem plonk_id_pairs (w : CycleNode → ZMod M.modulus) (x : Nat → ZMod M.modulus) :
    ((traceCells W n).map fun cell =>
        (w cell, M.value (storedAt (lagrangeColumns M cosetGenerators "id" W n pointTo smallDomain) cell))) ++
        ((List.range c.publicInputs.length).map fun k =>
          (x k, ω ^ k * M.value (externalCosetGenerator cosetGenerators))) =
      (honkSlots W n c.publicInputs.length).map fun s => (Sum.elim w x s, plonkIndex cosetGenerators ω s) := by
  rw [honkSlots, List.map_append, List.map_map, List.map_map]
  congr 1
  refine List.map_congr_left fun y mem => ?_
  have cell := mem_traceCells.mp mem
  rw [Function.comp_apply, Sum.elim_inl, storedAt_lagrangeColumns M cosetGenerators cell,
    value_domainEntry cosetGenerators halfRoots (by rw [domain]; exact cell.2)]
  rfl

end Encoding

theorem computeStandardPlonkSigmaPermutations_untagged (M : Montgomery) (cosetGenerators : Nat → Nat)
    (W n : Nat) (c : CircuitConstructor) (smallDomain : EvaluationDomain) :
    computeStandardPlonkSigmaPermutations M cosetGenerators W n c smallDomain =
      computePlonkPermutationLagrangePolynomialsFromMapping M cosetGenerators "sigma" W n
        ((List.range c.publicInputs.length).foldl patchPublicInput ((untaggedThreaded W c).sigmas, [])).1
        smallDomain := by
  simp only [computeStandardPlonkSigmaPermutations,
    computePermutationMapping_of_threaded (threadedMapping_untagged W c)]
  rfl

/-- The Plonk sigma polynomials of a well-formed circuit are written without an exception, under
`sigma_1_lagrange`, …, and balance the polynomials of the identity table as multisets of (value,
index) pairs, with public input `k` at `ω ^ k` times the first coset generator on the sigma side
and times the external coset generator on the id side, exactly for the witnesses constant on the
copy cycles whose left public-input cells carry the public inputs. This needs the indices of the
cells and of the public inputs to be distinct, which the coset generators are chosen for. -/
theorem computeStandardPlonkSigmaPermutations_balance (M : Montgomery) (cosetGenerators : Nat → Nat)
    (W n : Nat) (c : CircuitConstructor) (smallDomain : EvaluationDomain) (ω : ZMod M.modulus)
    (width : W = 3 ∨ W = 4) (wf : WellFormed W c) (size : c.publicInputs.length + c.numGates ≤ n)
    (domain : smallDomain.size = n) (halfRoots : HalfRoots M smallDomain ω)
    (separated : ((honkSlots W n c.publicInputs.length).map (plonkIndex cosetGenerators ω)).Nodup) :
    ∃ sigma ids, computeStandardPlonkSigmaPermutations M cosetGenerators W n c smallDomain = .ok sigma ∧
      computePlonkPermutationLagrangePolynomialsFromMapping M cosetGenerators "id" W n pointTo smallDomain =
        .ok ids ∧
      sigma.map Prod.fst = (List.range W).map (fun j => "sigma_" ++ toString (j + 1) ++ "_lagrange") ∧
      ∀ (w : CycleNode → ZMod M.modulus) (x : Nat → ZMod M.modulus),
        (↑((traceCells W n).map fun cell => (w cell, M.value (storedAt sigma cell))) +
            ↑((List.range c.publicInputs.length).map fun k =>
              (x k, ω ^ k * M.value (cosetGenerator cosetGenerators 0))) :
            Multiset (ZMod M.modulus × ZMod M.modulus)) =
          ↑((traceCells W n).map fun cell => (w cell, M.value (storedAt ids cell))) +
            ↑((List.range c.publicInputs.length).map fun k =>
              (x k, ω ^ k * M.value (externalCosetGenerator cosetGenerators))) ↔
        (∀ v, ∀ a ∈ (computeWireCopyCycles W c).getD v [], ∀ b ∈ (computeWireCopyCycles W c).getD v [],
            w a = w b) ∧
          ∀ k < c.publicInputs.length, w ⟨0, k⟩ = x k := by
  have two : 2 ≤ W := by omega
  refine ⟨_, _, by rw [computeStandardPlonkSigmaPermutations_untagged,
      computePlonkPermutationLagrangePolynomialsFromMapping_eq M cosetGenerators _ _ _ _ domain],
    computePlonkPermutationLagrangePolynomialsFromMapping_eq M cosetGenerators _ _ _ _ domain,
    by simp [lagrangeColumns], fun w x => ?_⟩
  rw [Multiset.coe_add, Multiset.coe_add, Multiset.coe_eq_coe,
    plonk_sigma_pairs wf two size halfRoots domain, plonk_id_pairs halfRoots domain,
    perm_relabel_iff nodup_honkSlots (fun s => honkStep_mem wf two size) (honkStep_injOn wf)
      ((List.nodup_map_iff_inj_on nodup_honkSlots).mp separated)]
  exact slot_invariant_iff wf two size w x

def cosetGenerators97 (idx : Nat) : Nat := if idx = 0 then 25 else if idx = 1 then 86 else 14

theorem computeStandardPlonkSigmaPermutations_balance_aliased :
    ((3 = 3 ∨ 3 = 4) ∧ WellFormed 3 aliasedCircuit ∧
      aliasedCircuit.publicInputs.length + aliasedCircuit.numGates ≤ 4 ∧ smallDomain97.size = 4 ∧
      HalfRoots montgomery97 smallDomain97 22 ∧
      ((honkSlots 3 4 aliasedCircuit.publicInputs.length).map
        (plonkIndex cosetGenerators97 (22 : ZMod montgomery97.modulus))).Nodup) ∧
    ∃ sigma ids, computeStandardPlonkSigmaPermutations montgomery97 cosetGenerators97 3 4 aliasedCircuit
        smallDomain97 = .ok sigma ∧
      computePlonkPermutationLagrangePolynomialsFromMapping montgomery97 cosetGenerators97 "id" 3 4 pointTo
        smallDomain97 = .ok ids ∧
      sigma.map Prod.fst = (List.range 3).map (fun j => "sigma_" ++ toString (j + 1) ++ "_lagrange") ∧
      ∀ (w : CycleNode → ZMod montgomery97.modulus) (x : Nat → ZMod montgomery97.modulus),
        (↑((traceCells 3 4).map fun cell => (w cell, montgomery97.value (storedAt sigma cell))) +
            ↑((List.range aliasedCircuit.publicInputs.length).map fun k =>
              (x k, 22 ^ k * montgomery97.value (cosetGenerator cosetGenerators97 0))) :
            Multiset (ZMod montgomery97.modulus × ZMod montgomery97.modulus)) =
          ↑((traceCells 3 4).map fun cell => (w cell, montgomery97.value (storedAt ids cell))) +
            ↑((List.range aliasedCircuit.publicInputs.length).map fun k =>
              (x k, 22 ^ k * montgomery97.value (externalCosetGenerator cosetGenerators97))) ↔
        (∀ v, ∀ a ∈ (computeWireCopyCycles 3 aliasedCircuit).getD v [],
            ∀ b ∈ (computeWireCopyCycles 3 aliasedCircuit).getD v [], w a = w b) ∧
          ∀ k < aliasedCircuit.publicInputs.length, w ⟨0, k⟩ = x k :=
  have halfRoots : HalfRoots montgomery97 smallDomain97 22 := ⟨rfl, by decide, by decide, by decide⟩
  ⟨⟨.inl rfl, aliasedCircuit_wellFormed, by decide, rfl, halfRoots, by decide⟩,
    computeStandardPlonkSigmaPermutations_balance montgomery97 cosetGenerators97 3 4 aliasedCircuit smallDomain97
      22 (.inl rfl) aliasedCircuit_wellFormed (by decide) rfl halfRoots (by decide)⟩

end Aztec3Circuits.Permutation

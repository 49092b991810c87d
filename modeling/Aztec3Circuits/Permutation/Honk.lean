import Aztec3Circuits.Permutation.Sigma

/-! The Honk permutation argument. `compute_standard_honk_sigma_permutations` stores at every cell
the index `row + n * column` of the cell its sigma entry points to, and `-(row + 1)` at the left
cell of a public-input row; `compute_standard_honk_id_polynomials` stores each cell's own index.
With the public inputs added at the indices `n + k` on the sigma side and `-(k + 1)` on the id
side, the multisets of (value, index) pairs balance exactly for the witnesses that are constant
on the copy cycles and carry the public inputs in their left cells. -/
namespace Aztec3Circuits.Permutation

section Balance

/-! Relabelling the pairs of a list through a permutation of its slots. -/

variable {α β γ : Type} {slots : List α} {τ : α → α} {label : α → β}

theorem perm_map_of_injOn (nodup : slots.Nodup) (mapsTo : ∀ s ∈ slots, τ s ∈ slots)
    (injOn : ∀ s ∈ slots, ∀ t ∈ slots, τ s = τ t → s = t) : (slots.map τ).Perm slots :=
  (List.subperm_of_subset (nodup.map_on injOn) fun _ mem => by
    obtain ⟨s, memS, rfl⟩ := List.mem_map.mp mem
    exact mapsTo s memS).perm_of_length_le (by simp)

theorem perm_relabel_iff (nodup : slots.Nodup) (mapsTo : ∀ s ∈ slots, τ s ∈ slots)
    (injOn : ∀ s ∈ slots, ∀ t ∈ slots, τ s = τ t → s = t)
    (labels : ∀ s ∈ slots, ∀ t ∈ slots, label s = label t → s = t) (value : α → γ) :
    (slots.map fun s => (value s, label (τ s))).Perm (slots.map fun s => (value s, label s)) ↔
      ∀ s ∈ slots, value s = value (τ s) := by
  constructor
  · intro perm s mem
    have pair : (value (τ s), label (τ s)) ∈ slots.map fun s => (value s, label (τ s)) :=
      perm.mem_iff.mpr (List.mem_map_of_mem _ (mapsTo s mem))
    obtain ⟨t, memT, same⟩ := List.mem_map.mp pair
    simp only [Prod.mk.injEq] at same
    have back := injOn t memT s mem (labels _ (mapsTo t memT) _ (mapsTo s mem) same.2)
    subst back
    exact same.1
  · intro invariant
    have moved := (perm_map_of_injOn nodup mapsTo injOn).map fun s => (value s, label s)
    rw [List.map_map] at moved
    rwa [List.map_congr_left fun s mem => by rw [Function.comp_apply, ← invariant s mem]] at moved

end Balance

variable (p : Nat)

/-- The value `compute_honk_style_sigma_lagrange_polynomials_from_mapping` stores for an entry,
`num_gates` being the circuit size `n`. Tag entries are excluded there by an `ASSERT`. -/
def honkSigmaValue (n : Nat) (e : PermutationSubgroupElement) : ZMod p :=
  if e.isPublicInput then -((e.rowIndex + 1 + n * e.columnIndex : Nat) : ZMod p)
  else ((e.rowIndex + n * e.columnIndex : Nat) : ZMod p)

/-- `compute_honk_style_sigma_lagrange_polynomials_from_mapping`: polynomial `sigma_{j+1}` over
the `n` points of the small domain, for each of the `W` wires. -/
def computeHonkStyleSigmaLagrangePolynomialsFromMapping (W n : Nat)
    (sigmas : CycleNode → PermutationSubgroupElement) : List (List (ZMod p)) :=
  (List.range W).map fun j => (List.range n).map fun i => honkSigmaValue p n (sigmas ⟨j, i⟩)

/-- `compute_standard_honk_id_polynomials`: `id_{j+1}[i] = j * n + i`. -/
def computeStandardHonkIdPolynomials (W n : Nat) : List (List (ZMod p)) :=
  (List.range W).map fun j => (List.range n).map fun i => ((j * n + i : Nat) : ZMod p)

/-- `compute_standard_honk_sigma_permutations`. -/
def computeStandardHonkSigmaPermutations (W n : Nat) (c : CircuitConstructor) :
    Except String (List (List (ZMod p))) := do
  let (mapping, _) ← computePermutationMapping W false c
  pure (computeHonkStyleSigmaLagrangePolynomialsFromMapping p W n mapping.sigmas)

def polynomialAt (polys : List (List (ZMod p))) (x : CycleNode) : ZMod p :=
  (polys.getD x.wireIndex []).getD x.gateIndex 0

def traceCells (W n : Nat) : List CycleNode :=
  (List.range W).flatMap fun j => (List.range n).map fun i => ⟨j, i⟩

variable {p}

theorem polynomialAt_sigma {W n : Nat} (sigmas : CycleNode → PermutationSubgroupElement) {x : CycleNode}
    (cell : x ∈ cellSet W n) :
    polynomialAt p (computeHonkStyleSigmaLagrangePolynomialsFromMapping p W n sigmas) x =
      honkSigmaValue p n (sigmas x) := by
  rw [polynomialAt, computeHonkStyleSigmaLagrangePolynomialsFromMapping, getD_map_range _ cell.1,
    getD_map_range _ cell.2]

theorem polynomialAt_id {W n : Nat} {x : CycleNode} (cell : x ∈ cellSet W n) :
    polynomialAt p (computeStandardHonkIdPolynomials p W n) x =
      ((x.wireIndex * n + x.gateIndex : Nat) : ZMod p) := by
  rw [polynomialAt, computeStandardHonkIdPolynomials, getD_map_range _ cell.1, getD_map_range _ cell.2]

theorem mem_traceCells {W n : Nat} {x : CycleNode} : x ∈ traceCells W n ↔ x ∈ cellSet W n := by
  obtain ⟨j, i⟩ := x
  simp [traceCells, cellSet]

theorem nodup_traceCells (W n : Nat) : (traceCells W n).Nodup := by
  refine List.nodup_flatMap.mpr ⟨fun j _ => (List.nodup_range n).map fun _ _ same => by simpa using same,
    (List.nodup_range W).pairwise_of_forall_ne fun j _ j' _ ne x mem mem' => ne ?_⟩
  obtain ⟨_, _, rfl⟩ := List.mem_map.mp mem
  obtain ⟨_, _, same⟩ := List.mem_map.mp mem'
  exact (CycleNode.mk.inj same).1.symm

theorem cellIndex_injective {n : Nat} {x y : CycleNode} (hx : x.gateIndex < n) (hy : y.gateIndex < n)
    (same : x.wireIndex * n + x.gateIndex = y.wireIndex * n + y.gateIndex) : x = y := by
  have le : ∀ a b : Nat, a < b → a * n + n ≤ b * n := fun a b lt => by
    simpa [Nat.succ_mul] using Nat.mul_le_mul_right n lt
  obtain ⟨a, i⟩ := x
  obtain ⟨b, j⟩ := y
  simp only at hx hy same
  rcases Nat.lt_trichotomy a b with lt | rfl | lt
  · have := le a b lt
    omega
  · congr
    omega
  · have := le b a lt
    omega

theorem cellIndex_lt {W n : Nat} {x : CycleNode} (cell : x ∈ cellSet W n) :
    x.wireIndex * n + x.gateIndex < W * n :=
  calc x.wireIndex * n + x.gateIndex < (x.wireIndex + 1) * n := by rw [Nat.succ_mul]; exact Nat.add_lt_add_left cell.2 _
    _ ≤ W * n := Nat.mul_le_mul_right n cell.1

theorem untagged_sigmas {W : Nat} {c : CircuitConstructor} (wf : WellFormed W c) (x : CycleNode) :
    (untaggedThreaded W c).sigmas x = pointTo ((untaggedThreaded W c).sigmaCell x) := by
  suffices plain : ∃ y, (untaggedThreaded W c).sigmas x = pointTo y by
    obtain ⟨y, entry⟩ := plain
    rw [PermutationMapping.sigmaCell, entry, pointTo_cell]
  cases held : heldVariable W c x with
  | none => exact ⟨x, threadCyclesWith_sigmas_of_free W c _ _ _ held⟩
  | some v =>
    obtain ⟨k, hk, rfl⟩ := exists_getD_of_mem (mem_cellsHolding.mpr held)
    rw [untaggedThreaded, threadCyclesWith_sigmas_cellsHolding W c _ _ _ (heldVariable_lt wf held) hk]
    exact ⟨_, rfl⟩

section Slots

/-! The grand product runs over the cells of the trace and the public inputs. A cell's id index
is `wire * n + row` and a public input `k`'s is `-(k + 1)`; the sigma side sends the left cell
of public-input row `k` to the public input `k`, the public input to the right cell of its row,
and every other cell to its sigma cell. -/

variable (p) (W n m : Nat)

def honkSlots : List (CycleNode ⊕ Nat) := (traceCells W n).map .inl ++ (List.range m).map .inr

def honkIndex : CycleNode ⊕ Nat → ZMod p
  | .inl x => ((x.wireIndex * n + x.gateIndex : Nat) : ZMod p)
  | .inr k => -((k + 1 : Nat) : ZMod p)

def honkStep (sigma : CycleNode → CycleNode) : CycleNode ⊕ Nat → CycleNode ⊕ Nat
  | .inl x => if x.wireIndex = 0 ∧ x.gateIndex < m then .inr x.gateIndex else .inl (sigma x)
  | .inr k => .inl ⟨1, k⟩

variable {p W n m}

@[simp] theorem inl_mem_honkSlots {x : CycleNode} : .inl x ∈ honkSlots W n m ↔ x ∈ cellSet W n := by
  simp [honkSlots, mem_traceCells]

@[simp] theorem inr_mem_honkSlots {k : Nat} : .inr k ∈ honkSlots W n m ↔ k < m := by
  simp [honkSlots, mem_traceCells]

theorem nodup_honkSlots : (honkSlots W n m).Nodup :=
  List.nodup_append.mpr ⟨(nodup_traceCells W n).map Sum.inl_injective,
    (List.nodup_range m).map Sum.inr_injective, fun s mem mem' => by
      obtain ⟨_, _, rfl⟩ := List.mem_map.mp mem
      obtain ⟨_, _, same⟩ := List.mem_map.mp mem'
      cases same⟩

def honkCode (p n : Nat) : CycleNode ⊕ Nat → Nat
  | .inl x => x.wireIndex * n + x.gateIndex
  | .inr k => p - (k + 1)

variable (field : W * n + m < p)
include field

theorem honkIndex_eq_honkCode {s : CycleNode ⊕ Nat} (mem : s ∈ honkSlots W n m) :
    honkIndex p n s = (honkCode p n s : ZMod p) := by
  cases s with
  | inl x => rfl
  | inr k =>
    have le : k + 1 ≤ p := by simp at mem; omega
    rw [honkIndex, honkCode, Nat.cast_sub le, ZMod.natCast_self, zero_sub]

theorem honkCode_lt {s : CycleNode ⊕ Nat} (mem : s ∈ honkSlots W n m) : honkCode p n s < p := by
  cases s with
  | inl x => have := cellIndex_lt (inl_mem_honkSlots.mp mem); simp only [honkCode]; omega
  | inr k => simp only [honkCode]; simp at mem; omega

theorem honkCode_injOn :
    ∀ s ∈ honkSlots W n m, ∀ t ∈ honkSlots W n m, honkCode p n s = honkCode p n t → s = t := by
  rintro (x | k) mem (y | k') mem' same <;> simp only [honkCode, inl_mem_honkSlots, inr_mem_honkSlots] at mem mem' same
  · exact congrArg _ (cellIndex_injective mem.2 mem'.2 same)
  · have := cellIndex_lt mem
    omega
  · have := cellIndex_lt mem'
    omega
  · exact congrArg _ (by omega)

theorem honkIndex_injOn :
    ∀ s ∈ honkSlots W n m, ∀ t ∈ honkSlots W n m, honkIndex p n s = honkIndex p n t → s = t := by
  intro s mem t mem' same
  rw [honkIndex_eq_honkCode field mem, honkIndex_eq_honkCode field mem', ZMod.natCast_eq_natCast_iff',
    Nat.mod_eq_of_lt (honkCode_lt field mem), Nat.mod_eq_of_lt (honkCode_lt field mem')] at same
  exact honkCode_injOn field s mem t mem' same

end Slots

section Untagged

variable {W n : Nat} {c : CircuitConstructor} (wf : WellFormed W c) (width : 2 ≤ W)
  (size : c.publicInputs.length + c.numGates ≤ n)
include wf width size

theorem honkStep_mem {s : CycleNode ⊕ Nat} (mem : s ∈ honkSlots W n c.publicInputs.length) :
    honkStep c.publicInputs.length (untaggedThreaded W c).sigmaCell s ∈ honkSlots W n c.publicInputs.length := by
  cases s with
  | inl x =>
    simp only [honkStep]
    split_ifs with public
    · simpa using public.2
    · exact inl_mem_honkSlots.mpr (untagged_mapsTo wf width size (inl_mem_honkSlots.mp mem))
  | inr k => simp at mem; simp [honkStep, cellSet]; omega

omit width size in
theorem honkStep_injOn :
    ∀ s ∈ honkSlots W n c.publicInputs.length, ∀ t ∈ honkSlots W n c.publicInputs.length,
      honkStep c.publicInputs.length (untaggedThreaded W c).sigmaCell s =
        honkStep c.publicInputs.length (untaggedThreaded W c).sigmaCell t → s = t := by
  have cross : ∀ x k, k < c.publicInputs.length →
      honkStep c.publicInputs.length (untaggedThreaded W c).sigmaCell (.inl x) ≠ .inl ⟨1, k⟩ := by
    intro x k hk same
    simp only [honkStep] at same
    split_ifs at same with public
    rw [Sum.inl.injEq, ← untagged_public_step wf hk] at same
    cases untagged_injective wf same
    exact public ⟨rfl, hk⟩
  rintro (x | k) mem (y | k') mem' same
  · simp only [honkStep] at same
    split_ifs at same with hx hy hy <;> simp only [Sum.inr.injEq, Sum.inl.injEq, reduceCtorEq] at same
    · obtain ⟨j, i⟩ := x
      obtain ⟨j', i'⟩ := y
      simp_all
    · rw [untagged_injective wf same]
  · exact absurd same (cross x k' (inr_mem_honkSlots.mp mem'))
  · exact absurd same.symm (cross y k (inr_mem_honkSlots.mp mem))
  · simpa [honkStep] using same

omit width size in
theorem invariant_of_cycles {γ : Type} {w : CycleNode → γ} {x : Nat → γ}
    (cycle : ∀ v, ∀ a ∈ (computeWireCopyCycles W c).getD v [], ∀ b ∈ (computeWireCopyCycles W c).getD v [],
      w a = w b)
    (public : ∀ k < c.publicInputs.length, w ⟨0, k⟩ = x k) :
    ∀ s ∈ honkSlots W n c.publicInputs.length,
      Sum.elim w x s = Sum.elim w x (honkStep c.publicInputs.length (untaggedThreaded W c).sigmaCell s) := by
  rintro (y | k) mem
  · simp only [honkStep]
    split_ifs with pub
    · obtain ⟨j, i⟩ := y
      obtain ⟨rfl, hi⟩ := pub
      exact public i hi
    · cases held : heldVariable W c y with
      | none => rw [untagged_free held]
      | some v =>
        exact cycle v y ((mem_computeWireCopyCycles_getD wf).mpr held) _
          ((mem_computeWireCopyCycles_getD wf).mpr ((heldVariable_untagged wf y).trans held))
  · have hk := inr_mem_honkSlots.mp mem
    rw [honkStep, Sum.elim_inr, Sum.elim_inl, ← public k hk]
    exact cycle (c.publicVariable k) _ ((mem_computeWireCopyCycles_getD wf).mpr (by simp [heldVariable, hk])) _
      ((mem_computeWireCopyCycles_getD wf).mpr (by simp [heldVariable, hk]))

section Invariant

variable {γ : Type} {w : CycleNode → γ} {x : Nat → γ}
  (invariant : ∀ s ∈ honkSlots W n c.publicInputs.length,
    Sum.elim w x s = Sum.elim w x (honkStep c.publicInputs.length (untaggedThreaded W c).sigmaCell s))
include invariant

omit wf in
theorem invariant_public : ∀ k < c.publicInputs.length, w ⟨0, k⟩ = x k := fun k hk => by
  simpa [honkStep, hk] using invariant (.inl ⟨0, k⟩) (inl_mem_honkSlots.mpr (show 0 < W ∧ k < n by omega))

theorem invariant_step {y : CycleNode} (cell : y ∈ cellSet W n) : w ((untaggedThreaded W c).sigmaCell y) = w y := by
  by_cases pub : y.wireIndex = 0 ∧ y.gateIndex < c.publicInputs.length
  · obtain ⟨j, i⟩ := y
    obtain ⟨rfl, hi⟩ := pub
    rw [untagged_public_step wf hi, invariant_public width size invariant i hi]
    simpa [honkStep] using (invariant (.inr i) (inr_mem_honkSlots.mpr hi)).symm
  · simpa [honkStep, pub] using (invariant (.inl y) (inl_mem_honkSlots.mpr cell)).symm

theorem invariant_cycles (v : Nat) {a b : CycleNode} (memA : a ∈ (computeWireCopyCycles W c).getD v [])
    (memB : b ∈ (computeWireCopyCycles W c).getD v []) : w a = w b := by
  have orbit : b ∈ {y | ∃ k, (untaggedThreaded W c).sigmaCell^[k] a = y} := by
    rwa [untagged_orbit_eq wf memA]
  obtain ⟨j, rfl⟩ := orbit
  clear memB
  have cell := heldVariable_mem_cellSet width size ((mem_computeWireCopyCycles_getD wf).mp memA)
  induction j with
  | zero => rfl
  | succ j ih =>
    rw [Function.iterate_succ_apply',
      invariant_step wf width size invariant ((untagged_mapsTo wf width size).iterate j cell), ih]

end Invariant

theorem slot_invariant_iff {γ : Type} (w : CycleNode → γ) (x : Nat → γ) :
    (∀ s ∈ honkSlots W n c.publicInputs.length,
        Sum.elim w x s = Sum.elim w x (honkStep c.publicInputs.length (untaggedThreaded W c).sigmaCell s)) ↔
      (∀ v, ∀ a ∈ (computeWireCopyCycles W c).getD v [], ∀ b ∈ (computeWireCopyCycles W c).getD v [],
          w a = w b) ∧
        ∀ k < c.publicInputs.length, w ⟨0, k⟩ = x k :=
  ⟨fun invariant => ⟨fun v _ memA _ memB => invariant_cycles wf width size invariant v memA memB,
      invariant_public width size invariant⟩,
    fun ⟨cycle, public⟩ => invariant_of_cycles wf cycle public⟩

end Untagged

theorem computeStandardHonkSigmaPermutations_untagged (W n : Nat) (c : CircuitConstructor) :
    computeStandardHonkSigmaPermutations p W n c =
      .ok (computeHonkStyleSigmaLagrangePolynomialsFromMapping p W n
        ((List.range c.publicInputs.length).foldl patchPublicInput ((untaggedThreaded W c).sigmas, [])).1) := by
  simp only [computeStandardHonkSigmaPermutations, computePermutationMapping_of_threaded (threadedMapping_untagged W c)]
  rfl

theorem honkSigmaValue_pointTo (n : Nat) (x : CycleNode) :
    honkSigmaValue p n (pointTo x) = ((x.gateIndex + n * x.wireIndex : Nat) : ZMod p) := rfl

theorem polynomialAt_honkSigma {W n : Nat} {c : CircuitConstructor} (wf : WellFormed W c) {y : CycleNode}
    (cell : y ∈ cellSet W n) :
    polynomialAt p (computeHonkStyleSigmaLagrangePolynomialsFromMapping p W n
        ((List.range c.publicInputs.length).foldl patchPublicInput ((untaggedThreaded W c).sigmas, [])).1) y =
      honkIndex p n (honkStep c.publicInputs.length (untaggedThreaded W c).sigmaCell (.inl y)) := by
  rw [polynomialAt_sigma _ cell, foldl_patchPublicInput_sigmas, honkStep]
  split_ifs
  · simp only [honkSigmaValue, honkIndex, if_true, Nat.mul_zero, Nat.add_zero]
  · rw [untagged_sigmas wf, honkSigmaValue_pointTo, honkIndex, Nat.add_comm, Nat.mul_comm]

theorem sigma_pairs {W n : Nat} {c : CircuitConstructor} (wf : WellFormed W c) (w : CycleNode → ZMod p)
    (x : Nat → ZMod p) :
    ((traceCells W n).map fun cell => (w cell, polynomialAt p
        (computeHonkStyleSigmaLagrangePolynomialsFromMapping p W n
          ((List.range c.publicInputs.length).foldl patchPublicInput ((untaggedThreaded W c).sigmas, [])).1) cell)) ++
        ((List.range c.publicInputs.length).map fun k => (x k, ((n + k : Nat) : ZMod p))) =
      (honkSlots W n c.publicInputs.length).map fun s =>
        (Sum.elim w x s, honkIndex p n (honkStep c.publicInputs.length (untaggedThreaded W c).sigmaCell s)) := by
  rw [honkSlots, List.map_append, List.map_map, List.map_map]
  congr 1 <;> refine List.map_congr_left fun y mem => ?_
  · rw [Function.comp_apply, Sum.elim_inl, polynomialAt_honkSigma wf (mem_traceCells.mp mem)]
  · simp [honkStep, honkIndex]

theorem id_pairs {W n m : Nat} (w : CycleNode → ZMod p) (x : Nat → ZMod p) :
    ((traceCells W n).map fun cell => (w cell, polynomialAt p (computeStandardHonkIdPolynomials p W n) cell)) ++
        ((List.range m).map fun k => (x k, -((k + 1 : Nat) : ZMod p))) =
      (honkSlots W n m).map fun s => (Sum.elim w x s, honkIndex p n s) := by
  rw [honkSlots, List.map_append, List.map_map, List.map_map]
  congr 1
  refine List.map_congr_left fun y mem => ?_
  rw [Function.comp_apply, Sum.elim_inl, polynomialAt_id (mem_traceCells.mp mem), honkIndex]

/-- The Honk sigma polynomials of a well-formed circuit, with the public inputs at sigma index
`n + k` and id index `-(k + 1)`, balance the id polynomials as multisets of (value, index) pairs
exactly for the witnesses constant on the copy cycles whose left public-input cells carry the
public inputs. -/
theorem computeStandardHonkSigmaPermutations_balance (p W n : Nat) (c : CircuitConstructor)
    (width : W = 3 ∨ W = 4) (wf : WellFormed W c) (size : c.publicInputs.length + c.numGates ≤ n)
    (field : W * n + c.publicInputs.length < p) :
    ∃ sigma, computeStandardHonkSigmaPermutations p W n c = .ok sigma ∧
      ∀ (w : CycleNode → ZMod p) (x : Nat → ZMod p),
        (↑((traceCells W n).map fun cell => (w cell, polynomialAt p sigma cell)) +
            ↑((List.range c.publicInputs.length).map fun k => (x k, ((n + k : Nat) : ZMod p))) :
            Multiset (ZMod p × ZMod p)) =
          ↑((traceCells W n).map fun cell =>
              (w cell, polynomialAt p (computeStandardHonkIdPolynomials p W n) cell)) +
            ↑((List.range c.publicInputs.length).map fun k => (x k, -((k + 1 : Nat) : ZMod p))) ↔
        (∀ v, ∀ a ∈ (computeWireCopyCycles W c).getD v [], ∀ b ∈ (computeWireCopyCycles W c).getD v [],
            w a = w b) ∧
          ∀ k < c.publicInputs.length, w ⟨0, k⟩ = x k := by
  have two : 2 ≤ W := by omega
  refine ⟨_, computeStandardHonkSigmaPermutations_untagged W n c, fun w x => ?_⟩
  rw [Multiset.coe_add, Multiset.coe_add, Multiset.coe_eq_coe, sigma_pairs wf, id_pairs,
    perm_relabel_iff nodup_honkSlots (fun s => honkStep_mem wf two size) (honkStep_injOn wf)
      (honkIndex_injOn field)]
  exact slot_invariant_iff wf two size w x

theorem computeStandardHonkSigmaPermutations_balance_aliased :
    ((3 = 3 ∨ 3 = 4) ∧ WellFormed 3 aliasedCircuit ∧
      aliasedCircuit.publicInputs.length + aliasedCircuit.numGates ≤ 4 ∧
      3 * 4 + aliasedCircuit.publicInputs.length < 17) ∧
    ∃ sigma, computeStandardHonkSigmaPermutations 17 3 4 aliasedCircuit = .ok sigma ∧
      ∀ (w : CycleNode → ZMod 17) (x : Nat → ZMod 17),
        (↑((traceCells 3 4).map fun cell => (w cell, polynomialAt 17 sigma cell)) +
            ↑((List.range aliasedCircuit.publicInputs.length).map fun k => (x k, ((4 + k : Nat) : ZMod 17))) :
            Multiset (ZMod 17 × ZMod 17)) =
          ↑((traceCells 3 4).map fun cell =>
              (w cell, polynomialAt 17 (computeStandardHonkIdPolynomials 17 3 4) cell)) +
            ↑((List.range aliasedCircuit.publicInputs.length).map fun k =>
              (x k, -((k + 1 : Nat) : ZMod 17))) ↔
        (∀ v, ∀ a ∈ (computeWireCopyCycles 3 aliasedCircuit).getD v [],
            ∀ b ∈ (computeWireCopyCycles 3 aliasedCircuit).getD v [], w a = w b) ∧
          ∀ k < aliasedCircuit.publicInputs.length, w ⟨0, k⟩ = x k :=
  ⟨⟨.inl rfl, aliasedCircuit_wellFormed, by decide, by decide⟩,
    computeStandardHonkSigmaPermutations_balance 17 3 4 aliasedCircuit (.inl rfl) aliasedCircuit_wellFormed
      (by decide) (by decide)⟩

end Aztec3Circuits.Permutation

import Aztec3Circuits.Permutation.Mapping

/-! The sigma table that `compute_permutation_mapping` threads through the copy cycles, read as
a map on cells. Within a cycle it is the rotation by one node, and it fixes every cell that
holds no variable; so it is a bijection of the trace whose orbits are the copy cycles. -/
namespace Aztec3Circuits.Permutation

def PermutationSubgroupElement.cell (e : PermutationSubgroupElement) : CycleNode :=
  ⟨e.columnIndex, e.rowIndex⟩

@[simp] theorem pointTo_cell (x : CycleNode) : (pointTo x).cell = x := rfl

def PermutationMapping.sigmaCell (mapping : PermutationMapping) (x : CycleNode) : CycleNode :=
  (mapping.sigmas x).cell

theorem nextNodeIndex_eq {cycle : List CycleNode} {k : Nat} (hk : k < cycle.length) :
    nextNodeIndex cycle k = (k + 1) % cycle.length := by
  unfold nextNodeIndex
  split_ifs with last
  · rw [show k + 1 = cycle.length by omega, Nat.mod_self]
  · rw [Nat.mod_eq_of_lt (by omega)]

theorem getD_injective {l : List CycleNode} (nodup : l.Nodup) {i j : Nat} (hi : i < l.length)
    (hj : j < l.length) (same : l.getD i ⟨0, 0⟩ = l.getD j ⟨0, 0⟩) : i = j := by
  rw [List.getD_eq_getElem _ _ hi, List.getD_eq_getElem _ _ hj] at same
  exact nodup.getElem_inj_iff.mp same

theorem exists_getD_of_mem {l : List CycleNode} {x : CycleNode} (mem : x ∈ l) :
    ∃ k < l.length, l.getD k ⟨0, 0⟩ = x := by
  obtain ⟨k, hk, rfl⟩ := List.mem_iff_getElem.mp mem
  exact ⟨k, hk, List.getD_eq_getElem _ _ hk⟩

section Rotation

/-! A map that moves every node of a list to the next one, wrapping around. -/

variable {σ : CycleNode → CycleNode} {l : List CycleNode}
  (step : ∀ k < l.length, σ (l.getD k ⟨0, 0⟩) = l.getD ((k + 1) % l.length) ⟨0, 0⟩)
include step

theorem iterate_getD (j : Nat) {k : Nat} (hk : k < l.length) :
    σ^[j] (l.getD k ⟨0, 0⟩) = l.getD ((k + j) % l.length) ⟨0, 0⟩ := by
  induction j with
  | zero => rw [Function.iterate_zero_apply, Nat.add_zero, Nat.mod_eq_of_lt hk]
  | succ j ih =>
    rw [Function.iterate_succ_apply', ih, step _ (Nat.mod_lt _ (by omega)), Nat.mod_add_mod,
      Nat.add_assoc]

theorem iterate_mem {x : CycleNode} (mem : x ∈ l) (j : Nat) : σ^[j] x ∈ l := by
  obtain ⟨k, hk, rfl⟩ := exists_getD_of_mem mem
  rw [iterate_getD step j hk]
  exact getD_mem _ (Nat.mod_lt _ (by omega))

theorem exists_iterate_iff {x y : CycleNode} (mem : x ∈ l) : (∃ j, σ^[j] x = y) ↔ y ∈ l := by
  constructor
  · rintro ⟨j, rfl⟩
    exact iterate_mem step mem j
  · intro target
    obtain ⟨k, hk, rfl⟩ := exists_getD_of_mem mem
    obtain ⟨k', hk', rfl⟩ := exists_getD_of_mem target
    refine ⟨k' + l.length - k, ?_⟩
    rw [iterate_getD step _ hk, show k + (k' + l.length - k) = k' + l.length by omega,
      Nat.add_mod_right, Nat.mod_eq_of_lt hk']

theorem iterate_length {x : CycleNode} (mem : x ∈ l) : σ^[l.length] x = x := by
  obtain ⟨k, hk, rfl⟩ := exists_getD_of_mem mem
  rw [iterate_getD step _ hk, Nat.add_mod_right, Nat.mod_eq_of_lt hk]

theorem iterate_ne_self (nodup : l.Nodup) {x : CycleNode} (mem : x ∈ l) {j : Nat} (pos : 0 < j)
    (lt : j < l.length) : σ^[j] x ≠ x := by
  obtain ⟨k, hk, rfl⟩ := exists_getD_of_mem mem
  rw [iterate_getD step _ hk]
  intro same
  have back := getD_injective nodup (Nat.mod_lt _ (by omega)) hk same
  rcases Nat.lt_or_ge (k + j) l.length with small | large
  · rw [Nat.mod_eq_of_lt small] at back
    omega
  · rw [Nat.mod_eq_sub_mod large, Nat.mod_eq_of_lt (by omega)] at back
    omega

end Rotation

theorem ncard_mem_eq_length {l : List CycleNode} (nodup : l.Nodup) : {y | y ∈ l}.ncard = l.length := by
  rw [show {y | y ∈ l} = ↑l.toFinset by ext; simp, Set.ncard_coe_Finset,
    List.toFinset_card_of_nodup nodup]

section WireCopyCycles

variable {W : Nat} {c : CircuitConstructor}

theorem map_nodeCell_computeWireCopyCycles (W : Nat) (c : CircuitConstructor) :
    (threadingNodes (computeWireCopyCycles W c)).map (nodeCell (computeWireCopyCycles W c)) =
      (List.range c.numVariables).flatMap (cellsHolding W c) := by
  rw [map_nodeCell_threadingNodes, computeWireCopyCycles_length]
  refine List.flatMap_congr fun v mem => ?_
  exact computeWireCopyCycles_getD W c (List.mem_range.mp mem)

theorem nodup_computeWireCopyCycles_cells (W : Nat) (c : CircuitConstructor) :
    ((threadingNodes (computeWireCopyCycles W c)).map (nodeCell (computeWireCopyCycles W c))).Nodup := by
  rw [map_nodeCell_computeWireCopyCycles]
  refine List.nodup_flatMap.mpr ⟨fun v _ => nodup_cellsHolding W c v, ?_⟩
  refine (List.nodup_range _).pairwise_of_forall_ne fun v _ w _ ne => ?_
  refine List.disjoint_left.mpr fun x inV inW => ne ?_
  rw [mem_cellsHolding] at inV inW
  exact Option.some.inj (inV.symm.trans inW)

theorem nodeCell_ne_of_heldVariable_eq_none {x : CycleNode} (free : heldVariable W c x = none)
    {p : Nat × Nat} (mem : p ∈ threadingNodes (computeWireCopyCycles W c)) :
    nodeCell (computeWireCopyCycles W c) p ≠ x := by
  rintro rfl
  have inCells := List.mem_map_of_mem (nodeCell (computeWireCopyCycles W c)) mem
  rw [map_nodeCell_computeWireCopyCycles, List.mem_flatMap] at inCells
  obtain ⟨v, _, held⟩ := inCells
  rw [mem_cellsHolding, free] at held
  cases held

theorem nodeCell_cellsHolding {v k : Nat} (hv : v < c.numVariables) :
    nodeCell (computeWireCopyCycles W c) (v, k) = (cellsHolding W c v).getD k ⟨0, 0⟩ := by
  rw [nodeCell, computeWireCopyCycles_getD W c hv]

theorem mem_threadingNodes_computeWireCopyCycles {v k : Nat} (hv : v < c.numVariables)
    (hk : k < (cellsHolding W c v).length) :
    (v, k) ∈ threadingNodes (computeWireCopyCycles W c) :=
  mem_threadingNodes.mpr ⟨by rwa [computeWireCopyCycles_length],
    by rwa [computeWireCopyCycles_getD W c hv]⟩

variable (generalized : Bool) (tagOf tauOf : Nat → Nat) (W c)

theorem threadCyclesWith_sigmas_cellsHolding {v k : Nat} (hv : v < c.numVariables)
    (hk : k < (cellsHolding W c v).length) :
    (threadCyclesWith generalized tagOf tauOf (computeWireCopyCycles W c) ⟨pointTo, pointTo⟩).sigmas
        ((cellsHolding W c v).getD k ⟨0, 0⟩) =
      nodeSigma generalized (tauOf v) (cellsHolding W c v) k := by
  rw [← nodeCell_cellsHolding hv, threadCyclesWith_sigmas_node _ _ _ _
    (nodup_computeWireCopyCycles_cells W c) (mem_threadingNodes_computeWireCopyCycles hv hk),
    computeWireCopyCycles_getD W c hv]

theorem threadCyclesWith_ids_cellsHolding {v k : Nat} (hv : v < c.numVariables)
    (hk : k < (cellsHolding W c v).length) :
    (threadCyclesWith generalized tagOf tauOf (computeWireCopyCycles W c) ⟨pointTo, pointTo⟩).ids
        ((cellsHolding W c v).getD k ⟨0, 0⟩) =
      if generalized ∧ k = 0 then
        { pointTo ((cellsHolding W c v).getD k ⟨0, 0⟩) with isTag := true, rowIndex := tagOf v }
      else pointTo ((cellsHolding W c v).getD k ⟨0, 0⟩) := by
  rw [← nodeCell_cellsHolding hv, threadCyclesWith_ids_node _ _ _ _
    (nodup_computeWireCopyCycles_cells W c) (mem_threadingNodes_computeWireCopyCycles hv hk)]

theorem threadCyclesWith_sigmas_of_free {x : CycleNode} (free : heldVariable W c x = none) :
    (threadCyclesWith generalized tagOf tauOf (computeWireCopyCycles W c) ⟨pointTo, pointTo⟩).sigmas x =
      pointTo x :=
  threadCyclesWith_sigmas_of_forall_ne _ _ _ _ _ fun _ mem => nodeCell_ne_of_heldVariable_eq_none free mem

theorem threadCyclesWith_ids_of_free {x : CycleNode} (free : heldVariable W c x = none) :
    (threadCyclesWith generalized tagOf tauOf (computeWireCopyCycles W c) ⟨pointTo, pointTo⟩).ids x =
      pointTo x :=
  threadCyclesWith_ids_of_forall_ne _ _ _ _ _ fun _ mem => nodeCell_ne_of_heldVariable_eq_none free mem

theorem threadCyclesWith_sigmas_cases (wf : WellFormed W c) (x : CycleNode) :
    (heldVariable W c x = none ∧
        (threadCyclesWith generalized tagOf tauOf (computeWireCopyCycles W c) ⟨pointTo, pointTo⟩).sigmas x =
          pointTo x) ∨
      ∃ v k, heldVariable W c x = some v ∧ k < (cellsHolding W c v).length ∧
        (cellsHolding W c v).getD k ⟨0, 0⟩ = x ∧
        (threadCyclesWith generalized tagOf tauOf (computeWireCopyCycles W c) ⟨pointTo, pointTo⟩).sigmas x =
          nodeSigma generalized (tauOf v) (cellsHolding W c v) k := by
  cases held : heldVariable W c x with
  | none => exact .inl ⟨rfl, threadCyclesWith_sigmas_of_free W c generalized tagOf tauOf held⟩
  | some v =>
    obtain ⟨k, hk, rfl⟩ := exists_getD_of_mem (mem_cellsHolding.mpr held)
    exact .inr ⟨v, k, rfl, hk, rfl,
      threadCyclesWith_sigmas_cellsHolding W c generalized tagOf tauOf (heldVariable_lt wf held) hk⟩

theorem public_pair_adjacent {k : Nat} (hk : k < c.publicInputs.length) :
    [⟨0, k⟩, ⟨1, k⟩] <:+: cellsHolding W c (c.publicVariable k) := by
  have pair : [(c.publicVariable k, (⟨0, k⟩ : CycleNode)), (c.publicVariable k, ⟨1, k⟩)] <:+:
      copyCycleVisits W c :=
    (List.infix_of_mem_flatten (List.mem_map_of_mem
      (fun i => [(c.publicVariable i, (⟨0, i⟩ : CycleNode)), (c.publicVariable i, ⟨1, i⟩)])
      (List.mem_range.mpr hk))).trans ⟨[], gateVisits W c, rfl⟩
  simpa [cellsHolding] using (pair.filter fun x => decide (x.1 = c.publicVariable k)).map (·.2)

theorem exists_getD_pair {l : List CycleNode} {a b : CycleNode} (adjacent : [a, b] <:+: l) :
    ∃ i, i + 1 < l.length ∧ l.getD i ⟨0, 0⟩ = a ∧ l.getD (i + 1) ⟨0, 0⟩ = b := by
  obtain ⟨s, t, rfl⟩ := adjacent
  rw [List.append_assoc, List.cons_append, List.cons_append, List.nil_append]
  refine ⟨s.length, by simp, ?_, ?_⟩ <;> rw [List.getD_eq_getElem _ _ (by simp),
    List.getElem_append_right (by simp)] <;> simp

end WireCopyCycles

section Untagged

variable (W : Nat) (c : CircuitConstructor)

/-- The mapping `compute_permutation_mapping<W, false>` holds after its cycle loops. -/
def untaggedThreaded : PermutationMapping :=
  threadCyclesWith false (c.realVariableTags.getD · 0) (fun _ => 0) (computeWireCopyCycles W c)
    ⟨pointTo, pointTo⟩

theorem threadedMapping_untagged : threadedMapping W false c = .ok (untaggedThreaded W c) :=
  threadCycles_eq_ok _ _ _ _ _ fun _ _ gen => absurd gen (by decide)

variable {W c}

theorem untagged_step {v : Nat} (hv : v < c.numVariables) :
    ∀ k < (cellsHolding W c v).length, (untaggedThreaded W c).sigmaCell ((cellsHolding W c v).getD k ⟨0, 0⟩) =
      (cellsHolding W c v).getD ((k + 1) % (cellsHolding W c v).length) ⟨0, 0⟩ := by
  intro k hk
  rw [PermutationMapping.sigmaCell, untaggedThreaded, threadCyclesWith_sigmas_cellsHolding _ _ _ _ _ hv hk]
  simp [nodeSigma, nextNodeIndex_eq hk]

theorem untagged_free {x : CycleNode} (free : heldVariable W c x = none) :
    (untaggedThreaded W c).sigmaCell x = x := by
  rw [PermutationMapping.sigmaCell, untaggedThreaded, threadCyclesWith_sigmas_of_free _ _ _ _ _ free,
    pointTo_cell]

variable (wf : WellFormed W c)
include wf

theorem mem_computeWireCopyCycles_getD {v : Nat} {x : CycleNode} :
    x ∈ (computeWireCopyCycles W c).getD v [] ↔ heldVariable W c x = some v := by
  by_cases hv : v < c.numVariables
  · rw [computeWireCopyCycles_getD W c hv, mem_cellsHolding]
  · rw [List.getD_eq_default _ _ (by rw [computeWireCopyCycles_length]; omega)]
    exact ⟨fun mem => (by cases mem), fun held => absurd (heldVariable_lt wf held) hv⟩

theorem heldVariable_untagged (x : CycleNode) :
    heldVariable W c ((untaggedThreaded W c).sigmaCell x) = heldVariable W c x := by
  cases held : heldVariable W c x with
  | none => rw [untagged_free held, held]
  | some v =>
    exact mem_cellsHolding.mp
      (iterate_mem (untagged_step (heldVariable_lt wf held)) (mem_cellsHolding.mpr held) 1)

def untaggedPeriod (W : Nat) (c : CircuitConstructor) (x : CycleNode) : Nat :=
  match heldVariable W c x with
  | some v => (cellsHolding W c v).length
  | none => 1

omit wf in
theorem untaggedPeriod_pos (x : CycleNode) : 0 < untaggedPeriod W c x := by
  unfold untaggedPeriod
  split
  · exact List.length_pos_of_mem (mem_cellsHolding.mpr ‹_›)
  · exact Nat.one_pos

theorem iterate_untaggedPeriod (x : CycleNode) :
    (untaggedThreaded W c).sigmaCell^[untaggedPeriod W c x] x = x := by
  unfold untaggedPeriod
  split
  · exact iterate_length (untagged_step (heldVariable_lt wf ‹_›)) (mem_cellsHolding.mpr ‹_›)
  · exact untagged_free ‹_›

theorem untagged_injective : Function.Injective (untaggedThreaded W c).sigmaCell := by
  intro x y same
  have period : untaggedPeriod W c x = untaggedPeriod W c y := by
    simp only [untaggedPeriod, ← heldVariable_untagged wf x, same, heldVariable_untagged wf y]
  have back : ∀ z, (untaggedThreaded W c).sigmaCell^[untaggedPeriod W c z - 1]
      ((untaggedThreaded W c).sigmaCell z) = z := fun z => by
    rw [← Function.iterate_succ_apply, Nat.succ_eq_add_one,
      Nat.sub_add_cancel (untaggedPeriod_pos z), iterate_untaggedPeriod wf]
  rw [← back x, ← back y, same, period]

variable {n : Nat} (width : 2 ≤ W) (size : c.publicInputs.length + c.numGates ≤ n)
include width size

theorem untagged_mapsTo : Set.MapsTo (untaggedThreaded W c).sigmaCell (cellSet W n) (cellSet W n) := by
  intro x cell
  cases held : heldVariable W c x with
  | none => rwa [untagged_free held]
  | some v => exact heldVariable_mem_cellSet width size ((heldVariable_untagged wf x).trans held)

theorem untagged_bijOn : Set.BijOn (untaggedThreaded W c).sigmaCell (cellSet W n) (cellSet W n) := by
  have mapsTo := untagged_mapsTo wf width size
  refine ⟨mapsTo, (untagged_injective wf).injOn, fun y cell => ?_⟩
  refine ⟨_, mapsTo.iterate (untaggedPeriod W c y - 1) cell, ?_⟩
  rw [← Function.iterate_succ_apply' (untaggedThreaded W c).sigmaCell, Nat.succ_eq_add_one,
    Nat.sub_add_cancel (untaggedPeriod_pos y), iterate_untaggedPeriod wf]

end Untagged

/-- The law the sigma table obeys on the cells of a trace with `W` wires and `n` rows. -/
structure CopyCycleLaw (W n : Nat) (c : CircuitConstructor) (sigma : CycleNode → CycleNode) :
    Prop where
  bijOn : Set.BijOn sigma (cellSet W n) (cellSet W n)
  orbit_eq : ∀ v x, x ∈ (computeWireCopyCycles W c).getD v [] →
    {y | ∃ k, sigma^[k] x = y} = {y | y ∈ (computeWireCopyCycles W c).getD v []}
  gate_mem : ∀ j < W, ∀ i < c.numGates,
    ⟨j, c.publicInputs.length + i⟩ ∈ (computeWireCopyCycles W c).getD (c.gateVariable j i) []
  public_mem : ∀ k < c.publicInputs.length,
    ⟨0, k⟩ ∈ (computeWireCopyCycles W c).getD (c.publicVariable k) [] ∧
      ⟨1, k⟩ ∈ (computeWireCopyCycles W c).getD (c.publicVariable k) []
  same_orbit_iff : ∀ x y v w, heldVariable W c x = some v → heldVariable W c y = some w →
    ((∃ k, sigma^[k] x = y) ↔ v = w)
  returns : ∀ x v N, heldVariable W c x = some v → {y | heldVariable W c y = some v}.ncard = N →
    {y | ∃ k, sigma^[k] x = y}.ncard = N ∧ sigma^[N] x = x ∧ ∀ k, 0 < k → k < N → sigma^[k] x ≠ x
  fixed : ∀ x ∈ cellSet W n, heldVariable W c x = none → sigma x = x
  public_step : ∀ k < c.publicInputs.length, sigma ⟨0, k⟩ = ⟨1, k⟩

section Law

variable {W : Nat} {c : CircuitConstructor} (wf : WellFormed W c)
include wf

theorem untagged_orbit_eq {v : Nat} {x : CycleNode} (mem : x ∈ (computeWireCopyCycles W c).getD v []) :
    {y | ∃ k, (untaggedThreaded W c).sigmaCell^[k] x = y} = {y | y ∈ (computeWireCopyCycles W c).getD v []} := by
  have hv := heldVariable_lt wf ((mem_computeWireCopyCycles_getD wf).mp mem)
  rw [computeWireCopyCycles_getD W c hv] at mem ⊢
  exact Set.ext fun y => exists_iterate_iff (untagged_step hv) mem

theorem untagged_same_orbit_iff {x y : CycleNode} {v w : Nat} (hx : heldVariable W c x = some v)
    (hy : heldVariable W c y = some w) :
    (∃ k, (untaggedThreaded W c).sigmaCell^[k] x = y) ↔ v = w := by
  rw [exists_iterate_iff (untagged_step (heldVariable_lt wf hx)) (mem_cellsHolding.mpr hx),
    mem_cellsHolding, hy, Option.some.injEq, eq_comm]

theorem untagged_returns {x : CycleNode} {v N : Nat} (held : heldVariable W c x = some v)
    (count : {y | heldVariable W c y = some v}.ncard = N) :
    {y | ∃ k, (untaggedThreaded W c).sigmaCell^[k] x = y}.ncard = N ∧
      (untaggedThreaded W c).sigmaCell^[N] x = x ∧
      ∀ k, 0 < k → k < N → (untaggedThreaded W c).sigmaCell^[k] x ≠ x := by
  have step := untagged_step (W := W) (heldVariable_lt wf held)
  have mem := mem_cellsHolding.mpr held
  have cells : {y | heldVariable W c y = some v} = {y | y ∈ cellsHolding W c v} :=
    Set.ext fun y => mem_cellsHolding.symm
  rw [cells, ncard_mem_eq_length (nodup_cellsHolding W c v)] at count
  subst count
  refine ⟨?_, iterate_length step mem, fun k pos lt => iterate_ne_self step (nodup_cellsHolding W c v) mem pos lt⟩
  rw [show {y | ∃ k, (untaggedThreaded W c).sigmaCell^[k] x = y} = {y | y ∈ cellsHolding W c v} from
    Set.ext fun y => exists_iterate_iff step mem, ncard_mem_eq_length (nodup_cellsHolding W c v)]

theorem untagged_public_step {k : Nat} (hk : k < c.publicInputs.length) :
    (untaggedThreaded W c).sigmaCell ⟨0, k⟩ = ⟨1, k⟩ := by
  have hv : c.publicVariable k < c.numVariables :=
    heldVariable_lt wf (x := ⟨0, k⟩) (by simp [heldVariable, hk])
  obtain ⟨i, hi, left, right⟩ := exists_getD_pair (public_pair_adjacent W c hk)
  rw [← left, untagged_step hv i (by omega), Nat.mod_eq_of_lt hi, right]

theorem apply_untagged_of_constant {γ : Type} {w : CycleNode → γ}
    (constant : ∀ v, ∀ a ∈ (computeWireCopyCycles W c).getD v [],
      ∀ b ∈ (computeWireCopyCycles W c).getD v [], w a = w b) (x : CycleNode) :
    w ((untaggedThreaded W c).sigmaCell x) = w x := by
  cases held : heldVariable W c x with
  | none => rw [untagged_free held]
  | some v =>
    exact constant v _ ((mem_computeWireCopyCycles_getD wf).mpr ((heldVariable_untagged wf x).trans held)) x
      ((mem_computeWireCopyCycles_getD wf).mpr held)

end Law

/-- The sigma table of `compute_permutation_mapping<W, false>` before its public-input loop
obeys the copy-cycle law on every well-formed circuit. -/
theorem threadedMapping_copyCycleLaw (W n : Nat) (c : CircuitConstructor) (width : W = 3 ∨ W = 4)
    (wf : WellFormed W c) (size : c.publicInputs.length + c.numGates ≤ n) :
    ∃ mapping, threadedMapping W false c = .ok mapping ∧ CopyCycleLaw W n c mapping.sigmaCell := by
  have two : 2 ≤ W := by omega
  refine ⟨untaggedThreaded W c, threadedMapping_untagged W c, ?_⟩
  exact
    { bijOn := untagged_bijOn wf two size
      orbit_eq := fun _ _ => untagged_orbit_eq wf
      gate_mem := fun j hj i hi => (mem_computeWireCopyCycles_getD wf).mpr (by simp [heldVariable, hj, hi])
      public_mem := fun k hk =>
        ⟨(mem_computeWireCopyCycles_getD wf).mpr (by simp [heldVariable, hk]),
          (mem_computeWireCopyCycles_getD wf).mpr (by simp [heldVariable, hk])⟩
      same_orbit_iff := fun _ _ _ _ => untagged_same_orbit_iff wf
      returns := fun _ _ _ => untagged_returns wf
      fixed := fun _ _ => untagged_free
      public_step := fun _ => untagged_public_step wf }

def aliasedCircuit : CircuitConstructor where
  numGates := 2
  publicInputs := [1]
  wL := [1, 0]
  wR := [2, 1]
  wO := [0, 2]
  w4 := []
  numVariables := 3
  realVariableIndex := [0, 1, 1]
  realVariableTags := [0, 1, 0]
  tau := fun tag => if tag ≤ 1 then some tag else none

theorem aliasedCircuit_wellFormed : WellFormed 3 aliasedCircuit :=
  ⟨by decide, by decide, by decide, by decide⟩

theorem threadedMapping_copyCycleLaw_aliased :
    ((3 = 3 ∨ 3 = 4) ∧ WellFormed 3 aliasedCircuit ∧
      aliasedCircuit.publicInputs.length + aliasedCircuit.numGates ≤ 4) ∧
    ∃ mapping, threadedMapping 3 false aliasedCircuit = .ok mapping ∧
      CopyCycleLaw 3 4 aliasedCircuit mapping.sigmaCell :=
  ⟨⟨.inl rfl, aliasedCircuit_wellFormed, by decide⟩,
    threadedMapping_copyCycleLaw 3 4 aliasedCircuit (.inl rfl) aliasedCircuit_wellFormed (by decide)⟩

end Aztec3Circuits.Permutation

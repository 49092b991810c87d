import Mathlib

/-! Copy cycles of a circuit as `compute_wire_copy_cycles` builds them. The two loops of the
source visit every cell that holds a variable exactly once: the left and right cells of each
public-input row first, then every wire of every gate row. A cycle is the list of the cells
that hold its real variable, in that visiting order. -/
namespace Aztec3Circuits.Permutation

/-- `cycle_node`: one cell of the trace, a wire (column) and a gate (row). -/
structure CycleNode where
  wireIndex : Nat
  gateIndex : Nat
deriving DecidableEq, Repr

/-- The members of a circuit constructor that the permutation helpers read. Indices are
`uint32_t` in the source; every bound the theorems need keeps them below `2^32`. -/
structure CircuitConstructor where
  numGates : Nat
  publicInputs : List Nat
  wL : List Nat
  wR : List Nat
  wO : List Nat
  w4 : List Nat
  /-- `variables.size()`: the values themselves are not read by the permutation helpers. -/
  numVariables : Nat
  realVariableIndex : List Nat
  realVariableTags : List Nat
  /-- Lookup in the `std::map` `tau`, from a tag to the tag its cycle is sent to. -/
  tau : Nat → Option Nat

namespace CircuitConstructor

variable (c : CircuitConstructor)

/-- `wire_indices[j]`: `w_l`, `w_r`, `w_o`, and `w_4` for a width above 3. -/
def wireIndices : Nat → List Nat
  | 0 => c.wL
  | 1 => c.wR
  | 2 => c.wO
  | _ => c.w4

/-- `real_variable_index[index]`. -/
def realVariable (index : Nat) : Nat := c.realVariableIndex.getD index 0

def publicVariable (i : Nat) : Nat := c.realVariable (c.publicInputs.getD i 0)

def gateVariable (j i : Nat) : Nat := c.realVariable ((c.wireIndices j).getD i 0)

end CircuitConstructor

open CircuitConstructor

/-- The first loop: public input `i` seeds its cycle with `(0, i)` and then `(1, i)`. -/
def publicInputVisits (c : CircuitConstructor) : List (Nat × CycleNode) :=
  (List.range c.publicInputs.length).flatMap fun i =>
    [(c.publicVariable i, ⟨0, i⟩), (c.publicVariable i, ⟨1, i⟩)]

def gateVisits (W : Nat) (c : CircuitConstructor) : List (Nat × CycleNode) :=
  (List.range c.numGates).flatMap fun i =>
    (List.range W).map fun j => (c.gateVariable j i, ⟨j, i + c.publicInputs.length⟩)

/-- Every `(var_index, node)` pair that the two loops emplace, in loop order. -/
def copyCycleVisits (W : Nat) (c : CircuitConstructor) : List (Nat × CycleNode) :=
  publicInputVisits c ++ gateVisits W c

/-- `copy_cycles[var_index].emplace_back(node)`. -/
def emplaceBack (cycles : List (List CycleNode)) (visit : Nat × CycleNode) :
    List (List CycleNode) :=
  cycles.modify (· ++ [visit.2]) visit.1

/-- `compute_wire_copy_cycles<W>`: one cycle per entry of `variables`. -/
def computeWireCopyCycles (W : Nat) (c : CircuitConstructor) : List (List CycleNode) :=
  (copyCycleVisits W c).foldl emplaceBack (List.replicate c.numVariables [])

def heldVariable (W : Nat) (c : CircuitConstructor) (x : CycleNode) : Option Nat :=
  if x.gateIndex < c.publicInputs.length then
    if x.wireIndex < 2 then some (c.publicVariable x.gateIndex) else none
  else if x.gateIndex < c.publicInputs.length + c.numGates ∧ x.wireIndex < W then
    some (c.gateVariable x.wireIndex (x.gateIndex - c.publicInputs.length))
  else none

def cellSet (W n : Nat) : Set CycleNode := {x | x.wireIndex < W ∧ x.gateIndex < n}

/-- What the circuit constructor guarantees of the members read here: every wire holds at
least `num_gates` variable indices, every variable index is an index of
`real_variable_index`, and every real variable is an index of `variables`. -/
structure WellFormed (W : Nat) (c : CircuitConstructor) : Prop where
  wire_length : ∀ j < W, c.numGates ≤ (c.wireIndices j).length
  wire_lt : ∀ j < W, ∀ x ∈ c.wireIndices j, x < c.realVariableIndex.length
  public_lt : ∀ x ∈ c.publicInputs, x < c.realVariableIndex.length
  real_lt : ∀ x ∈ c.realVariableIndex, x < c.numVariables

def cellsHolding (W : Nat) (c : CircuitConstructor) (v : Nat) : List CycleNode :=
  ((copyCycleVisits W c).filter (·.1 = v)).map (·.2)

theorem getD_modify {α : Type} (l : List α) (f : α → α) (n v : Nat) (d : α)
    (hv : v < l.length) :
    (l.modify f n).getD v d = if n = v then f (l.getD v d) else l.getD v d := by
  rw [List.getD_eq_getElem _ _ (by simpa using hv), List.getElem_modify,
    List.getD_eq_getElem _ _ hv]

theorem length_foldl_emplaceBack (visits : List (Nat × CycleNode)) (cycles : List (List CycleNode)) :
    (visits.foldl emplaceBack cycles).length = cycles.length := by
  induction visits generalizing cycles with
  | nil => rfl
  | cons visit rest ih => simp [ih, emplaceBack]

theorem getD_foldl_emplaceBack (visits : List (Nat × CycleNode)) (cycles : List (List CycleNode))
    (v : Nat) (hv : v < cycles.length) :
    (visits.foldl emplaceBack cycles).getD v [] =
      cycles.getD v [] ++ (visits.filter (·.1 = v)).map (·.2) := by
  induction visits generalizing cycles with
  | nil => simp
  | cons visit rest ih =>
    have length : v < (emplaceBack cycles visit).length := by simpa [emplaceBack] using hv
    rw [List.foldl_cons, ih _ length, emplaceBack, getD_modify _ _ _ _ _ hv]
    by_cases same : visit.1 = v <;> simp [same]

theorem computeWireCopyCycles_length (W : Nat) (c : CircuitConstructor) :
    (computeWireCopyCycles W c).length = c.numVariables := by
  simp [computeWireCopyCycles, length_foldl_emplaceBack]

theorem computeWireCopyCycles_getD (W : Nat) (c : CircuitConstructor) {v : Nat}
    (hv : v < c.numVariables) :
    (computeWireCopyCycles W c).getD v [] = cellsHolding W c v := by
  rw [computeWireCopyCycles, getD_foldl_emplaceBack _ _ _ (by simpa using hv)]
  simp [cellsHolding, hv]

theorem mem_copyCycleVisits {W : Nat} {c : CircuitConstructor} {v : Nat} {x : CycleNode} :
    (v, x) ∈ copyCycleVisits W c ↔ heldVariable W c x = some v := by
  obtain ⟨j, r⟩ := x
  simp only [copyCycleVisits, publicInputVisits, gateVisits, heldVariable, List.mem_append,
    List.mem_flatMap, List.mem_range, List.mem_cons, List.mem_map, Prod.mk.injEq,
    CycleNode.mk.injEq, List.not_mem_nil, or_false]
  constructor
  · rintro (⟨i, hi, ⟨rfl, rfl, rfl⟩ | ⟨rfl, rfl, rfl⟩⟩ | ⟨i, hi, j, hj, rfl, rfl, rfl⟩)
    · simp [hi]
    · simp [hi]
    · simp [hj, show i + c.publicInputs.length < c.publicInputs.length + c.numGates by omega]
  · intro held
    split_ifs at held with public left gate
    · cases held
      obtain h | h : j = 0 ∨ j = 1 := by omega
      all_goals subst h; simp [public]
    · cases held
      exact .inr ⟨r - c.publicInputs.length, by omega, j, gate.2, rfl, rfl, by omega⟩

theorem mem_cellsHolding {W : Nat} {c : CircuitConstructor} {v : Nat} {x : CycleNode} :
    x ∈ cellsHolding W c v ↔ heldVariable W c x = some v := by
  rw [← mem_copyCycleVisits]
  simp only [cellsHolding, List.mem_map, List.mem_filter, decide_eq_true_eq]
  constructor
  · rintro ⟨⟨v', x'⟩, ⟨mem, rfl⟩, rfl⟩
    exact mem
  · intro mem
    exact ⟨(v, x), ⟨mem, rfl⟩, rfl⟩

theorem nodup_copyCycleVisits_cells (W : Nat) (c : CircuitConstructor) :
    ((copyCycleVisits W c).map (·.2)).Nodup := by
  simp only [copyCycleVisits, publicInputVisits, gateVisits, List.map_append, List.map_flatMap,
    List.map_cons, List.map_nil, List.map_map]
  refine List.Nodup.append ?_ ?_ ?_
  · refine List.nodup_flatMap.mpr ⟨fun i _ => by simp, ?_⟩
    refine (List.nodup_range _).pairwise_of_forall_ne fun a _ b _ ne => ?_
    simp [Function.onFun, List.disjoint_cons_left, ne, Ne.symm ne]
  · refine List.nodup_flatMap.mpr ⟨fun i _ => ?_, ?_⟩
    · exact (List.nodup_range W).map fun a b h => by simpa using h
    · refine (List.nodup_range _).pairwise_of_forall_ne fun a _ b _ ne => ?_
      simp only [Function.onFun, List.disjoint_iff_ne, List.mem_map, Function.comp_apply]
      rintro _ ⟨j, _, rfl⟩ _ ⟨k, _, rfl⟩ h
      simp only [CycleNode.mk.injEq] at h
      omega
  · simp only [List.disjoint_iff_ne, List.mem_flatMap, List.mem_range, List.mem_map,
      List.mem_cons, List.not_mem_nil, or_false, Function.comp_apply]
    rintro _ ⟨i, hi, rfl | rfl⟩ _ ⟨k, _, j, _, rfl⟩ h <;>
      simp only [CycleNode.mk.injEq] at h <;> omega

theorem nodup_cellsHolding (W : Nat) (c : CircuitConstructor) (v : Nat) :
    (cellsHolding W c v).Nodup :=
  (nodup_copyCycleVisits_cells W c).sublist ((List.filter_sublist _).map _)

theorem heldVariable_mem_cellSet {W n : Nat} {c : CircuitConstructor} {x : CycleNode} {v : Nat}
    (width : 2 ≤ W) (size : c.publicInputs.length + c.numGates ≤ n)
    (held : heldVariable W c x = some v) : x ∈ cellSet W n := by
  simp only [heldVariable] at held
  split_ifs at held with public left gate
  · exact ⟨by omega, by omega⟩
  · exact ⟨gate.2, by omega⟩

theorem getD_mem {α : Type} {l : List α} {i : Nat} (d : α) (lt : i < l.length) : l.getD i d ∈ l := by
  rw [List.getD_eq_getElem _ _ lt]
  exact List.getElem_mem _

theorem realVariable_lt {W : Nat} {c : CircuitConstructor} (wf : WellFormed W c) {index : Nat}
    (lt : index < c.realVariableIndex.length) : c.realVariable index < c.numVariables :=
  wf.real_lt _ (getD_mem _ lt)

theorem heldVariable_lt {W : Nat} {c : CircuitConstructor} (wf : WellFormed W c) {x : CycleNode}
    {v : Nat} (held : heldVariable W c x = some v) : v < c.numVariables := by
  simp only [heldVariable] at held
  split_ifs at held with public left gate <;> cases held
  · exact realVariable_lt wf (wf.public_lt _ (getD_mem _ public))
  · have lt : x.gateIndex - c.publicInputs.length < (c.wireIndices x.wireIndex).length := by
      have := wf.wire_length _ gate.2
      omega
    exact realVariable_lt wf (wf.wire_lt _ gate.2 _ (getD_mem _ lt))

end Aztec3Circuits.Permutation

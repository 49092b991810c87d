import Aztec3Circuits.Folds
import Aztec3Circuits.Permutation.CopyCycles

/-! `compute_permutation_mapping`: every cell starts pointing at itself, then each node of each
copy cycle is pointed at the next node of its cycle. The generalized variant turns the first
node's id and the last node's sigma into tag entries, looking the second tag up in `tau`; that
lookup is the only step that can throw. Last, the left cell of every public-input row is
marked as a public input. -/
namespace Aztec3Circuits.Permutation

/-- `permutation_subgroup_element`. -/
structure PermutationSubgroupElement where
  rowIndex : Nat
  columnIndex : Nat
  isPublicInput : Bool
  isTag : Bool
deriving DecidableEq, Repr

/-- `PermutationMapping<W>`: the sigma and id tables as functions of the cell. The source
holds `W` vectors of `circuit_size` entries and reads them only at cells of that range; it
fills `ids` only for the generalized mapping, and the other callers read only `sigmas`. -/
structure PermutationMapping where
  sigmas : CycleNode → PermutationSubgroupElement
  ids : CycleNode → PermutationSubgroupElement

def pointTo (x : CycleNode) : PermutationSubgroupElement := ⟨x.gateIndex, x.wireIndex, false, false⟩

def nextNodeIndex (cycle : List CycleNode) (nodeIdx : Nat) : Nat :=
  if nodeIdx = cycle.length - 1 then 0 else nodeIdx + 1

def nodeSigma (generalized : Bool) (tauTag : Nat) (cycle : List CycleNode) (nodeIdx : Nat) :
    PermutationSubgroupElement :=
  let next := cycle.getD (nextNodeIndex cycle nodeIdx) ⟨0, 0⟩
  if generalized ∧ nextNodeIndex cycle nodeIdx = 0 then
    { pointTo next with isTag := true, rowIndex := tauTag }
  else pointTo next

def threadNodeWith (generalized : Bool) (tag tauTag : Nat) (cycle : List CycleNode)
    (mapping : PermutationMapping) (nodeIdx : Nat) : PermutationMapping :=
  let current := cycle.getD nodeIdx ⟨0, 0⟩
  { sigmas := Function.update mapping.sigmas current (nodeSigma generalized tauTag cycle nodeIdx)
    ids := if generalized ∧ nodeIdx = 0 then
        Function.update mapping.ids current
          { mapping.ids current with isTag := true, rowIndex := tag }
      else mapping.ids }

def threadNode (generalized : Bool) (c : CircuitConstructor) (cycleIndex : Nat)
    (cycle : List CycleNode) (mapping : PermutationMapping) (nodeIdx : Nat) :
    Except String PermutationMapping :=
  let tag := c.realVariableTags.getD cycleIndex 0
  if generalized ∧ nextNodeIndex cycle nodeIdx = 0 then
    match c.tau tag with
    | some tauTag => .ok (threadNodeWith generalized tag tauTag cycle mapping nodeIdx)
    | none => .error "map::at"
  else .ok (threadNodeWith generalized tag 0 cycle mapping nodeIdx)

def threadCycles (generalized : Bool) (c : CircuitConstructor) (cycles : List (List CycleNode))
    (mapping : PermutationMapping) : Except String PermutationMapping :=
  (List.range cycles.length).foldlM
    (fun mapping cycleIndex =>
      (List.range (cycles.getD cycleIndex []).length).foldlM
        (threadNode generalized c cycleIndex (cycles.getD cycleIndex [])) mapping)
    mapping

def bothTagAndPublicInput : String := "MAPPING IS BOTH A TAG AND A PUBLIC INPUT"

def patchPublicInput (state : (CycleNode → PermutationSubgroupElement) × List String) (i : Nat) :
    (CycleNode → PermutationSubgroupElement) × List String :=
  let entry := { state.1 ⟨0, i⟩ with rowIndex := i, columnIndex := 0, isPublicInput := true }
  (Function.update state.1 ⟨0, i⟩ entry,
    if entry.isTag then state.2 ++ [bothTagAndPublicInput] else state.2)

/-- The mapping of `compute_permutation_mapping` when its cycle loops end, before the
public-input loop. -/
def threadedMapping (W : Nat) (generalized : Bool) (c : CircuitConstructor) :
    Except String PermutationMapping :=
  threadCycles generalized c (computeWireCopyCycles W c) ⟨pointTo, pointTo⟩

/-- `compute_permutation_mapping<W, generalized>`, paired with its `std::cerr` output. -/
def computePermutationMapping (W : Nat) (generalized : Bool) (c : CircuitConstructor) :
    Except String (PermutationMapping × List String) := do
  let mapping ← threadedMapping W generalized c
  let (sigmas, log) := (List.range c.publicInputs.length).foldl patchPublicInput (mapping.sigmas, [])
  pure ({ mapping with sigmas := sigmas }, log)

/-- The `(cycle_index, node_idx)` pairs of the two loops, in loop order. -/
def threadingNodes (cycles : List (List CycleNode)) : List (Nat × Nat) :=
  (List.range cycles.length).flatMap fun v => (List.range (cycles.getD v []).length).map (v, ·)

def nodeCell (cycles : List (List CycleNode)) (p : Nat × Nat) : CycleNode :=
  (cycles.getD p.1 []).getD p.2 ⟨0, 0⟩

def threadCyclesWith (generalized : Bool) (tagOf tauOf : Nat → Nat)
    (cycles : List (List CycleNode)) (mapping : PermutationMapping) : PermutationMapping :=
  (threadingNodes cycles).foldl
    (fun mapping p => threadNodeWith generalized (tagOf p.1) (tauOf p.1) (cycles.getD p.1 []) mapping p.2)
    mapping

theorem foldlM_flatMap {m : Type → Type} [Monad m] [LawfulMonad m] {β α γ : Type}
    (f : β → α → m β) (g : γ → List α) (l : List γ) (b : β) :
    (l.flatMap g).foldlM f b = l.foldlM (fun b x => (g x).foldlM f b) b := by
  induction l generalizing b with
  | nil => rfl
  | cons x rest ih => simp [List.flatMap_cons, List.foldlM_append, ih]

theorem foldlM_ok_of_forall {ε β α : Type} (f : β → α → Except ε β) (g : β → α → β)
    (l : List α) (ok : ∀ b, ∀ a ∈ l, f b a = .ok (g b a)) (b : β) :
    l.foldlM f b = .ok (l.foldl g b) := by
  induction l generalizing b with
  | nil => rfl
  | cons a rest ih =>
    rw [List.foldlM_cons, ok b a (List.mem_cons_self _ _), List.foldl_cons]
    exact ih (fun b a' mem => ok b a' (List.mem_cons_of_mem _ mem)) _

theorem threadNodeWith_tauTag (generalized : Bool) (tag t t' : Nat) (cycle : List CycleNode)
    (mapping : PermutationMapping) (nodeIdx : Nat)
    (notLast : ¬(generalized = true ∧ nextNodeIndex cycle nodeIdx = 0)) :
    threadNodeWith generalized tag t cycle mapping nodeIdx =
      threadNodeWith generalized tag t' cycle mapping nodeIdx := by
  simp only [threadNodeWith, nodeSigma, notLast, if_false]

theorem threadCycles_eq_ok (generalized : Bool) (c : CircuitConstructor)
    (cycles : List (List CycleNode)) (mapping : PermutationMapping) (tauOf : Nat → Nat)
    (keys : ∀ v < cycles.length, generalized = true → cycles.getD v [] ≠ [] →
      c.tau (c.realVariableTags.getD v 0) = some (tauOf v)) :
    threadCycles generalized c cycles mapping =
      .ok (threadCyclesWith generalized (c.realVariableTags.getD · 0) tauOf cycles mapping) := by
  have flat : threadCycles generalized c cycles mapping =
      (threadingNodes cycles).foldlM
        (fun mapping p => threadNode generalized c p.1 (cycles.getD p.1 []) mapping p.2) mapping := by
    rw [threadingNodes, foldlM_flatMap]
    simp only [List.foldlM_map]
    rfl
  rw [flat, threadCyclesWith, foldlM_ok_of_forall]
  rintro b ⟨v, k⟩ mem
  simp only [threadingNodes, List.mem_flatMap, List.mem_range, List.mem_map, Prod.mk.injEq] at mem
  obtain ⟨v, hv, k, hk, rfl, rfl⟩ := mem
  simp only [threadNode]
  split_ifs with last
  · rw [keys v hv last.1 (List.ne_nil_of_length_pos (by omega))]
  · rw [threadNodeWith_tauTag _ _ _ _ _ _ _ last]

section Node

variable (generalized : Bool) (tag tauTag : Nat) (cycle : List CycleNode)
  (mapping : PermutationMapping) (nodeIdx : Nat)

theorem threadNodeWith_sigmas_of_ne {x : CycleNode} (ne : x ≠ cycle.getD nodeIdx ⟨0, 0⟩) :
    (threadNodeWith generalized tag tauTag cycle mapping nodeIdx).sigmas x = mapping.sigmas x :=
  Function.update_noteq ne _ _

theorem threadNodeWith_ids_of_ne {x : CycleNode} (ne : x ≠ cycle.getD nodeIdx ⟨0, 0⟩) :
    (threadNodeWith generalized tag tauTag cycle mapping nodeIdx).ids x = mapping.ids x := by
  simp only [threadNodeWith]
  split_ifs
  · exact Function.update_noteq ne _ _
  · rfl

theorem threadNodeWith_sigmas_self :
    (threadNodeWith generalized tag tauTag cycle mapping nodeIdx).sigmas (cycle.getD nodeIdx ⟨0, 0⟩) =
      nodeSigma generalized tauTag cycle nodeIdx :=
  Function.update_same _ _ _

theorem threadNodeWith_ids_self :
    (threadNodeWith generalized tag tauTag cycle mapping nodeIdx).ids (cycle.getD nodeIdx ⟨0, 0⟩) =
      if generalized ∧ nodeIdx = 0 then
        { mapping.ids (cycle.getD nodeIdx ⟨0, 0⟩) with isTag := true, rowIndex := tag }
      else mapping.ids (cycle.getD nodeIdx ⟨0, 0⟩) := by
  simp only [threadNodeWith]
  split_ifs
  · exact Function.update_same _ _ _
  · rfl

end Node

theorem mem_threadingNodes {cycles : List (List CycleNode)} {p : Nat × Nat} :
    p ∈ threadingNodes cycles ↔ p.1 < cycles.length ∧ p.2 < (cycles.getD p.1 []).length := by
  obtain ⟨v, k⟩ := p
  simp only [threadingNodes, List.mem_flatMap, List.mem_range, List.mem_map, Prod.mk.injEq]
  constructor
  · rintro ⟨v, hv, k, hk, rfl, rfl⟩
    exact ⟨hv, hk⟩
  · rintro ⟨hv, hk⟩
    exact ⟨v, hv, k, hk, rfl, rfl⟩

theorem map_getD_range {γ : Type} (l : List γ) (d : γ) :
    (List.range l.length).map (l.getD · d) = l :=
  List.ext_getElem (by simp) fun i h _ => by
    simp only [List.getElem_map, List.getElem_range]
    exact List.getD_eq_getElem _ _ _

theorem map_nodeCell_threadingNodes (cycles : List (List CycleNode)) :
    (threadingNodes cycles).map (nodeCell cycles) =
      (List.range cycles.length).flatMap (cycles.getD · []) := by
  simp only [threadingNodes, List.map_flatMap, List.map_map]
  congr 1
  funext v
  exact map_getD_range (cycles.getD v []) ⟨0, 0⟩

section Threaded

variable (generalized : Bool) (tagOf tauOf : Nat → Nat) (cycles : List (List CycleNode))
  (mapping : PermutationMapping)

theorem threadCyclesWith_sigmas_of_forall_ne {x : CycleNode}
    (away : ∀ p ∈ threadingNodes cycles, nodeCell cycles p ≠ x) :
    (threadCyclesWith generalized tagOf tauOf cycles mapping).sigmas x = mapping.sigmas x :=
  foldl_sel_of_forall_ne _ PermutationMapping.sigmas (nodeCell cycles)
    (fun _ _ _ ne => threadNodeWith_sigmas_of_ne _ _ _ _ _ _ ne) _ _ _ away

theorem threadCyclesWith_ids_of_forall_ne {x : CycleNode}
    (away : ∀ p ∈ threadingNodes cycles, nodeCell cycles p ≠ x) :
    (threadCyclesWith generalized tagOf tauOf cycles mapping).ids x = mapping.ids x :=
  foldl_sel_of_forall_ne _ PermutationMapping.ids (nodeCell cycles)
    (fun _ _ _ ne => threadNodeWith_ids_of_ne _ _ _ _ _ _ ne) _ _ _ away

variable {cycles} (nodup : ((threadingNodes cycles).map (nodeCell cycles)).Nodup)
  {p : Nat × Nat} (mem : p ∈ threadingNodes cycles)
include nodup mem

theorem threadCyclesWith_sigmas_node :
    (threadCyclesWith generalized tagOf tauOf cycles mapping).sigmas (nodeCell cycles p) =
      nodeSigma generalized (tauOf p.1) (cycles.getD p.1 []) p.2 :=
  foldl_sel_pos _ PermutationMapping.sigmas (nodeCell cycles)
    (fun p _ => nodeSigma generalized (tauOf p.1) (cycles.getD p.1 []) p.2)
    (fun _ _ _ ne => threadNodeWith_sigmas_of_ne _ _ _ _ _ _ ne)
    (fun _ _ => threadNodeWith_sigmas_self _ _ _ _ _ _) _ _ _ nodup mem

theorem threadCyclesWith_ids_node :
    (threadCyclesWith generalized tagOf tauOf cycles mapping).ids (nodeCell cycles p) =
      if generalized ∧ p.2 = 0 then
        { mapping.ids (nodeCell cycles p) with isTag := true, rowIndex := tagOf p.1 }
      else mapping.ids (nodeCell cycles p) :=
  foldl_sel_pos _ PermutationMapping.ids (nodeCell cycles)
    (fun p e => if generalized ∧ p.2 = 0 then { e with isTag := true, rowIndex := tagOf p.1 } else e)
    (fun _ _ _ ne => threadNodeWith_ids_of_ne _ _ _ _ _ _ ne)
    (fun _ _ => threadNodeWith_ids_self _ _ _ _ _ _) _ _ _ nodup mem

end Threaded

theorem foldl_patchPublicInput_sigmas (m : Nat) (sigmas : CycleNode → PermutationSubgroupElement)
    (log : List String) (x : CycleNode) :
    ((List.range m).foldl patchPublicInput (sigmas, log)).1 x =
      if x.wireIndex = 0 ∧ x.gateIndex < m then
        { sigmas x with rowIndex := x.gateIndex, columnIndex := 0, isPublicInput := true }
      else sigmas x := by
  have frame : ∀ (state : (CycleNode → PermutationSubgroupElement) × List String) i y,
      y ≠ (⟨0, i⟩ : CycleNode) → (patchPublicInput state i).1 y = state.1 y :=
    fun _ _ _ ne => Function.update_noteq ne _ _
  split_ifs with public
  · obtain ⟨j, k⟩ := x
    obtain ⟨rfl, hk⟩ := public
    exact foldl_sel_pos patchPublicInput (·.1) (fun i => ⟨0, i⟩)
      (fun i e => { e with rowIndex := i, columnIndex := 0, isPublicInput := true }) frame
      (fun _ _ => Function.update_same _ _ _) _ _ k
      ((List.nodup_range m).map fun _ _ same => by simpa using same) (List.mem_range.mpr hk)
  · refine foldl_sel_of_forall_ne patchPublicInput (·.1) (fun i => ⟨0, i⟩) frame _ _ _ ?_
    rintro i mem rfl
    exact public ⟨rfl, List.mem_range.mp mem⟩

theorem computePermutationMapping_of_threaded {W : Nat} {generalized : Bool} {c : CircuitConstructor}
    {mapping : PermutationMapping} (threaded : threadedMapping W generalized c = .ok mapping) :
    computePermutationMapping W generalized c =
      .ok ({ mapping with
        sigmas := ((List.range c.publicInputs.length).foldl patchPublicInput (mapping.sigmas, [])).1 },
        ((List.range c.publicInputs.length).foldl patchPublicInput (mapping.sigmas, [])).2) := by
  simp only [computePermutationMapping, threaded]
  rfl

end Aztec3Circuits.Permutation

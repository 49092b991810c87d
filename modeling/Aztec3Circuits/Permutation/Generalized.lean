import Aztec3Circuits.Permutation.Honk

/-! The generalized mapping `compute_permutation_mapping<W, true>` of the Ultra proving key.
Besides pointing every node at the next one, it turns the id of each cycle's first node into
the tag entry of the cycle's tag, and the sigma of its last node into the tag entry of `tau` of
that tag. Read through `tau`, the two tag entries of a cycle match, so the sigma and id entries
balance for every witness constant on the copy cycles. The left cell of a public-input row is
never the last node of its cycle, so the public-input loop never meets a tag and writes nothing
to `std::cerr`. -/
namespace Aztec3Circuits.Permutation

def tauHat (tau : Nat → Option Nat) (e : PermutationSubgroupElement) : PermutationSubgroupElement :=
  if e.isTag then { e with rowIndex := (tau e.rowIndex).getD 0 } else e

/-- An entry with the public inputs put back: the public-input entry of row `k` becomes the
entry pointing at the right cell `(1, k)` of its row. -/
def publicHat (e : PermutationSubgroupElement) : PermutationSubgroupElement :=
  if e.isPublicInput then pointTo ⟨1, e.rowIndex⟩ else e

theorem patchPublicInput_isTag (state : (CycleNode → PermutationSubgroupElement) × List String)
    (i : Nat) (x : CycleNode) : ((patchPublicInput state i).1 x).isTag = (state.1 x).isTag := by
  simp only [patchPublicInput, Function.update_apply]
  split_ifs with same
  · rw [same]
  · rfl

theorem foldl_patchPublicInput_log (indices : List Nat)
    (state : (CycleNode → PermutationSubgroupElement) × List String) :
    (indices.foldl patchPublicInput state).2 =
      state.2 ++ (indices.filter fun i => (state.1 ⟨0, i⟩).isTag).map fun _ => bothTagAndPublicInput := by
  induction indices generalizing state with
  | nil => simp
  | cons i rest ih =>
    rw [List.foldl_cons, ih]
    simp only [patchPublicInput_isTag]
    cases tagged : (state.1 ⟨0, i⟩).isTag <;> simp [patchPublicInput, List.filter_cons, tagged]

section Generalized

variable (W : Nat) (c : CircuitConstructor)

def tauOfTag (v : Nat) : Nat := (c.tau (c.realVariableTags.getD v 0)).getD 0

/-- The mapping `compute_permutation_mapping<W, true>` holds after its cycle loops when no
`tau.at` throws. -/
def generalizedThreaded : PermutationMapping :=
  threadCyclesWith true (c.realVariableTags.getD · 0) (tauOfTag c) (computeWireCopyCycles W c)
    ⟨pointTo, pointTo⟩

variable {W c} (wf : WellFormed W c)
include wf

theorem threadedMapping_generalized
    (keys : ∀ x v, heldVariable W c x = some v → (c.tau (c.realVariableTags.getD v 0)).isSome) :
    threadedMapping W true c = .ok (generalizedThreaded W c) :=
  threadCycles_eq_ok _ _ _ _ _ fun v _ _ nonempty => by
    obtain ⟨x, mem⟩ := List.exists_mem_of_ne_nil _ nonempty
    obtain ⟨t, key⟩ := Option.isSome_iff_exists.mp (keys x v ((mem_computeWireCopyCycles_getD wf).mp mem))
    rw [tauOfTag, key]
    rfl

theorem generalized_sigmas_public {k : Nat} (hk : k < c.publicInputs.length) :
    (generalizedThreaded W c).sigmas ⟨0, k⟩ = pointTo ⟨1, k⟩ := by
  have hv : c.publicVariable k < c.numVariables :=
    heldVariable_lt wf (x := ⟨0, k⟩) (by simp [heldVariable, hk])
  obtain ⟨i, hi, left, right⟩ := exists_getD_pair (public_pair_adjacent W c hk)
  rw [← left, generalizedThreaded, threadCyclesWith_sigmas_cellsHolding W c _ _ _ hv (by omega), nodeSigma,
    nextNodeIndex_eq (by omega), Nat.mod_eq_of_lt hi, right]
  simp

theorem generalized_sigmas_isPublicInput (x : CycleNode) :
    ((generalizedThreaded W c).sigmas x).isPublicInput = false := by
  rcases threadCyclesWith_sigmas_cases W c true _ (tauOfTag c) wf x with ⟨-, entry⟩ | ⟨v, k, -, -, -, entry⟩
  · rw [generalizedThreaded, entry]
    rfl
  · rw [generalizedThreaded, entry, nodeSigma]
    split_ifs <;> rfl

theorem generalized_sigmas_eq_tauHat (x : CycleNode) :
    (generalizedThreaded W c).sigmas x =
      tauHat c.tau ((generalizedThreaded W c).ids ((untaggedThreaded W c).sigmaCell x)) := by
  rcases threadCyclesWith_sigmas_cases W c true _ (tauOfTag c) wf x with
    ⟨free, entry⟩ | ⟨v, k, held, hk, rfl, entry⟩
  · rw [generalizedThreaded, entry, untagged_free free, threadCyclesWith_ids_of_free W c _ _ _ free]
    rfl
  · have hv := heldVariable_lt wf held
    have next : (k + 1) % (cellsHolding W c v).length < (cellsHolding W c v).length := Nat.mod_lt _ (by omega)
    rw [generalizedThreaded, entry, untagged_step hv k hk,
      threadCyclesWith_ids_cellsHolding W c _ _ _ hv next, nodeSigma, nextNodeIndex_eq hk]
    split_ifs with last
    · simp [tauHat, tauOfTag, last.2]
    · rfl

theorem publicHat_patched (x : CycleNode) :
    publicHat (((List.range c.publicInputs.length).foldl patchPublicInput
      ((generalizedThreaded W c).sigmas, [])).1 x) = (generalizedThreaded W c).sigmas x := by
  rw [foldl_patchPublicInput_sigmas]
  split_ifs with public
  · obtain ⟨j, k⟩ := x
    obtain ⟨rfl, hk⟩ := public
    rw [generalized_sigmas_public wf hk]
    rfl
  · simp [publicHat, generalized_sigmas_isPublicInput wf]

end Generalized

/-- For a well-formed circuit whose cycle tags are keys of `tau`, the generalized mapping is
built without an exception and without a line on `std::cerr`, no public-input sigma entry is a
tag, and its sigma entries with the public inputs put back balance its id entries read through
`tau` for every witness constant on the copy cycles. -/
theorem computePermutationMapping_generalized_balance (W n : Nat) (c : CircuitConstructor)
    (width : W = 3 ∨ W = 4) (wf : WellFormed W c) (size : c.publicInputs.length + c.numGates ≤ n)
    (keys : ∀ x v, heldVariable W c x = some v → (c.tau (c.realVariableTags.getD v 0)).isSome) :
    ∃ mapping, computePermutationMapping W true c = .ok (mapping, []) ∧
      (∀ k < c.publicInputs.length, (mapping.sigmas ⟨0, k⟩).isTag = false) ∧
      ∀ {γ : Type} (w : CycleNode → γ),
        (∀ v, ∀ a ∈ (computeWireCopyCycles W c).getD v [], ∀ b ∈ (computeWireCopyCycles W c).getD v [],
          w a = w b) →
        (↑((traceCells W n).map fun x => (w x, publicHat (mapping.sigmas x))) :
            Multiset (γ × PermutationSubgroupElement)) =
          ↑((traceCells W n).map fun x => (w x, tauHat c.tau (mapping.ids x))) := by
  have untagged : ∀ k < c.publicInputs.length, ((generalizedThreaded W c).sigmas ⟨0, k⟩).isTag = false :=
    fun k hk => by rw [generalized_sigmas_public wf hk]; rfl
  have quiet : ((List.range c.publicInputs.length).foldl patchPublicInput
      ((generalizedThreaded W c).sigmas, [])).2 = [] := by
    rw [foldl_patchPublicInput_log]
    simpa [List.filter_eq_nil_iff] using untagged
  rw [computePermutationMapping_of_threaded (threadedMapping_generalized wf keys), quiet]
  refine ⟨_, rfl, fun k hk => ?_, fun w constant => ?_⟩
  · dsimp only
    rw [foldl_patchPublicInput_sigmas, if_pos ⟨rfl, hk⟩]
    exact untagged k hk
  · have pointwise : ∀ x ∈ traceCells W n,
        (w x, publicHat (((List.range c.publicInputs.length).foldl patchPublicInput
          ((generalizedThreaded W c).sigmas, [])).1 x)) =
        (fun y => (w y, tauHat c.tau ((generalizedThreaded W c).ids y))) ((untaggedThreaded W c).sigmaCell x) :=
      fun x _ => by
        rw [publicHat_patched wf, generalized_sigmas_eq_tauHat wf]
        exact Prod.ext (apply_untagged_of_constant wf constant x).symm rfl
    have moved := (perm_map_of_injOn (nodup_traceCells W n)
      (fun x mem => mem_traceCells.mpr (untagged_mapsTo wf (by omega) size (mem_traceCells.mp mem)))
      (fun x _ y _ same => untagged_injective wf same)).map
        fun y => (w y, tauHat c.tau ((generalizedThreaded W c).ids y))
    rw [List.map_map] at moved
    rw [Multiset.coe_eq_coe, List.map_congr_left pointwise]
    exact moved

theorem computePermutationMapping_generalized_balance_aliased :
    ((3 = 3 ∨ 3 = 4) ∧ WellFormed 3 aliasedCircuit ∧
      aliasedCircuit.publicInputs.length + aliasedCircuit.numGates ≤ 4 ∧
      ∀ x v, heldVariable 3 aliasedCircuit x = some v →
        (aliasedCircuit.tau (aliasedCircuit.realVariableTags.getD v 0)).isSome) ∧
    ∃ mapping, computePermutationMapping 3 true aliasedCircuit = .ok (mapping, []) ∧
      (∀ k < aliasedCircuit.publicInputs.length, (mapping.sigmas ⟨0, k⟩).isTag = false) ∧
      ∀ {γ : Type} (w : CycleNode → γ),
        (∀ v, ∀ a ∈ (computeWireCopyCycles 3 aliasedCircuit).getD v [],
          ∀ b ∈ (computeWireCopyCycles 3 aliasedCircuit).getD v [], w a = w b) →
        (↑((traceCells 3 4).map fun x => (w x, publicHat (mapping.sigmas x))) :
            Multiset (γ × PermutationSubgroupElement)) =
          ↑((traceCells 3 4).map fun x => (w x, tauHat aliasedCircuit.tau (mapping.ids x))) := by
  have keys : ∀ x v, heldVariable 3 aliasedCircuit x = some v →
      (aliasedCircuit.tau (aliasedCircuit.realVariableTags.getD v 0)).isSome := fun x v held => by
    have : v < 3 := heldVariable_lt aliasedCircuit_wellFormed held
    interval_cases v <;> decide
  exact ⟨⟨.inl rfl, aliasedCircuit_wellFormed, by decide, keys⟩,
    computePermutationMapping_generalized_balance 3 4 aliasedCircuit (.inl rfl) aliasedCircuit_wellFormed
      (by decide) keys⟩

end Aztec3Circuits.Permutation

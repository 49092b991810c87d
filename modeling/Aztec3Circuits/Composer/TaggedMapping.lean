import Aztec3Circuits.Composer.Tags
import Aztec3Circuits.Permutation.Generalized

/-! The tag operations of the composer feed the generalized permutation mapping of its proving
key. `compute_permutation_mapping<W, true>` reads `tau.at(real_variable_tags[v])` for the last
node of every cycle, and `std::map::at` throws on a missing key. The tag operations touch only the
tags, `tau` and the counter, so a circuit built with them stays well formed; and if `tau` has a
key for every tag the variables start with, `DUMMY_TAG` among them, and every tag `assign_tag`
gives has a key in `tau` or is the `tag_index` of a `create_tag` of the run, the mapping of the
circuit the run leaves is built without an exception and without a line on `std::cerr`. -/
namespace Aztec3Circuits.Composer

open Permutation

theorem computePermutationMapping_generalized_ok {W : Nat} {c : CircuitConstructor} (wf : WellFormed W c)
    (keys : ∀ x v, heldVariable W c x = some v → (c.tau (c.realVariableTags.getD v 0)).isSome) :
    ∃ mapping, computePermutationMapping W true c = .ok (mapping, []) := by
  have untagged : ∀ k < c.publicInputs.length, ((generalizedThreaded W c).sigmas ⟨0, k⟩).isTag = false :=
    fun k hk => by rw [generalized_sigmas_public wf hk]; rfl
  have quiet : ((List.range c.publicInputs.length).foldl patchPublicInput
      ((generalizedThreaded W c).sigmas, [])).2 = [] := by
    rw [foldl_patchPublicInput_log]
    simpa [List.filter_eq_nil_iff] using untagged
  rw [computePermutationMapping_of_threaded (threadedMapping_generalized wf keys), quiet]
  exact ⟨_, rfl⟩

namespace TagComposer

theorem wellFormed_retag {W : Nat} {c : CircuitConstructor} (wf : WellFormed W c) (tags : List Nat)
    (tau : Nat → Option Nat) : WellFormed W { c with realVariableTags := tags, tau := tau } :=
  ⟨wf.1, wf.2, wf.3, wf.4⟩

theorem apply_frame {s s' : TagComposer} {op : TagOp} {handed : List UInt32} (applied : s.apply op = some (s', handed)) :
    s'.circuit = { s.circuit with realVariableTags := s'.circuit.realVariableTags, tau := s'.circuit.tau } ∧
      (∀ v, s'.tagOf v = s.tagOf v ∨ ∃ i t, op = .assignTag i t ∧ s'.tagOf v = t.toNat) ∧
      ∀ t, (s.circuit.tau t).isSome ∨ (∃ tagIndex u, op = .createTag tagIndex u ∧ tagIndex.toNat = t) →
        (s'.circuit.tau t).isSome := by
  have kept := (apply_keeps applied).1.tau
  have stays : ∀ t, (s.circuit.tau t).isSome → (s'.circuit.tau t).isSome := fun t keyed => by
    obtain ⟨a, entry⟩ := Option.isSome_iff_exists.mp keyed
    rw [kept t a entry]
    rfl
  cases op with
  | assignTag variableIndex tag =>
    simp only [apply, assignTag, Option.map_eq_some'] at applied
    obtain ⟨s₁, written, rfl, rfl⟩ := applied
    split_ifs at written
    cases written
    refine ⟨rfl, fun v => ?_, fun t keyed => stays t (keyed.resolve_right (by simp))⟩
    simp only [tagOf]
    by_cases same : v = s.circuit.realVariable variableIndex ∧ v < s.circuit.realVariableTags.length
    · exact .inr ⟨variableIndex, tag, rfl, by rw [getD_set _ (same.1 ▸ same.2), if_pos same.1]⟩
    · refine .inl ?_
      by_cases at_real : v = s.circuit.realVariable variableIndex
      · rw [List.set_eq_of_length_le (by omega)]
      · rw [getD_set_ne _ at_real]
  | createTag tagIndex tauIndex =>
    cases applied
    refine ⟨rfl, fun v => .inl rfl, fun t keyed => ?_⟩
    rcases keyed with old | ⟨index, u, made, rfl⟩
    · exact stays t old
    · cases made
      simp only [createTag, insertTau, if_pos rfl]
      cases s.circuit.tau tagIndex.toNat <;> rfl
  | getNewTag =>
    cases applied
    exact ⟨rfl, fun v => .inl rfl, fun t keyed => stays t (keyed.resolve_right (by simp))⟩

theorem run_frame {s s' : TagComposer} {ops : List TagOp} {handed : List UInt32} (ran : s.run ops = some (s', handed)) :
    s'.circuit = { s.circuit with realVariableTags := s'.circuit.realVariableTags, tau := s'.circuit.tau } ∧
      (∀ v, s'.tagOf v = s.tagOf v ∨ ∃ i t, TagOp.assignTag i t ∈ ops ∧ s'.tagOf v = t.toNat) ∧
      ∀ t, (s.circuit.tau t).isSome ∨ (∃ tagIndex u, TagOp.createTag tagIndex u ∈ ops ∧ tagIndex.toNat = t) →
        (s'.circuit.tau t).isSome := by
  induction ops generalizing s handed with
  | nil =>
    cases ran
    exact ⟨rfl, fun v => .inl rfl, fun t keyed => keyed.resolve_right (by simp)⟩
  | cons op ops ih =>
    simp only [run, Option.bind_eq_some, Option.map_eq_some', Prod.mk.injEq] at ran
    obtain ⟨⟨s₁, tags⟩, applied, ⟨s₂, rest⟩, ran, rfl, rfl⟩ := ran
    obtain ⟨frame₁, tags₁, tau₁⟩ := apply_frame applied
    obtain ⟨frame₂, tags₂, tau₂⟩ := ih ran
    refine ⟨by rw [frame₂, frame₁], fun v => ?_, fun t keyed => ?_⟩
    · rcases tags₂ v with same | ⟨i, t, mem, assigned⟩
      · rcases tags₁ v with same₁ | ⟨i, t, rfl, assigned⟩
        · exact .inl (same.trans same₁)
        · exact .inr ⟨i, t, List.mem_cons_self _ _, same.trans assigned⟩
      · exact .inr ⟨i, t, List.mem_cons_of_mem _ mem, assigned⟩
    · rcases keyed with old | ⟨index, u, made, rfl⟩
      · exact tau₂ t (.inl (tau₁ t (.inl old)))
      · rcases List.mem_cons.mp made with first | later
        · exact tau₂ _ (.inl (tau₁ _ (.inr ⟨index, u, first.symm, rfl⟩)))
        · exact tau₂ _ (.inr ⟨index, u, later, rfl⟩)

end TagComposer

def untaggedSample : TagComposer where
  circuit := { aliasedCircuit with realVariableTags := [0, 0, 0], tau := fun t => if t = 0 then some 0 else none }
  currentTag := 0

def untaggedSampleOps : List TagOp := [.getNewTag, .createTag 1 1, .assignTag 2 1]

end Aztec3Circuits.Composer

import Mathlib.Data.UInt
import Aztec3Circuits.Folds
import Aztec3Circuits.Permutation.CopyCycles

/-! The tag operations of `UltraComposer`. `get_new_tag` and `create_tag` hand out the next value
of the `uint32_t` counter `current_tag`; `create_tag` also inserts a pair into the `std::map`
`tau`, which keeps the value of a key already present. `assign_tag` tags the real variable of an
index with a tag no larger than the counter, once: its two `ASSERT`s abort a debug build and are
modelled as failures. Over any run a tag once assigned stays and an entry of `tau` stays; the
tags handed out from a fresh counter are distinct and never `DUMMY_TAG` exactly as long as the
counter does not wrap. -/
namespace Aztec3Circuits.Composer

open Permutation

/-- Modelled from the spec: `DUMMY_TAG` of `composer_base.hpp`, not part of the sources, the tag
of a variable with no tag, taken as `0`. -/
def dummyTag : Nat := 0

/-- The members of the composer that the tag operations read and write: the circuit's
`real_variable_index`, `real_variable_tags` and `tau`, and `current_tag`. -/
structure TagComposer where
  circuit : CircuitConstructor
  currentTag : UInt32

def insertTau (tau : Nat → Option Nat) (key value : Nat) : Nat → Option Nat :=
  fun k => if k = key then (tau k).orElse fun _ => some value else tau k

namespace TagComposer

variable (s : TagComposer)

def tagOf (v : Nat) : Nat := s.circuit.realVariableTags.getD v dummyTag

/-- `assign_tag(variable_index, tag)`, `none` where an `ASSERT` fails. -/
def assignTag (variableIndex : Nat) (tag : UInt32) : Option TagComposer :=
  let real := s.circuit.realVariable variableIndex
  if tag ≤ s.currentTag ∧ s.tagOf real = dummyTag then
    some { s with circuit := { s.circuit with realVariableTags := s.circuit.realVariableTags.set real tag.toNat } }
  else none

/-- `create_tag(tag_index, tau_index)`, with the tag it returns. -/
def createTag (tagIndex tauIndex : UInt32) : TagComposer × UInt32 :=
  ({ circuit := { s.circuit with tau := insertTau s.circuit.tau tagIndex.toNat tauIndex.toNat }
     currentTag := s.currentTag + 1 }, s.currentTag + 1)

/-- `get_new_tag()`, with the tag it returns. -/
def getNewTag : TagComposer × UInt32 := ({ s with currentTag := s.currentTag + 1 }, s.currentTag + 1)

end TagComposer

/-- A call of one of the tag operations. -/
inductive TagOp where
  | assignTag (variableIndex : Nat) (tag : UInt32)
  | createTag (tagIndex tauIndex : UInt32)
  | getNewTag

def TagOp.handsOut : TagOp → Bool
  | .assignTag _ _ => false
  | .createTag _ _ => true
  | .getNewTag => true

def TagComposer.apply (s : TagComposer) : TagOp → Option (TagComposer × List UInt32)
  | .assignTag variableIndex tag => (s.assignTag variableIndex tag).map fun s' => (s', [])
  | .createTag tagIndex tauIndex => some ((s.createTag tagIndex tauIndex).1, [(s.createTag tagIndex tauIndex).2])
  | .getNewTag => some (s.getNewTag.1, [s.getNewTag.2])

def TagComposer.run : TagComposer → List TagOp → Option (TagComposer × List UInt32)
  | s, [] => some (s, [])
  | s, op :: ops => (s.apply op).bind fun (s', tags) => (s'.run ops).map fun (s'', rest) => (s'', tags ++ rest)

/-- What a run keeps: the counter moves on by the tags handed out, which are its next values in
turn; a variable's tag, once assigned, stays; an entry of `tau` stays. -/
structure TagComposer.Keeps (s s' : TagComposer) (handed : List UInt32) : Prop where
  counter : s'.currentTag.toNat = (s.currentTag.toNat + handed.length) % 2 ^ 32
  handed_eq : handed.map UInt32.toNat = (List.range handed.length).map fun i => (s.currentTag.toNat + i + 1) % 2 ^ 32
  tags : ∀ v, s.tagOf v ≠ dummyTag → s'.tagOf v = s.tagOf v
  tau : ∀ t a, s.circuit.tau t = some a → s'.circuit.tau t = some a

def TagComposer.Bounded (s : TagComposer) : Prop := ∀ v, s.tagOf v ≤ s.currentTag.toNat

namespace TagComposer

theorem toNat_add_one (c : UInt32) : (c + 1).toNat = (c.toNat + 1) % 2 ^ 32 := by
  rw [UInt32.add_def]
  exact BitVec.toNat_add _ _

theorem Keeps.trans {s s' s'' : TagComposer} {handed rest : List UInt32} (first : s.Keeps s' handed)
    (second : s'.Keeps s'' rest) : s.Keeps s'' (handed ++ rest) where
  counter := by rw [second.counter, first.counter, Nat.mod_add_mod, List.length_append, Nat.add_assoc]
  handed_eq := by
    rw [List.map_append, first.handed_eq, second.handed_eq, List.length_append, List.range_add, List.map_append,
      List.map_map, first.counter]
    congr 1
    exact List.map_congr_left fun i _ => by
      simp only [Function.comp_apply, Nat.mod_add_mod, Nat.add_assoc, Nat.add_comm handed.length]
  tags v tagged := (second.tags v (first.tags v tagged ▸ tagged)).trans (first.tags v tagged)
  tau t a entry := second.tau t a (first.tau t a entry)

theorem keeps_next {s s' : TagComposer} (counter : s'.currentTag = s.currentTag + 1)
    (tags : s'.circuit.realVariableTags = s.circuit.realVariableTags)
    (tau : ∀ t a, s.circuit.tau t = some a → s'.circuit.tau t = some a) :
    s.Keeps s' [s.currentTag + 1] where
  counter := by rw [counter, toNat_add_one]; rfl
  handed_eq := by rw [List.map_singleton, toNat_add_one]; rfl
  tags v _ := by rw [tagOf, tags]; rfl
  tau := tau

theorem insertTau_of_some {tau : Nat → Option Nat} {t a : Nat} (entry : tau t = some a) (key value : Nat) :
    insertTau tau key value t = some a := by
  unfold insertTau
  split_ifs <;> simp [entry]

theorem apply_keeps {s s' : TagComposer} {op : TagOp} {handed : List UInt32} (applied : s.apply op = some (s', handed)) :
    s.Keeps s' handed ∧ (s.Bounded → s.currentTag.toNat + handed.length < 2 ^ 32 → s'.Bounded) := by
  cases op with
  | assignTag variableIndex tag =>
    simp only [apply, assignTag, Option.map_eq_some'] at applied
    obtain ⟨s₁, written, rfl, rfl⟩ := applied
    split_ifs at written with allowed
    cases written
    have below : tag.toNat ≤ s.currentTag.toNat := UInt32.le_def.mp allowed.1
    have counter : s.currentTag.toNat = (s.currentTag.toNat + ([] : List UInt32).length) % 2 ^ 32 :=
      (Nat.mod_eq_of_lt s.currentTag.toBitVec.isLt).symm
    refine ⟨⟨counter, rfl, fun v tagged => ?_, fun _ _ => id⟩, fun bounded _ v => ?_⟩
    · simp only [tagOf] at tagged allowed ⊢
      rw [getD_set_ne _ fun same => tagged (by rw [same]; exact allowed.2)]
    · simp only [tagOf]
      by_cases same : v = s.circuit.realVariable variableIndex
      · subst same
        by_cases inside : s.circuit.realVariable variableIndex < s.circuit.realVariableTags.length
        · rw [getD_set _ inside, if_pos rfl]
          exact below
        · rw [List.set_eq_of_length_le (by omega)]
          exact bounded _
      · rw [getD_set_ne _ same]
        exact bounded v
  | createTag tagIndex tauIndex =>
    cases applied
    refine ⟨keeps_next rfl rfl fun t a entry => insertTau_of_some entry _ _, fun bounded fits v => ?_⟩
    have next := toNat_add_one s.currentTag
    simp only [List.length_singleton] at fits
    exact (bounded v).trans (by simp only [createTag]; omega)
  | getNewTag =>
    cases applied
    refine ⟨keeps_next rfl rfl fun _ _ => id, fun bounded fits v => ?_⟩
    have next := toNat_add_one s.currentTag
    simp only [List.length_singleton] at fits
    exact (bounded v).trans (by simp only [getNewTag]; omega)

theorem keeps_refl (s : TagComposer) : s.Keeps s [] where
  counter := (Nat.mod_eq_of_lt s.currentTag.toBitVec.isLt).symm
  handed_eq := rfl
  tags _ _ := rfl
  tau _ _ := id

theorem run_keeps {s s' : TagComposer} {ops : List TagOp} {handed : List UInt32} (ran : s.run ops = some (s', handed)) :
    s.Keeps s' handed ∧ (s.Bounded → s.currentTag.toNat + handed.length < 2 ^ 32 → s'.Bounded) := by
  induction ops generalizing s handed with
  | nil =>
    cases ran
    exact ⟨keeps_refl _, fun bounded _ => bounded⟩
  | cons op ops ih =>
    simp only [run, Option.bind_eq_some, Option.map_eq_some', Prod.mk.injEq] at ran
    obtain ⟨⟨s₁, tags⟩, applied, ⟨s₂, rest⟩, ran, rfl, rfl⟩ := ran
    obtain ⟨first, bounded₁⟩ := apply_keeps applied
    obtain ⟨second, bounded₂⟩ := ih ran
    refine ⟨first.trans second, fun bounded fits => bounded₂ (bounded₁ bounded (by simp at fits; omega)) ?_⟩
    rw [first.counter, Nat.mod_eq_of_lt (by simp at fits; omega)]
    simpa [Nat.add_assoc] using fits

theorem zero_mem_counterValues {c n : Nat} (hc : c < 2 ^ 32) (wraps : 2 ^ 32 ≤ c + n) :
    0 ∈ (List.range n).map fun i => (c + i + 1) % 2 ^ 32 :=
  List.mem_map.mpr ⟨2 ^ 32 - 1 - c, List.mem_range.mpr (by omega),
    by rw [show c + (2 ^ 32 - 1 - c) + 1 = 2 ^ 32 by omega, Nat.mod_self]⟩

theorem counterValues_fresh {c : Nat} (n : Nat) (hc : c < 2 ^ 32) :
    (((List.range n).map fun i => (c + i + 1) % 2 ^ 32).Nodup ∧
        ∀ x ∈ (List.range n).map (fun i => (c + i + 1) % 2 ^ 32), c < x) ↔ c + n < 2 ^ 32 := by
  constructor
  · rintro ⟨-, above⟩
    by_contra wraps
    exact Nat.not_lt_zero _ (above 0 (zero_mem_counterValues hc (by omega)))
  · intro fits
    refine ⟨(List.nodup_range n).map_on fun i hi j hj same => ?_, fun x mem => ?_⟩
    · rw [List.mem_range] at hi hj
      rw [Nat.mod_eq_of_lt (by omega), Nat.mod_eq_of_lt (by omega)] at same
      omega
    · obtain ⟨i, hi, rfl⟩ := List.mem_map.mp mem
      rw [List.mem_range] at hi
      rw [Nat.mod_eq_of_lt (by omega)]
      omega

/-- The tags a run hands out are distinct and above the counter it started from exactly when the
counter does not wrap; once it does, `current_tag++` comes back to `0` and the run hands out
`DUMMY_TAG`. -/
theorem run_tags_fresh {s s' : TagComposer} {ops : List TagOp} {handed : List UInt32}
    (ran : s.run ops = some (s', handed)) :
    ((handed.Nodup ∧ ∀ t ∈ handed, s.currentTag.toNat < t.toNat) ↔ s.currentTag.toNat + handed.length < 2 ^ 32) ∧
      (2 ^ 32 ≤ s.currentTag.toNat + handed.length → ∃ t ∈ handed, t.toNat = dummyTag) := by
  have counter : s.currentTag.toNat < 2 ^ 32 := s.currentTag.toBitVec.isLt
  have values := (run_keeps ran).1.handed_eq
  refine ⟨?_, fun wraps => List.mem_map.mp (values ▸ zero_mem_counterValues counter wraps)⟩
  rw [← counterValues_fresh handed.length counter, ← values, List.nodup_map_iff fun _ _ => UInt32.toNat.inj,
    List.forall_mem_map]

/-- Along any run whose `ASSERT`s hold, `assign_tag` never changes a tag once assigned, `create_tag`
never changes an entry of `tau`, and every variable's tag stays at most the counter while the
counter does not wrap. -/
theorem run_preserves_tags {s s' : TagComposer} {ops : List TagOp} {handed : List UInt32}
    (ran : s.run ops = some (s', handed)) :
    (∀ v, s.tagOf v ≠ dummyTag → s'.tagOf v = s.tagOf v) ∧
      (∀ t a, s.circuit.tau t = some a → s'.circuit.tau t = some a) ∧
      (s.Bounded → s.currentTag.toNat + handed.length < 2 ^ 32 → s'.Bounded) :=
  ⟨(run_keeps ran).1.tags, (run_keeps ran).1.tau, (run_keeps ran).2⟩

end TagComposer

def tagSample : TagComposer where
  circuit := ⟨0, [], [], [], [], [], 3, [0, 1, 1], [0, 0], fun _ => none⟩
  currentTag := 0

def tagSampleOps : List TagOp :=
  [.getNewTag, .getNewTag, .createTag 1 2, .createTag 2 1, .assignTag 0 1, .assignTag 1 2]

def wrapSample : TagComposer := { tagSample with currentTag := 4294967294 }

theorem run_tags_fresh_sample :
    ∃ s' handed, wrapSample.run tagSampleOps = some (s', handed) ∧
      ((handed.Nodup ∧ ∀ t ∈ handed, wrapSample.currentTag.toNat < t.toNat) ↔
        wrapSample.currentTag.toNat + handed.length < 2 ^ 32) ∧
      (2 ^ 32 ≤ wrapSample.currentTag.toNat + handed.length → ∃ t ∈ handed, t.toNat = dummyTag) :=
  ⟨_, _, rfl, @TagComposer.run_tags_fresh wrapSample _ tagSampleOps _ rfl⟩

theorem run_preserves_tags_sample :
    ∃ s' handed, tagSample.run tagSampleOps = some (s', handed) ∧
      (∀ v, tagSample.tagOf v ≠ dummyTag → s'.tagOf v = tagSample.tagOf v) ∧
      (∀ t a, tagSample.circuit.tau t = some a → s'.circuit.tau t = some a) ∧
      (tagSample.Bounded → tagSample.currentTag.toNat + handed.length < 2 ^ 32 → s'.Bounded) :=
  ⟨_, _, rfl, @TagComposer.run_preserves_tags tagSample _ tagSampleOps _ rfl⟩

end Aztec3Circuits.Composer

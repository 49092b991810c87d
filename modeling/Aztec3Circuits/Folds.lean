import Mathlib.Data.List.GetD
import Mathlib.Logic.Function.Basic

/-! Tables and loops as the sources write them: a table filled by an index loop is
`(List.range n).map f`, and a loop whose steps each write one cell of their own is a fold whose
result at that cell is its own write, and at any other cell what it was before. -/
namespace Aztec3Circuits

theorem getD_map_range {γ : Type} (f : Nat → γ) {n i : Nat} (hi : i < n) (d : γ) :
    ((List.range n).map f).getD i d = f i := by
  rw [List.getD_eq_getElem _ _ (by simpa using hi)]
  simp

theorem getD_append_map_range {γ : Type} (f g : Nat → γ) {m n t : Nat} (ht : t < m + n) (d : γ) :
    ((List.range m).map f ++ (List.range n).map g).getD t d = if t < m then f t else g (t - m) := by
  have length : ((List.range m).map f).length = m := by simp
  split_ifs with first
  · rw [List.getD_append _ _ _ _ (by rwa [length]), getD_map_range _ first]
  · rw [List.getD_append_right _ _ _ _ (by omega), length, getD_map_range _ (by omega)]

theorem getD_map_of_lt {α γ : Type} (f : α → γ) {l : List α} {i : Nat} (hi : i < l.length) (d : γ) (d' : α) :
    (l.map f).getD i d = f (l.getD i d') := by
  rw [List.getD_eq_getElem _ _ (by simpa using hi), List.getD_eq_getElem _ _ hi]
  simp

theorem getD_set {α : Type} (l : List α) {i : Nat} (hi : i < l.length) (v : α) (j : Nat) (d : α) :
    (l.set i v).getD j d = if j = i then v else l.getD j d := by
  simp only [List.getD_eq_getElem?_getD]
  split_ifs with same
  · rw [same, List.getElem?_set_self hi, Option.getD_some]
  · rw [List.getElem?_set_ne (Ne.symm same)]

theorem getD_set_ne {α : Type} (l : List α) {i j : Nat} (ne : j ≠ i) (v d : α) :
    (l.set i v).getD j d = l.getD j d := by
  simp only [List.getD_eq_getElem?_getD, List.getElem?_set_ne (Ne.symm ne)]

theorem getD_take_drop {α : Type} (l : List α) (a : Nat) {n j : Nat} (hj : j < n) (d : α) :
    ((l.drop a).take n).getD j d = l.getD (a + j) d := by
  simp only [List.getD_eq_getElem?_getD, List.getElem?_take_of_lt hj, List.getElem?_drop]

section Folds

variable {β α E κ : Type} (step : β → α → β) (sel : β → κ → E) (pos : α → κ)

theorem foldl_sel_of_forall_ne (frame : ∀ b a x, x ≠ pos a → sel (step b a) x = sel b x)
    (ops : List α) (b : β) (x : κ) (away : ∀ a ∈ ops, pos a ≠ x) :
    sel (ops.foldl step b) x = sel b x := by
  induction ops generalizing b with
  | nil => rfl
  | cons a rest ih =>
    rw [List.foldl_cons, ih _ fun a' mem => away a' (List.mem_cons_of_mem _ mem),
      frame _ _ _ (away a (List.mem_cons_self _ _)).symm]

theorem foldl_sel_pos (upd : α → E → E) (frame : ∀ b a x, x ≠ pos a → sel (step b a) x = sel b x)
    (own : ∀ b a, sel (step b a) (pos a) = upd a (sel b (pos a)))
    (ops : List α) (b : β) (a : α) (nodup : (ops.map pos).Nodup) (mem : a ∈ ops) :
    sel (ops.foldl step b) (pos a) = upd a (sel b (pos a)) := by
  induction ops generalizing b with
  | nil => cases mem
  | cons a' rest ih =>
    rw [List.map_cons, List.nodup_cons, List.mem_map] at nodup
    rw [List.foldl_cons]
    rcases List.mem_cons.mp mem with rfl | mem
    · rw [foldl_sel_of_forall_ne step sel pos frame _ _ _
        fun a'' mem'' same => nodup.1 ⟨a'', mem'', same⟩, own]
    · have ne : pos a ≠ pos a' := fun same => nodup.1 ⟨a, mem, same⟩
      rw [ih _ nodup.2 mem, frame _ _ _ ne]

end Folds

section Updates

variable {α E κ : Type} [DecidableEq κ] (pos : α → κ) (val : α → E)

theorem foldl_update_pos (ops : List α) (nodup : (ops.map pos).Nodup) (f : κ → E) {a : α} (mem : a ∈ ops) :
    ops.foldl (fun f a => Function.update f (pos a) (val a)) f (pos a) = val a :=
  foldl_sel_pos _ (fun f x => f x) pos (fun a _ => val a) (fun _ _ _ ne => Function.update_noteq ne _ _)
    (fun _ _ => Function.update_same _ _ _) ops f a nodup mem

end Updates

section Sets

variable {α β : Type} (pos : α → Nat) (val : α → β)

theorem length_foldl_set (ops : List α) (l : List β) :
    (ops.foldl (fun l a => l.set (pos a) (val a)) l).length = l.length := by
  induction ops generalizing l with
  | nil => rfl
  | cons a rest ih => rw [List.foldl_cons, ih, List.length_set]

theorem getD_foldl_set_of_forall_ne (ops : List α) (l : List β) {k : Nat} (away : ∀ a ∈ ops, pos a ≠ k) (d : β) :
    (ops.foldl (fun l a => l.set (pos a) (val a)) l).getD k d = l.getD k d :=
  foldl_sel_of_forall_ne _ (fun l k => l.getD k d) pos (fun _ _ _ ne => getD_set_ne _ ne _ _) ops l k away

theorem getD_foldl_set_pos (ops : List α) (nodup : (ops.map pos).Nodup) (l : List β) {a : α} (mem : a ∈ ops)
    (inside : pos a < l.length) (d : β) :
    (ops.foldl (fun l a => l.set (pos a) (val a)) l).getD (pos a) d = val a := by
  have own : ∀ (l : List β) a, ((l.set (pos a) (val a)).length, (l.set (pos a) (val a)).getD (pos a) d) =
      (l.length, if pos a < l.length then val a else l.getD (pos a) d) := fun l a => by
    split_ifs with lt
    · rw [List.length_set, getD_set _ lt, if_pos rfl]
    · rw [List.set_eq_of_length_le (by omega)]
  have := foldl_sel_pos _ (fun l k => (l.length, l.getD k d)) pos
    (fun a old => (old.1, if pos a < old.1 then val a else old.2))
    (fun l _ k ne => by simp only [List.length_set, getD_set_ne _ ne]) own ops l a nodup mem
  simpa [inside] using congrArg Prod.snd this

end Sets

end Aztec3Circuits

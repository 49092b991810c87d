import Mathlib.Data.List.GetD
import Mathlib.Data.UInt

/-! The honk `work_queue`. A prover queues the polynomials it has to commit to with
`add_commitment`; the queue either does the multi-scalar multiplications itself in
`process_queue`, or hands them one by one to a caller that does them, through
`get_scalar_multiplication_data`, `get_scalar_multiplication_size` and
`put_scalar_multiplication_data`, and is then flushed. Either way each commitment is sent to the
transcript under its label, and the transcript is order-sensitive. The three accessors share one
loop that counts scalar multiplications in a `size_t`; `get_queued_work_item_info` counts them in a
`uint32_t`, which wraps once the queue holds `2 ^ 32` items. -/
namespace Aztec3Circuits.Honk

inductive WorkType
  | scalarMultiplication
  deriving DecidableEq, Repr

/-- `work_item`: its kind, the scalars of its multi-scalar multiplication, and the label its
result is sent under. -/
structure WorkItem (FF : Type) where
  workType : WorkType
  mulScalars : List FF
  label : String

structure WorkItemInfo where
  numScalarMultiplications : UInt32

/-- The state of a `work_queue` that its operations read and write: `work_item_queue`, and the
entries sent to the transcript it holds a reference to, oldest first. -/
structure WorkQueue (FF C : Type) where
  workItemQueue : List (WorkItem FF)
  transcript : List (String × C)

variable {FF C : Type}

/-- The loop of `get_scalar_multiplication_data`, `get_scalar_multiplication_size` and
`put_scalar_multiplication_data`: the scalar multiplication numbered `workItemNumber`, when the
items before `items` hold `count` of them. -/
def findScalarMultiplication : List (WorkItem FF) → Nat → Nat → Option (WorkItem FF)
  | [], _, _ => none
  | item :: items, workItemNumber, count =>
    if item.workType = .scalarMultiplication then
      if count = workItemNumber then some item
      else findScalarMultiplication items workItemNumber (count + 1)
    else findScalarMultiplication items workItemNumber count

namespace WorkQueue

def new (transcript : List (String × C)) : WorkQueue FF C := ⟨[], transcript⟩

variable (q : WorkQueue FF C)

/-- `get_queued_work_item_info`: the scalar multiplications, counted in a `uint32_t`. -/
def getQueuedWorkItemInfo : WorkItemInfo :=
  ⟨q.workItemQueue.foldl
    (fun scalarMulCount item =>
      if item.workType = .scalarMultiplication then scalarMulCount + 1 else scalarMulCount) 0⟩

/-- `get_scalar_multiplication_data(work_item_number)`: the scalars of that scalar
multiplication, `none` for `nullptr`. -/
def getScalarMultiplicationData (workItemNumber : Nat) : Option (List FF) :=
  (findScalarMultiplication q.workItemQueue workItemNumber 0).map (·.mulScalars)

def getScalarMultiplicationSize (workItemNumber : Nat) : Nat :=
  ((findScalarMultiplication q.workItemQueue workItemNumber 0).map (·.mulScalars.length)).getD 0

/-- `put_scalar_multiplication_data(result, work_item_number)`: `result` sent to the transcript
under the label of that item, nothing when there is none. -/
def putScalarMultiplicationData (result : C) (workItemNumber : Nat) : WorkQueue FF C :=
  match findScalarMultiplication q.workItemQueue workItemNumber 0 with
  | some item => { q with transcript := q.transcript ++ [(item.label, result)] }
  | none => q

def flushQueue : WorkQueue FF C := { q with workItemQueue := [] }

def addCommitment (polynomial : List FF) (label : String) : WorkQueue FF C :=
  { q with workItemQueue := q.workItemQueue ++ [⟨.scalarMultiplication, polynomial, label⟩] }

/-- `process_queue`: each item's scalars committed to with `commit`, the function
`commitment_key.commit` computes, and sent under its label; then the queue is emptied. -/
def processQueue (commit : List FF → C) : WorkQueue FF C :=
  ⟨[], q.workItemQueue.foldl
    (fun transcript item =>
      match item.workType with
      | .scalarMultiplication => transcript ++ [(item.label, commit item.mulScalars)])
    q.transcript⟩

def addCommitments (calls : List (List FF × String)) : WorkQueue FF C :=
  calls.foldl (fun q call => q.addCommitment call.1 call.2) q

/-- A caller that runs the scalar multiplications itself: for each of the first `n` work items in
turn it commits to the span that `get_scalar_multiplication_data` and
`get_scalar_multiplication_size` give and puts the commitment back under the item's number; then
it flushes the queue. -/
def commitEachAndFlush (commit : List FF → C) (n : Nat) : WorkQueue FF C :=
  ((List.range n).foldl
    (fun q i =>
      q.putScalarMultiplicationData
        (commit (((q.getScalarMultiplicationData i).getD []).take (q.getScalarMultiplicationSize i))) i)
    q).flushQueue

end WorkQueue

def WorkItem.ofCall (call : List FF × String) : WorkItem FF := ⟨.scalarMultiplication, call.1, call.2⟩

def WorkItem.entry (commit : List FF → C) (item : WorkItem FF) : String × C :=
  (item.label, commit item.mulScalars)

@[simp] theorem WorkItem.workType_eq (item : WorkItem FF) : item.workType = .scalarMultiplication := by
  cases item.workType
  rfl

theorem findScalarMultiplication_eq (items : List (WorkItem FF)) {i count : Nat} (le : count ≤ i) :
    findScalarMultiplication items i count = items[i - count]? := by
  induction items generalizing count with
  | nil => rfl
  | cons item items ih =>
    rw [findScalarMultiplication, if_pos (WorkItem.workType_eq item)]
    split_ifs with found
    · rw [found, Nat.sub_self, List.getElem?_cons_zero]
    · rw [ih (by omega), show i - count = i - (count + 1) + 1 by omega, List.getElem?_cons_succ]

theorem toNat_add_one (c : UInt32) : (c + 1).toNat = (c.toNat + 1) % 2 ^ 32 := by
  rw [UInt32.add_def]
  exact BitVec.toNat_add _ _

theorem count_foldl (items : List (WorkItem FF)) (c : UInt32) :
    (items.foldl (fun scalarMulCount item =>
      if item.workType = .scalarMultiplication then scalarMulCount + 1 else scalarMulCount) c).toNat =
      (c.toNat + items.length) % 2 ^ 32 := by
  induction items generalizing c with
  | nil => exact (Nat.mod_eq_of_lt c.toNat_lt_size).symm
  | cons item items ih =>
    rw [List.foldl_cons, if_pos (WorkItem.workType_eq item), ih, toNat_add_one, Nat.mod_add_mod,
      List.length_cons, Nat.add_assoc, Nat.add_comm 1]

theorem send_foldl (commit : List FF → C) (items : List (WorkItem FF)) (transcript : List (String × C)) :
    items.foldl (fun transcript item =>
      match item.workType with
      | .scalarMultiplication => transcript ++ [(item.label, commit item.mulScalars)]) transcript =
      transcript ++ items.map (WorkItem.entry commit) := by
  induction items generalizing transcript with
  | nil => exact (List.append_nil _).symm
  | cons item items ih =>
    rw [List.foldl_cons, WorkItem.workType_eq, ih, List.map_cons, List.append_assoc]
    rfl

namespace WorkQueue

variable (q : WorkQueue FF C)

theorem addCommitments_eq (calls : List (List FF × String)) :
    q.addCommitments calls = ⟨q.workItemQueue ++ calls.map WorkItem.ofCall, q.transcript⟩ := by
  induction calls generalizing q with
  | nil => rw [addCommitments, List.foldl_nil, List.map_nil, List.append_nil]
  | cons call calls ih =>
    rw [addCommitments, List.foldl_cons, ← addCommitments, ih, addCommitment, List.map_cons,
      List.append_assoc]
    rfl

theorem accessors_of_lt {i : Nat} (hi : i < q.workItemQueue.length) :
    q.getScalarMultiplicationData i = some q.workItemQueue[i].mulScalars ∧
      q.getScalarMultiplicationSize i = q.workItemQueue[i].mulScalars.length ∧
      ∀ result : C, q.putScalarMultiplicationData result i =
        { q with transcript := q.transcript ++ [(q.workItemQueue[i].label, result)] } := by
  have found := findScalarMultiplication_eq q.workItemQueue (Nat.zero_le i)
  rw [Nat.sub_zero, List.getElem?_eq_getElem hi] at found
  simp only [getScalarMultiplicationData, getScalarMultiplicationSize, putScalarMultiplicationData,
    found, Option.map_some', Option.getD_some, and_self, implies_true]

theorem accessors_of_le {i : Nat} (hi : q.workItemQueue.length ≤ i) :
    q.getScalarMultiplicationData i = none ∧ q.getScalarMultiplicationSize i = 0 ∧
      ∀ result : C, q.putScalarMultiplicationData result i = q := by
  have found := findScalarMultiplication_eq q.workItemQueue (Nat.zero_le i)
  rw [Nat.sub_zero, List.getElem?_eq_none hi] at found
  simp only [getScalarMultiplicationData, getScalarMultiplicationSize, putScalarMultiplicationData,
    found, Option.map_none', Option.getD_none, and_self, implies_true]

theorem commitEach_run (commit : List FF → C) {k : Nat} (hk : k ≤ q.workItemQueue.length) :
    (List.range k).foldl
      (fun q i =>
        q.putScalarMultiplicationData
          (commit (((q.getScalarMultiplicationData i).getD []).take (q.getScalarMultiplicationSize i))) i)
      q = { q with transcript := q.transcript ++ (q.workItemQueue.take k).map (WorkItem.entry commit) } := by
  induction k with
  | zero => rw [List.range_zero, List.foldl_nil, List.take_zero, List.map_nil, List.append_nil]
  | succ k ih =>
    have lt : k < q.workItemQueue.length := hk
    obtain ⟨data, size, put⟩ :=
      accessors_of_lt ⟨q.workItemQueue, q.transcript ++ (q.workItemQueue.take k).map (WorkItem.entry commit)⟩ lt
    rw [List.range_succ, List.foldl_append, ih (by omega), List.foldl_cons, List.foldl_nil, data, size]
    rw [Option.getD_some, List.take_length, put, List.take_succ, List.getElem?_eq_getElem lt,
      Option.toList_some, List.map_append, List.map_singleton, List.append_assoc]
    rfl

theorem count_addCommitments (transcript : List (String × C)) (calls : List (List FF × String)) :
    ((new transcript).addCommitments calls).getQueuedWorkItemInfo.numScalarMultiplications.toNat =
      calls.length % 2 ^ 32 := by
  rw [getQueuedWorkItemInfo, addCommitments_eq, count_foldl, List.length_append, List.length_map]
  show (0 + (0 + calls.length)) % 2 ^ 32 = _
  rw [Nat.zero_add, Nat.zero_add]

end WorkQueue

/-- `n` calls of `add_commitment` on a new queue, then either way of processing it.
`get_queued_work_item_info` counts the calls modulo `2 ^ 32`. `process_queue` sends the
commitments of the calls to the transcript in order and empties the queue. For each call `i` the
accessors give its scalars and the size of its span, and `put_scalar_multiplication_data` sends a
result under its label; past the last call they give `nullptr`, `0` and send nothing. The caller
that commits to each span in turn, puts the commitment back and flushes the queue leaves the same
transcript and the same empty queue as `process_queue`. -/
theorem workQueue_paths_agree (commit : List FF → C) (transcript : List (String × C))
    (calls : List (List FF × String)) :
    let q : WorkQueue FF C := (WorkQueue.new transcript).addCommitments calls
    q.getQueuedWorkItemInfo.numScalarMultiplications.toNat = calls.length % 2 ^ 32 ∧
    q.processQueue commit = ⟨[], transcript ++ calls.map fun call => (call.2, commit call.1)⟩ ∧
    (∀ i (hi : i < calls.length), q.getScalarMultiplicationData i = some calls[i].1 ∧
      q.getScalarMultiplicationSize i = calls[i].1.length ∧
      ∀ result, q.putScalarMultiplicationData result i = ⟨q.workItemQueue, transcript ++ [(calls[i].2, result)]⟩) ∧
    q.commitEachAndFlush commit calls.length = q.processQueue commit ∧
    ∀ i, calls.length ≤ i → q.getScalarMultiplicationData i = none ∧
      q.getScalarMultiplicationSize i = 0 ∧ ∀ result, q.putScalarMultiplicationData result i = q := by
  intro q
  have counted : q.getQueuedWorkItemInfo.numScalarMultiplications.toNat = calls.length % 2 ^ 32 :=
    WorkQueue.count_addCommitments transcript calls
  have queue : q = ⟨calls.map WorkItem.ofCall, transcript⟩ := WorkQueue.addCommitments_eq _ calls
  clear_value q
  subst queue
  have length : (calls.map (WorkItem.ofCall : List FF × String → WorkItem FF)).length = calls.length :=
    List.length_map _ _
  have processed : WorkQueue.processQueue ⟨calls.map WorkItem.ofCall, transcript⟩ commit =
      ⟨[], transcript ++ calls.map fun call => (call.2, commit call.1)⟩ := by
    rw [WorkQueue.processQueue, send_foldl, List.map_map]
    rfl
  refine ⟨?_, processed, fun i hi => ?_, ?_, fun i hi => WorkQueue.accessors_of_le _ (length.symm ▸ hi)⟩
  · exact counted
  · obtain ⟨data, size, put⟩ :=
      WorkQueue.accessors_of_lt ⟨calls.map WorkItem.ofCall, transcript⟩ (length.symm ▸ hi)
    simp only [List.getElem_map] at data size put
    exact ⟨data, size, put⟩
  · rw [WorkQueue.commitEachAndFlush, ← length, WorkQueue.commitEach_run _ commit (Nat.le_refl _),
      List.take_length, WorkQueue.flushQueue, processed, List.map_map]
    rfl

theorem getQueuedWorkItemInfo_wraps :
    ((WorkQueue.new ([] : List (String × Unit))).addCommitments
      (List.replicate (2 ^ 32) (([] : List Unit), ""))).getQueuedWorkItemInfo.numScalarMultiplications.toNat ≠
      (List.replicate (2 ^ 32) (([] : List Unit), "")).length := by
  rw [WorkQueue.count_addCommitments, List.length_replicate]
  decide

end Aztec3Circuits.Honk

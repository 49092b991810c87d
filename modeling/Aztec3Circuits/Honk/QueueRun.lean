import Aztec3Circuits.Honk.WorkQueue

/-! The `work_queue` over any sequence of calls. The queue holds exactly the `add_commitment`
calls made since the last `flush_queue` or `process_queue`, in order, so `process_queue` sends each
of those calls' commitments once. `put_scalar_multiplication_data` sends a result without taking
the item off the queue, so an item whose result was put is sent again by a later `process_queue`.
Whatever the order of the calls, the transcript only grows, and each entry it gains is under the
label of an `add_commitment` call and holds either the commitment of that call's scalars or a
result given to `put_scalar_multiplication_data`. -/
namespace Aztec3Circuits.Honk

variable {FF C : Type}

/-- A call a prover makes on its `work_queue`. -/
inductive WorkOp (FF C : Type)
  | addCommitment (polynomial : List FF) (label : String)
  | putScalarMultiplicationData (result : C) (workItemNumber : Nat)
  | flushQueue
  | processQueue

namespace WorkOp

/-- The arguments of an `add_commitment` call. -/
def call? : WorkOp FF C → Option (List FF × String)
  | .addCommitment polynomial label => some (polynomial, label)
  | _ => none

/-- `flush_queue` and `process_queue` empty the queue. -/
def clears : WorkOp FF C → Bool
  | .flushQueue | .processQueue => true
  | _ => false

end WorkOp

namespace WorkQueue

/-- One call on the queue, `commit` standing for `commitment_key.commit`. -/
def apply (commit : List FF → C) (q : WorkQueue FF C) : WorkOp FF C → WorkQueue FF C
  | .addCommitment polynomial label => q.addCommitment polynomial label
  | .putScalarMultiplicationData result workItemNumber => q.putScalarMultiplicationData result workItemNumber
  | .flushQueue => q.flushQueue
  | .processQueue => q.processQueue commit

def run (commit : List FF → C) (q : WorkQueue FF C) (ops : List (WorkOp FF C)) : WorkQueue FF C :=
  ops.foldl (apply commit) q

theorem run_append_singleton (commit : List FF → C) (q : WorkQueue FF C) (ops : List (WorkOp FF C))
    (op : WorkOp FF C) : run commit q (ops ++ [op]) = apply commit (run commit q ops) op := by
  rw [run, List.foldl_append]
  rfl

end WorkQueue

/-- The `add_commitment` calls made since the last call that emptied the queue, in order. -/
def pendingCalls (ops : List (WorkOp FF C)) : List (List FF × String) :=
  ((ops.reverse.takeWhile fun op => !op.clears).filterMap WorkOp.call?).reverse

theorem pendingCalls_append_singleton (ops : List (WorkOp FF C)) (op : WorkOp FF C) :
    pendingCalls (ops ++ [op]) = if op.clears then [] else pendingCalls ops ++ op.call?.toList := by
  cases op <;> simp [pendingCalls, WorkOp.clears, WorkOp.call?]

theorem mem_of_mem_pendingCalls {ops : List (WorkOp FF C)} {call : List FF × String}
    (pending : call ∈ pendingCalls ops) : call ∈ ops.filterMap WorkOp.call? := by
  obtain ⟨op, taken, made⟩ := List.mem_filterMap.mp (List.mem_reverse.mp pending)
  exact List.mem_filterMap.mpr ⟨op, List.mem_reverse.mp ((List.takeWhile_sublist _).subset taken), made⟩

theorem mem_of_findScalarMultiplication {items : List (WorkItem FF)} {i : Nat} {item : WorkItem FF}
    (found : findScalarMultiplication items i 0 = some item) : item ∈ items := by
  rw [findScalarMultiplication_eq items (Nat.zero_le i), Nat.sub_zero] at found
  exact List.getElem?_mem found

namespace WorkQueue

variable (commit : List FF → C)

theorem putScalarMultiplicationData_cases (q : WorkQueue FF C) (result : C) (i : Nat) :
    q.putScalarMultiplicationData result i = q ∨
      ∃ item ∈ q.workItemQueue,
        q.putScalarMultiplicationData result i = { q with transcript := q.transcript ++ [(item.label, result)] } := by
  unfold putScalarMultiplicationData
  split
  · next item found => exact .inr ⟨item, mem_of_findScalarMultiplication found, rfl⟩
  · exact .inl rfl

theorem processQueue_eq (q : WorkQueue FF C) :
    q.processQueue commit = ⟨[], q.transcript ++ q.workItemQueue.map (WorkItem.entry commit)⟩ := by
  rw [processQueue, send_foldl]

theorem run_workItemQueue (transcript : List (String × C)) (ops : List (WorkOp FF C)) :
    (run commit (new transcript) ops).workItemQueue = (pendingCalls ops).map WorkItem.ofCall := by
  induction ops using List.reverseRecOn with
  | nil => rfl
  | append_singleton ops op ih =>
    rw [run_append_singleton, pendingCalls_append_singleton]
    cases op with
    | addCommitment polynomial label =>
      rw [apply, addCommitment]
      simp [ih, WorkOp.clears, WorkOp.call?, WorkItem.ofCall]
    | putScalarMultiplicationData result i =>
      rcases putScalarMultiplicationData_cases (run commit (new transcript) ops) result i with same | ⟨_, _, put⟩
      · simp [apply, same, ih, WorkOp.clears, WorkOp.call?]
      · simp [apply, put, ih, WorkOp.clears, WorkOp.call?]
    | flushQueue => rfl
    | processQueue => simp [apply, processQueue_eq, WorkOp.clears]

/-- Where an entry of the transcript comes from: an `add_commitment` call of the run, under whose
label it is sent with the commitment of its scalars or with a result some
`put_scalar_multiplication_data` call was given. -/
def Sourced (ops : List (WorkOp FF C)) (entry : String × C) : Prop :=
  ∃ call ∈ ops.filterMap WorkOp.call?, entry.1 = call.2 ∧
    (entry.2 = commit call.1 ∨ ∃ i, WorkOp.putScalarMultiplicationData entry.2 i ∈ ops)

theorem Sourced.mono {ops : List (WorkOp FF C)} {entry : String × C} (sourced : Sourced commit ops entry)
    (op : WorkOp FF C) : Sourced commit (ops ++ [op]) entry := by
  obtain ⟨call, mem, label, value⟩ := sourced
  refine ⟨call, ?_, label, value.imp_right fun ⟨i, put⟩ => ⟨i, List.mem_append_left _ put⟩⟩
  rw [List.filterMap_append]
  exact List.mem_append_left _ mem

theorem run_transcript (transcript : List (String × C)) (ops : List (WorkOp FF C)) :
    ∃ sent, (run commit (new transcript) ops).transcript = transcript ++ sent ∧ ∀ e ∈ sent, Sourced commit ops e := by
  induction ops using List.reverseRecOn with
  | nil => exact ⟨[], (List.append_nil _).symm, by simp⟩
  | append_singleton ops op ih =>
    obtain ⟨sent, grown, sourced⟩ := ih
    have queued : ∀ item ∈ (run commit (new transcript) ops).workItemQueue,
        ∃ call ∈ (ops ++ [op]).filterMap WorkOp.call?, item = WorkItem.ofCall call := fun item mem => by
      rw [run_workItemQueue] at mem
      obtain ⟨call, pending, rfl⟩ := List.mem_map.mp mem
      refine ⟨call, ?_, rfl⟩
      rw [List.filterMap_append]
      exact List.mem_append_left _ (mem_of_mem_pendingCalls pending)
    have kept : ∀ e ∈ sent, Sourced commit (ops ++ [op]) e := fun e mem => Sourced.mono commit (sourced e mem) op
    rw [run_append_singleton]
    cases op with
    | addCommitment polynomial label => exact ⟨sent, grown, kept⟩
    | flushQueue => exact ⟨sent, grown, kept⟩
    | putScalarMultiplicationData result i =>
      rcases putScalarMultiplicationData_cases (run commit (new transcript) ops) result i with same | ⟨item, mem, put⟩
      · exact ⟨sent, by rw [apply, same, grown], kept⟩
      · obtain ⟨call, made, rfl⟩ := queued item mem
        refine ⟨sent ++ [(call.2, result)], by rw [apply, put, grown, List.append_assoc]; rfl,
          List.forall_mem_append.mpr ⟨kept, List.forall_mem_singleton.mpr ?_⟩⟩
        exact ⟨call, made, rfl, .inr ⟨i, List.mem_append_right _ (List.mem_singleton_self _)⟩⟩
    | processQueue =>
      refine ⟨sent ++ (run commit (new transcript) ops).workItemQueue.map (WorkItem.entry commit),
        by rw [apply, processQueue_eq, grown, List.append_assoc], List.forall_mem_append.mpr ⟨kept, ?_⟩⟩
      rw [List.forall_mem_map]
      intro item inQueue
      obtain ⟨call, made, rfl⟩ := queued item inQueue
      exact ⟨call, made, rfl, .inl rfl⟩

end WorkQueue

/-- Over any sequence of calls on a new queue, the queue holds the `add_commitment` calls made
since the last `flush_queue` or `process_queue`, and a `process_queue` then sends their
commitments under their labels, in order, and empties it; and the transcript only grows, each
entry it gains being under the label of an `add_commitment` call of the run and holding the
commitment of that call's scalars or a result given to `put_scalar_multiplication_data`. -/
theorem workQueue_run_delivers (commit : List FF → C) (transcript : List (String × C)) (ops : List (WorkOp FF C)) :
    (WorkQueue.run commit (WorkQueue.new transcript) ops).workItemQueue = (pendingCalls ops).map WorkItem.ofCall ∧
      WorkQueue.run commit (WorkQueue.new transcript) (ops ++ [.processQueue]) =
        ⟨[], (WorkQueue.run commit (WorkQueue.new transcript) ops).transcript ++
          (pendingCalls ops).map fun call => (call.2, commit call.1)⟩ ∧
      ∃ sent, (WorkQueue.run commit (WorkQueue.new transcript) ops).transcript = transcript ++ sent ∧
        ∀ e ∈ sent, WorkQueue.Sourced commit ops e := by
  have queue := WorkQueue.run_workItemQueue commit transcript ops
  refine ⟨queue, ?_, WorkQueue.run_transcript commit transcript ops⟩
  rw [WorkQueue.run_append_singleton, WorkQueue.apply, WorkQueue.processQueue_eq, queue, List.map_map]
  rfl

/-- A result put for the one queued item, then `process_queue`: the label is sent twice. -/
example : (WorkQueue.run (fun _ => 7) (WorkQueue.new []) [WorkOp.addCommitment [1, 2] "W_1",
    .putScalarMultiplicationData 5 0, .processQueue]).transcript = [("W_1", 5), ("W_1", 7)] := rfl

end Aztec3Circuits.Honk

import Mathlib.Data.UInt
import Mathlib.Algebra.BigOperators.Group.List
import Aztec3Circuits.Folds

/-! `UltraComposer::get_num_gates`: before the circuit is finalised, the number of gates it will
have, counted from the gates already made and from the ROM arrays, RAM arrays and range lists that
finalisation turns into gates. The timestamps of each RAM array are range-checked up to its last
timestamp `access_count - 1`: its check list is counted unless a range list with that target
exists, a test made against the range lists only, so RAM arrays that share a last timestamp are
each counted. The counters are `size_t`, kept here as `UInt64`: every sum is taken modulo
`2 ^ 64`, and a RAM array without accesses has the last timestamp `2 ^ 64 - 1`. -/
namespace Aztec3Circuits.Composer

def uninitializedMemoryRecord : UInt32 := 4294967295

def numberOfGatesPerRamAccess : UInt64 := 2

def numberOfArithmeticGatesPerRamArray : UInt64 := 1

/-- `ultra_settings::program_width`: the four wires `W_1` to `W_4` of the Ultra manifest. -/
def gateWidth : UInt64 := 4

/-- `RomTranscript`: the two value witnesses of each index, and the number of read records; the
records' fields are read by none of the modelled functions. -/
structure RomTranscript where
  state : List (UInt32 × UInt32)
  records : UInt64

/-- `RamTranscript`: the value witness of each index, the number of records and `access_count`. -/
structure RamTranscript where
  state : List UInt32
  records : UInt64
  accessCount : UInt64

/-- `RangeList`: its target and the variables it range-checks; its tags are not read here. -/
structure RangeList where
  targetRange : UInt64
  variableIndices : List Nat

/-- A `plookup::BasicTable` as the circuit size reads it: `size` and `lookup_gates.size()`. -/
structure BasicTable where
  size : UInt64
  lookupGates : UInt64

/-- The members of `UltraComposer` that the gate counts read. `range_lists` is a `std::map` from
the target to its list, given here by its values in key order. -/
structure UltraCircuit where
  numGates : UInt64
  circuitFinalised : Bool
  romArrays : List RomTranscript
  ramArrays : List RamTranscript
  rangeLists : List RangeList
  publicInputs : List Nat
  lookupTables : List BasicTable

def paddedListSize (size : UInt64) : UInt64 :=
  let padding := (gateWidth - size % gateWidth) % gateWidth
  size + if size = gateWidth then padding + gateWidth else padding

def rangeListGates (size : UInt64) : UInt64 := paddedListSize size / gateWidth + 1

/-- `max_timestamp = access_count - 1` of a RAM array. -/
def maxTimestamp (ram : RamTranscript) : UInt64 := ram.accessCount - 1

def romStep (romcount : UInt64) (rom : RomTranscript) : UInt64 :=
  rom.state.foldl (fun romcount entry => if entry.1 = uninitializedMemoryRecord then romcount + 2 else romcount)
    romcount + rom.records + 1

structure RamScan where
  ramcount : UInt64
  ramTimestamps : List UInt64
  ramRangeSizes : List UInt64
  ramRangeExists : List Bool

def ramStep (scan : RamScan) (ram : RamTranscript) : RamScan :=
  let ramcount := ram.state.foldl
    (fun ramcount entry => if entry = uninitializedMemoryRecord then ramcount + numberOfGatesPerRamAccess else ramcount)
    scan.ramcount
  { ramcount := ramcount + ram.records * numberOfGatesPerRamAccess + numberOfArithmeticGatesPerRamArray
    ramTimestamps := scan.ramTimestamps ++ [maxTimestamp ram]
    ramRangeSizes := scan.ramRangeSizes ++ [rangeListGates (maxTimestamp ram)]
    ramRangeExists := scan.ramRangeExists ++ [false] }

def flagTimestamps (ramTimestamps : List UInt64) (target : UInt64) (ramRangeExists : List Bool) : List Bool :=
  (List.range ramTimestamps.length).foldl
    (fun ramRangeExists i => if target = ramTimestamps.getD i 0 then ramRangeExists.set i true else ramRangeExists)
    ramRangeExists

def rangeStep (ramTimestamps : List UInt64) (state : UInt64 × List Bool) (list : RangeList) : UInt64 × List Bool :=
  (state.1 + rangeListGates list.variableIndices.length.toUInt64,
    flagTimestamps ramTimestamps list.targetRange state.2)

/-- `get_num_gates_split_into_components(count, rangecount, romcount, ramcount)`: `count` is
overwritten, the other three are added to. -/
def getNumGatesSplitIntoComponents (circuit : UltraCircuit) (rangecount romcount ramcount : UInt64) :
    UInt64 × UInt64 × UInt64 × UInt64 :=
  let romcount := circuit.romArrays.foldl romStep romcount
  let scan := circuit.ramArrays.foldl ramStep ⟨ramcount, [], [], []⟩
  let (rangecount, ramRangeExists) :=
    circuit.rangeLists.foldl (rangeStep scan.ramTimestamps) (rangecount, scan.ramRangeExists)
  let rangecount := (List.range scan.ramRangeSizes.length).foldl
    (fun rangecount i => if !ramRangeExists.getD i false then rangecount + scan.ramRangeSizes.getD i 0 else rangecount)
    rangecount
  (circuit.numGates, rangecount, romcount, scan.ramcount)

def getNumGates (circuit : UltraCircuit) : UInt64 :=
  if circuit.circuitFinalised then circuit.numGates
  else
    let (count, rangecount, romcount, ramcount) := getNumGatesSplitIntoComponents circuit 0 0 0
    count + romcount + ramcount + rangecount

def getTotalCircuitSize (circuit : UltraCircuit) : UInt64 :=
  let (tablesSize, lookupsSize) := circuit.lookupTables.foldl
    (fun sizes table => (sizes.1 + table.size, sizes.2 + table.lookupGates)) (0, 0)
  max (tablesSize + lookupsSize) (getNumGates circuit + circuit.publicInputs.length.toUInt64)

section Sums

variable {α : Type}

theorem foldl_add_sum (f : α → UInt64) (step : UInt64 → α → UInt64) (adds : ∀ acc a, step acc a = acc + f a)
    (l : List α) (acc : UInt64) : l.foldl step acc = acc + (l.map f).sum := by
  induction l generalizing acc with
  | nil => exact (add_zero acc).symm
  | cons a rest ih => rw [List.foldl_cons, ih, adds, List.map_cons, List.sum_cons, add_assoc]

theorem foldl_add_ite (p : α → Prop) [DecidablePred p] (k : UInt64) (l : List α) (acc : UInt64) :
    l.foldl (fun acc a => if p a then acc + k else acc) acc = acc + (l.map fun a => if p a then k else 0).sum :=
  foldl_add_sum _ _ (fun acc a => by split_ifs <;> simp) l acc

theorem foldl_range_filter (xs : List α) (d : α) (p : α → Bool) (f : α → UInt64) (step : UInt64 → Nat → UInt64)
    (adds : ∀ acc, ∀ i < xs.length, step acc i = if p (xs.getD i d) then acc + f (xs.getD i d) else acc)
    (acc : UInt64) : (List.range xs.length).foldl step acc = acc + ((xs.filter p).map f).sum := by
  induction xs using List.reverseRecOn generalizing acc with
  | nil => exact (add_zero acc).symm
  | append_singleton ys x ih =>
    have earlier : ∀ acc, ∀ i < ys.length,
        step acc i = if p (ys.getD i d) then acc + f (ys.getD i d) else acc := fun acc i hi => by
      rw [adds acc i (by simp; omega), List.getD_append _ _ _ _ hi]
    rw [List.length_append, List.length_singleton, List.range_succ, List.foldl_append, ih earlier,
      List.foldl_cons, List.foldl_nil, adds _ _ (by simp), List.getD_append_right _ _ _ _ le_rfl, Nat.sub_self,
      List.getD_cons_zero, List.filter_append, List.map_append, List.sum_append]
    by_cases keep : p x <;> simp [keep, add_assoc]

end Sums

def romArrayGates (rom : RomTranscript) : UInt64 :=
  (rom.state.map fun entry => if entry.1 = uninitializedMemoryRecord then 2 else 0).sum + rom.records + 1

def ramArrayGates (ram : RamTranscript) : UInt64 :=
  (ram.state.map fun entry => if entry = uninitializedMemoryRecord then numberOfGatesPerRamAccess else 0).sum +
    ram.records * numberOfGatesPerRamAccess + numberOfArithmeticGatesPerRamArray

theorem romStep_eq (romcount : UInt64) (rom : RomTranscript) : romStep romcount rom = romcount + romArrayGates rom := by
  rw [romStep, foldl_add_ite, romArrayGates, add_assoc, add_assoc, add_assoc]

theorem foldl_ramStep (rams : List RamTranscript) (scan : RamScan) :
    rams.foldl ramStep scan =
      ⟨scan.ramcount + (rams.map ramArrayGates).sum, scan.ramTimestamps ++ rams.map maxTimestamp,
        scan.ramRangeSizes ++ rams.map (fun ram => rangeListGates (maxTimestamp ram)),
        scan.ramRangeExists ++ rams.map fun _ => false⟩ := by
  induction rams generalizing scan with
  | nil => simp
  | cons ram rest ih =>
    rw [List.foldl_cons, ih]
    simp only [ramStep, foldl_add_ite, List.map_cons, List.sum_cons, List.append_assoc, List.singleton_append,
      ramArrayGates, add_assoc]

theorem flagTimestamps_getD (ts : List UInt64) (target : UInt64) (flags : List Bool) (sized : flags.length = ts.length) :
    (flagTimestamps ts target flags).length = ts.length ∧ ∀ i < ts.length,
      (flagTimestamps ts target flags).getD i false = (flags.getD i false || decide (target = ts.getD i 0)) := by
  suffices general : ∀ n ≤ ts.length,
      ((List.range n).foldl (fun flags i => if target = ts.getD i 0 then flags.set i true else flags) flags).length =
          ts.length ∧ ∀ i < ts.length,
        ((List.range n).foldl (fun flags i => if target = ts.getD i 0 then flags.set i true else flags) flags).getD i false =
          (flags.getD i false || decide (i < n) && decide (target = ts.getD i 0)) by
    refine ⟨(general _ le_rfl).1, fun i hi => ?_⟩
    rw [flagTimestamps, (general _ le_rfl).2 i hi]
    simp [hi]
  intro n
  induction n with
  | zero => simp [sized]
  | succ n ih =>
    intro hn
    obtain ⟨length, entries⟩ := ih (by omega)
    rw [List.range_succ, List.foldl_append, List.foldl_cons, List.foldl_nil]
    split_ifs with hit
    · refine ⟨by rw [List.length_set, length], fun i hi => ?_⟩
      rw [getD_set _ (by omega)]
      split_ifs with same
      · simp [same, hit]
      · rw [entries i hi]
        simp [show i < n ↔ i < n + 1 by omega]
    · refine ⟨length, fun i hi => ?_⟩
      rw [entries i hi]
      by_cases same : i = n
      · subst same
        rw [decide_eq_false hit]
        simp
      · simp [show i < n ↔ i < n + 1 by omega]

theorem foldl_rangeStep (ts : List UInt64) (lists : List RangeList) (rangecount : UInt64) (flags : List Bool)
    (sized : flags.length = ts.length) :
    (lists.foldl (rangeStep ts) (rangecount, flags)).1 =
        rangecount + (lists.map fun list => rangeListGates list.variableIndices.length.toUInt64).sum ∧
      (lists.foldl (rangeStep ts) (rangecount, flags)).2.length = ts.length ∧
      ∀ i < ts.length, (lists.foldl (rangeStep ts) (rangecount, flags)).2.getD i false =
        (flags.getD i false || lists.any fun list => list.targetRange = ts.getD i 0) := by
  induction lists generalizing rangecount flags with
  | nil => simp [sized]
  | cons list rest ih =>
    obtain ⟨length, entries⟩ := flagTimestamps_getD ts list.targetRange flags sized
    obtain ⟨count, length', entries'⟩ := ih (rangecount + rangeListGates list.variableIndices.length.toUInt64)
      (flagTimestamps ts list.targetRange flags) length
    refine ⟨by rw [List.foldl_cons, rangeStep, count, List.map_cons, List.sum_cons, add_assoc], length', fun i hi => ?_⟩
    rw [List.foldl_cons, rangeStep, entries' i hi, entries i hi, List.any_cons, Bool.or_assoc]

/-- Before finalisation, `get_num_gates()` counts the gates made, those of each ROM and RAM array
and of each range list, and the timestamp checks of each RAM array whose last timestamp is the
target of no range list: arrays that share a last timestamp are counted once each. -/
theorem getNumGates_eq (circuit : UltraCircuit) (unfinalised : circuit.circuitFinalised = false) :
    getNumGates circuit = circuit.numGates + (circuit.romArrays.map romArrayGates).sum +
      (circuit.ramArrays.map ramArrayGates).sum +
      ((circuit.rangeLists.map fun list => rangeListGates list.variableIndices.length.toUInt64).sum +
        ((circuit.ramArrays.filter fun ram => !circuit.rangeLists.any fun list => list.targetRange = maxTimestamp ram).map
          fun ram => rangeListGates (maxTimestamp ram)).sum) := by
  obtain ⟨count, length, entries⟩ := foldl_rangeStep (circuit.ramArrays.map maxTimestamp) circuit.rangeLists 0
    (circuit.ramArrays.map fun _ => false) (by simp)
  have ram := foldl_ramStep circuit.ramArrays ⟨0, [], [], []⟩
  simp only [List.nil_append, zero_add] at ram count entries
  rw [getNumGates, if_neg (by simp [unfinalised]), getNumGatesSplitIntoComponents]
  simp only [foldl_add_sum romArrayGates romStep (fun acc rom => romStep_eq acc rom), ram, zero_add,
    List.length_map]
  rw [count, foldl_range_filter circuit.ramArrays ⟨[], 0, 0⟩ _ (fun ram => rangeListGates (maxTimestamp ram)) _ ?_]
  intro acc i hi
  rw [entries i (by simpa using hi), getD_map_of_lt _ hi _ ⟨[], 0, 0⟩, getD_map_of_lt _ hi _ ⟨[], 0, 0⟩,
    getD_map_of_lt _ hi _ ⟨[], 0, 0⟩]
  simp

def tiedCircuit : UltraCircuit where
  numGates := 10
  circuitFinalised := false
  romArrays := [⟨[(uninitializedMemoryRecord, uninitializedMemoryRecord), (1, 2)], 3⟩]
  ramArrays := [⟨[1, 2], 4, 6⟩, ⟨[uninitializedMemoryRecord], 2, 6⟩, ⟨[], 0, 0⟩]
  rangeLists := [⟨3, [1, 2, 3, 4]⟩]
  publicInputs := [0]
  lookupTables := []

theorem getNumGates_eq_tied :
    tiedCircuit.circuitFinalised = false ∧
      getNumGates tiedCircuit = tiedCircuit.numGates + (tiedCircuit.romArrays.map romArrayGates).sum +
        (tiedCircuit.ramArrays.map ramArrayGates).sum +
        ((tiedCircuit.rangeLists.map fun list => rangeListGates list.variableIndices.length.toUInt64).sum +
          ((tiedCircuit.ramArrays.filter fun ram =>
              !tiedCircuit.rangeLists.any fun list => list.targetRange = maxTimestamp ram).map
            fun ram => rangeListGates (maxTimestamp ram)).sum) :=
  ⟨rfl, getNumGates_eq tiedCircuit rfl⟩

/-- Both tied arrays count three timestamp gates, and the unaccessed one a single gate. -/
example : getNumGates tiedCircuit = 43 := by decide

end Aztec3Circuits.Composer

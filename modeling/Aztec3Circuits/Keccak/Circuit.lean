import Mathlib.Data.ZMod.Basic
import Aztec3Circuits.Keccak.Spec

/-! `stdlib::keccak<UltraComposer>`: Keccak-256 as circuit witnesses over a prime field `p`. A
lane is held in the sparse base-11 form `∑ bit k * 11 ^ k`, so that xor is addition followed by a
digit-parity normalisation, read through lookup tables. The tables and the constants of
`keccak.hpp` are not part of the sources; they are modelled as the comments of `keccak.cpp` and
its tests describe them. Only witness values are modelled: the gates that constrain them are
left out. -/
namespace Aztec3Circuits.Keccak

def bit (s : BitVec 64) (k : Nat) : Nat := (s.getLsbD k).toNat

def laneSparse (s : BitVec 64) : Nat := digitSum 11 64 (bit s)

/-- Modelled from the spec: `SPARSE_RC` of `keccak.hpp`, not part of the sources, the round
constants in sparse form. -/
def sparseRc (round : Nat) : Nat := laneSparse (roundConstant round)

/-- Modelled from the spec: `CHI_OFFSET` of `keccak.hpp`, not part of the sources, the sparse form
of the all-ones lane. -/
def chiOffset : Nat := digitSum 11 64 fun _ => 1

/-- Modelled from the spec: `Rho::MAXIMUM_MULTITABLE_BITS` of the lookup tables, not part of the
sources; rho reads 8-digit slices. -/
def maxBitsPerTable : Nat := 8

/-- Modelled from the spec: the `KECCAK_THETA_OUTPUT` read, the parity of each of the 64 base-11
digits of its key. -/
def thetaOutput (key : Nat) : Nat := lookupDigits 11 11 64 (· % 2) key

/-- Modelled from the spec: the table that `KECCAK_CHI_OUTPUT` applies to each digit
`1 + 2a - b + c`, giving `a ⊕ (¬b ∧ c)`. -/
def chiNormalization (digit : Nat) : Nat := [0, 0, 1, 1, 0].getD digit 0

/-- Modelled from the spec: the `KECCAK_CHI_OUTPUT` accumulators `C2[0]` and the last `C3`, the
normalised value and its most significant bit. -/
def chiOutput (key : Nat) : Nat × Nat :=
  (lookupDigits 11 11 64 chiNormalization key, chiNormalization (key / 11 ^ 63 % 11))

/-- Modelled from the spec: the `KECCAK_FORMAT_INPUT` accumulators, the sparse form of a 64-bit
integer and its top bit. -/
def formatInput (key : Nat) : Nat × Nat := (lookupDigits 2 11 64 id key, key / 2 ^ 63 % 2)

/-- Modelled from the spec: the `KECCAK_FORMAT_OUTPUT` read, the 64-bit integer of a sparse
value. -/
def formatOutput (key : Nat) : Nat := lookupDigits 11 2 64 id key

/-- Modelled from the spec: the modulus of `barretenberg::fr`, the BN254 scalar field that
`UltraComposer` builds its witnesses in; its `Params` are not part of the sources. -/
def frModulus : Nat := 21888242871839275222246405745257275088548364400416034343698204186575808495617

variable (p : Nat)

/-- `keccak_state`: the 25 sparse lanes, their most significant bits, and their twisted forms,
each a `std::array` of 25 entries. -/
structure KeccakState where
  state : List (ZMod p)
  stateMsb : List (ZMod p)
  twistedState : List (ZMod p)
  state_length : state.length = 25
  stateMsb_length : stateMsb.length = 25
  twistedState_length : twistedState.length = 25

def KeccakState.empty : KeccakState p :=
  ⟨List.replicate 25 0, List.replicate 25 0, List.replicate 25 0, List.length_replicate _ _,
    List.length_replicate _ _, List.length_replicate _ _⟩

variable {p}

def computeTwistedState (internal : KeccakState p) : KeccakState p :=
  { internal with
    twistedState := (List.range 25).map fun i => internal.state.getD i 0 * 11 + internal.stateMsb.getD i 0
    twistedState_length := by simp }

def thetaColumns (internal : KeccakState p) : List (ZMod p) :=
  (List.range 5).map fun i =>
    internal.twistedState.getD i 0 + internal.twistedState.getD (5 + i) 0 +
      internal.twistedState.getD (10 + i) 0 + internal.twistedState.getD (15 + i) 0 +
      internal.twistedState.getD (20 + i) 0

def thetaD (internal : KeccakState p) : List (ZMod p) :=
  (List.range 5).map fun i =>
    (thetaColumns internal).getD ((i + 4) % 5) 0 + (thetaColumns internal).getD ((i + 1) % 5) 0 * 11

def thetaSlices (dNative : Nat) : Nat × Nat × Nat :=
  let lo := dNative % 11
  let quotient := dNative / 11
  let hi := quotient / 11 ^ 64
  let mid := quotient - hi * 11 ^ 64
  (lo, mid, hi)

def theta (internal : KeccakState p) : KeccakState p :=
  let D := (thetaD internal).map fun d => ((thetaOutput (thetaSlices d.val).2.1 : Nat) : ZMod p)
  { internal with
    state := (List.range 25).map fun k => internal.state.getD k 0 + D.getD (k % 5) 0
    state_length := by simp }

/-- `plookup::ReadData`: the three accumulator columns and the key entries. -/
structure ReadData where
  c1 : List Nat
  c2 : List Nat
  c3 : List Nat
  keyEntries : List ((Nat × Nat) × (Nat × Nat))

def bitSlice (limbBits i : Nat) : Nat :=
  let numBitsProcessed := i * maxBitsPerTable
  if numBitsProcessed + maxBitsPerTable > limbBits then limbBits % maxBitsPerTable else maxBitsPerTable

def lookupSlice (limbBits : Nat) (acc : ReadData × Nat × Nat) (i : Nat) : ReadData × Nat × Nat :=
  let (lookup, input, normalized) := acc
  let divisor := 11 ^ bitSlice limbBits i
  let msbDivisor := divisor / 11
  let normalizedSlice := normalized % divisor
  let normalizedMsb := normalizedSlice / msbDivisor
  let inputSlice := input % divisor
  ({ c1 := lookup.c1 ++ [input]
     c2 := lookup.c2 ++ [normalized]
     c3 := lookup.c3 ++ [normalizedMsb]
     keyEntries := lookup.keyEntries ++ [((inputSlice, 0), (normalizedSlice, normalizedMsb))] },
    input / divisor, normalized / divisor)

def computeLookupWitnessesForLimb (limbBits numLookups : Nat) (lookup : ReadData) (input normalized : Nat) :
    ReadData × Nat × Nat :=
  (List.range numLookups).foldl (lookupSlice limbBits) (lookup, input, normalized)

def numTables (bits : Nat) : Nat := bits / maxBitsPerTable + if bits % maxBitsPerTable > 0 then 1 else 0

def rotateReadData (laneIndex input : Nat) : ReadData :=
  let leftBits := rotation laneIndex
  let rightBits := 64 - rotation laneIndex
  let (left, right) := (input / 11 ^ rightBits, input % 11 ^ rightBits)
  let (lookup, rest, _) := computeLookupWitnessesForLimb rightBits (numTables rightBits) ⟨[], [], [], []⟩
    input (normalizeSparse right)
  (computeLookupWitnessesForLimb leftBits (numTables leftBits) lookup rest (normalizeSparse left)).1

/-- `normalize_and_rotate<laneIndex>(limb, msb)`: the normalised limb rotated left by
`ROTATIONS[laneIndex]` digits, and the new `msb`, read from the accumulators. -/
def normalizeAndRotate (laneIndex : Nat) (limb : ZMod p) : ZMod p × ZMod p :=
  let lookup := rotateReadData laneIndex limb.val
  let numLeftTables := numTables (rotation laneIndex)
  let numRightTables := numTables (64 - rotation laneIndex)
  let msb : ZMod p := lookup.c3.getD (numLeftTables + numRightTables - 1) 0
  let rightOutput : ZMod p := lookup.c2.getD 0 0
  if numLeftTables = 0 then (rightOutput, msb)
  else
    let leftOutput : ZMod p := lookup.c2.getD numRightTables 0
    (leftOutput + rightOutput * ((11 ^ rotation laneIndex : Nat) : ZMod p), msb)

def rho (internal : KeccakState p) : KeccakState p :=
  { internal with
    state := (List.range 25).map fun i => (normalizeAndRotate i (internal.state.getD i 0)).1
    stateMsb := (List.range 25).map fun i => (normalizeAndRotate i (internal.state.getD i 0)).2
    state_length := by simp
    stateMsb_length := by simp }

def piWrites : List (Nat × Nat) := (List.range 5).flatMap fun y => (List.range 5).map fun x => (y, x)

/-- `pi`: `B` is a copy of the lanes; lane `B[5y + x]` moves to `(u, v) = (y, 2x + 3y)`. -/
def pi (internal : KeccakState p) : KeccakState p :=
  let B := internal.state
  let moved := piWrites.foldl
    (fun (state : Nat → ZMod p) (yx : Nat × Nat) =>
      Function.update state ((2 * yx.2 + 3 * yx.1) % 5 * 5 + (0 * yx.2 + 1 * yx.1) % 5) (B.getD (5 * yx.1 + yx.2) 0))
    (internal.state.getD · 0)
  { internal with state := (List.range 25).map moved, state_length := by simp }

def writeLane (lanes : (Nat → ZMod p) × (Nat → ZMod p)) (j : Nat) (read : Nat × Nat) :
    (Nat → ZMod p) × (Nat → ZMod p) :=
  (Function.update lanes.1 j read.1, Function.update lanes.2 j read.2)

def chiInput (lanes : Nat → ZMod p) (y x : Nat) : ZMod p :=
  let A := lanes (y * 5 + x)
  let B := lanes (y * 5 + (x + 1) % 5)
  let C := lanes (y * 5 + (x + 2) % 5)
  A + A + (chiOffset : ZMod p) + -B + C

def chiRow (lanes : (Nat → ZMod p) × (Nat → ZMod p)) (y : Nat) : (Nat → ZMod p) × (Nat → ZMod p) :=
  let laneOutputs := (List.range 5).map fun x => chiInput lanes.1 y x
  (List.range 5).foldl (fun lanes x => writeLane lanes (y * 5 + x) (chiOutput (laneOutputs.getD x 0).val)) lanes

def chi (internal : KeccakState p) : KeccakState p :=
  let lanes := (List.range 5).foldl chiRow (fun j => internal.state.getD j 0, fun j => internal.stateMsb.getD j 0)
  { internal with
    state := (List.range 25).map lanes.1
    stateMsb := (List.range 25).map lanes.2
    state_length := by simp
    stateMsb_length := by simp }

def iota (internal : KeccakState p) (round : Nat) : KeccakState p :=
  let xorResult := internal.state.getD 0 0 + (sparseRc round : ZMod p)
  let normalized := normalizeAndRotate 0 xorResult
  let next := { internal with
    state := internal.state.set 0 normalized.1
    stateMsb := internal.stateMsb.set 0 normalized.2
    state_length := by simp [internal.state_length]
    stateMsb_length := by simp [internal.stateMsb_length] }
  if round ≠ 23 then computeTwistedState next else next

def keccakf1600 (internal : KeccakState p) : KeccakState p :=
  (List.range 24).foldl (fun internal i => iota (chi (pi (rho (theta internal)))) i) internal

/-- Modelled from the spec: `BLOCK_SIZE` of `keccak.hpp`, not part of the sources, the 136-byte
rate of Keccak-256. -/
def blockSize : Nat := 136

/-- Modelled from the spec: `WORD_SIZE` of `keccak.hpp`, not part of the sources, the bytes of a
lane. -/
def wordSize : Nat := 8

def limbsPerBlock : Nat := blockSize / wordSize

/-- One block of `sponge_absorb`: the first block sets the lanes, a later one adds its lanes
and normalises them; then the twisted lanes and the permutation. -/
def absorbBlock (inputBuffer msbBuffer : List (ZMod p)) (internal : KeccakState p) (i : Nat) :
    KeccakState p :=
  let loaded : KeccakState p :=
    if i = 0 then
      { internal with
        state := (List.range 25).map fun j => if j < limbsPerBlock then inputBuffer.getD j 0 else 0
        stateMsb := (List.range 25).map fun j => if j < limbsPerBlock then msbBuffer.getD j 0 else 0
        state_length := by simp
        stateMsb_length := by simp }
    else
      let added := fun j => normalizeAndRotate 0
        (internal.state.getD j 0 + inputBuffer.getD (i * limbsPerBlock + j) 0)
      { internal with
        state := (List.range 25).map fun j => if j < limbsPerBlock then (added j).1 else internal.state.getD j 0
        stateMsb := (List.range 25).map fun j =>
          if j < limbsPerBlock then (added j).2 else internal.stateMsb.getD j 0
        state_length := by simp
        stateMsb_length := by simp }
  keccakf1600 (computeTwistedState loaded)

def spongeAbsorb (internal : KeccakState p) (inputBuffer msbBuffer : List (ZMod p)) : KeccakState p :=
  (List.range (inputBuffer.length / (blockSize / 8))).foldl (absorbBlock inputBuffer msbBuffer) internal

/-- `byte_array(field, num_bytes)`: the big-endian bytes of a value. -/
def bytesOfValue (v numBytes : Nat) : List Nat :=
  (List.range numBytes).map fun k => v / 256 ^ (numBytes - 1 - k) % 256

/-- `field_t(byte_array)`: the big-endian value of bytes. -/
def valueOfBytes (bytes : List Nat) : Nat :=
  digitSum 256 bytes.length fun k => bytes.getD (bytes.length - 1 - k) 0

def spongeSqueeze (internal : KeccakState p) : List Nat :=
  (List.range 4).flatMap fun i =>
    let limbBytes := bytesOfValue (formatOutput (internal.state.getD i 0).val) 8
    (List.range 8).map fun j => limbBytes.getD (7 - j) 0

/-- The `block_bytes` buffer of `hash`: the input, zeros up to a whole number of blocks, then
`set_byte(input_size, 0x1)` and `set_byte(size - 1, 0x80)`. -/
def paddedBytes (input : List Nat) : List Nat :=
  let inputSize := input.length
  let blocks := inputSize / blockSize
  let blocksLength := blockSize * (blocks + 1)
  let blockBytes := input ++ List.replicate (blocksLength - inputSize) 0
  let marked := blockBytes.set inputSize 0x1
  marked.set (marked.length - 1) 0x80

def swapGroup (bytes : List Nat) (g : Nat) : List Nat :=
  let temp := (List.range 8).map fun j => bytes.getD (8 * g + j) 0
  (List.range 8).foldl (fun bytes j => bytes.set (8 * g + j) (temp.getD (7 - j) 0)) bytes

def swapBytes (bytes : List Nat) : List Nat :=
  (List.range ((bytes.length + 7) / 8)).foldl swapGroup bytes

def convertedLimbs (blockBytes : List Nat) : List (Nat × Nat) :=
  let byteSize := blockBytes.length
  (List.range (byteSize / wordSize)).map fun i =>
    let sliced :=
      if i * wordSize + wordSize > byteSize then
        let sliceSize := byteSize - i * wordSize
        valueOfBytes ((blockBytes.drop (i * wordSize)).take sliceSize) * 2 ^ ((wordSize - sliceSize) * 8)
      else valueOfBytes ((blockBytes.drop (i * wordSize)).take wordSize)
    formatInput sliced

variable (p) in
def hash (input : List UInt8) : List Nat :=
  let limbs := convertedLimbs (swapBytes (paddedBytes (input.map (·.toNat))))
  spongeSqueeze (spongeAbsorb (KeccakState.empty p) (limbs.map fun l => (l.1 : ZMod p))
    (limbs.map fun l => (l.2 : ZMod p)))

end Aztec3Circuits.Keccak

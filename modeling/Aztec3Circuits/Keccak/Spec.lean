import Mathlib.Data.List.GetD
import Aztec3Circuits.Keccak.Digits

/-! Keccak-256 as the sponge over Keccak-f[1600], written from the Keccak reference: a state is
25 lanes of 64 bits, lane `x + 5 * y` at column `x` and row `y`; the permutation is 24 rounds of
θ, ρ, π, χ and ι; the original Keccak padding appends `0x01`, zeros and `0x80` (one byte `0x81`
when only one byte is left), blocks of 136 bytes are read as 17 little-endian lanes, and the
digest is the first four lanes, little-endian. This is what the circuit is meant to compute. -/
namespace Aztec3Circuits.Keccak

/-- Modelled from the spec: `ROTATIONS` of `keccak.hpp`, not part of the sources, Keccak's
rotation offset of lane `x + 5 * y`. -/
def rotations : List Nat :=
  [0, 1, 62, 28, 27, 36, 44, 6, 55, 20, 3, 10, 43, 25, 39, 41, 45, 15, 21, 8, 18, 2, 61, 56, 14]

/-- Modelled from the spec: `RC` of `keccak.hpp`, not part of the sources, Keccak's round
constants. -/
def roundConstants : List (BitVec 64) :=
  [0x0000000000000001, 0x0000000000008082, 0x800000000000808A, 0x8000000080008000,
    0x000000000000808B, 0x0000000080000001, 0x8000000080008081, 0x8000000000008009,
    0x000000000000008A, 0x0000000000000088, 0x0000000080008009, 0x000000008000000A,
    0x000000008000808B, 0x800000000000008B, 0x8000000000008089, 0x8000000000008003,
    0x8000000000008002, 0x8000000000000080, 0x000000000000800A, 0x800000008000000A,
    0x8000000080008081, 0x8000000000008080, 0x0000000080000001, 0x8000000080008008]

def rotation (i : Nat) : Nat := rotations.getD i 0

def roundConstant (round : Nat) : BitVec 64 := roundConstants.getD round 0

theorem rotation_lt (i : Nat) : rotation i < 64 := by
  unfold rotation
  by_cases hi : i < 25
  · rw [List.getD_eq_getElem _ _ (by simpa [rotations] using hi)]
    exact List.all_eq_true.mp (show rotations.all (· < 64) = true by decide) _ (List.getElem_mem _)
      |> of_decide_eq_true
  · rw [List.getD_eq_default _ _ (by simp [rotations]; omega)]
    decide

namespace Spec

/-! A state is the list of its 25 lanes; `A.getD i 0` is lane `i`. -/

def parity (A : List (BitVec 64)) (x : Nat) : BitVec 64 :=
  A.getD x 0 ^^^ A.getD (x + 5) 0 ^^^ A.getD (x + 10) 0 ^^^ A.getD (x + 15) 0 ^^^ A.getD (x + 20) 0

def thetaEffect (A : List (BitVec 64)) (x : Nat) : BitVec 64 :=
  parity A ((x + 4) % 5) ^^^ (parity A ((x + 1) % 5)).rotateLeft 1

def theta (A : List (BitVec 64)) : List (BitVec 64) :=
  (List.range 25).map fun i => A.getD i 0 ^^^ thetaEffect A (i % 5)

def rho (A : List (BitVec 64)) : List (BitVec 64) :=
  (List.range 25).map fun i => (A.getD i 0).rotateLeft (rotation i)

/-- π: the lane at `(x, y)` comes from `((x + 3y) mod 5, x)`. -/
def pi (A : List (BitVec 64)) : List (BitVec 64) :=
  (List.range 25).map fun i => A.getD ((i % 5 + 3 * (i / 5)) % 5 + 5 * (i % 5)) 0

def chi (A : List (BitVec 64)) : List (BitVec 64) :=
  (List.range 25).map fun i =>
    A.getD i 0 ^^^ (~~~A.getD ((i % 5 + 1) % 5 + 5 * (i / 5)) 0 &&& A.getD ((i % 5 + 2) % 5 + 5 * (i / 5)) 0)

def iota (round : Nat) (A : List (BitVec 64)) : List (BitVec 64) :=
  (List.range 25).map fun i => if i = 0 then A.getD 0 0 ^^^ roundConstant round else A.getD i 0

def round (A : List (BitVec 64)) (r : Nat) : List (BitVec 64) := iota r (chi (pi (rho (theta A))))

def keccakF (A : List (BitVec 64)) : List (BitVec 64) := (List.range 24).foldl round A

def laneOfBytes (bytes : List UInt8) : BitVec 64 :=
  BitVec.ofNat 64 (digitSum 256 8 fun j => (bytes.getD j 0).toNat)

def absorbBlock (A : List (BitVec 64)) (block : List (BitVec 64)) : List (BitVec 64) :=
  keccakF ((List.range 25).map fun i => if i < 17 then A.getD i 0 ^^^ block.getD i 0 else A.getD i 0)

def absorb (blocks : List (List (BitVec 64))) : List (BitVec 64) :=
  blocks.foldl absorbBlock (List.replicate 25 0)

def pad (message : List UInt8) : List UInt8 :=
  let q := 136 - message.length % 136
  message ++ if q = 1 then [0x81] else [0x01] ++ List.replicate (q - 2) 0 ++ [0x80]

def blocksOf (padded : List UInt8) : List (List (BitVec 64)) :=
  (List.range (padded.length / 136)).map fun b =>
    (List.range 17).map fun j => laneOfBytes ((padded.drop (136 * b + 8 * j)).take 8)

def squeeze (A : List (BitVec 64)) : List UInt8 :=
  (List.range 4).flatMap fun i => (List.range 8).map fun j => ((A.getD i 0).toNat / 256 ^ j % 256).toUInt8

def keccak256 (message : List UInt8) : List UInt8 := squeeze (absorb (blocksOf (pad message)))

end Spec

end Aztec3Circuits.Keccak

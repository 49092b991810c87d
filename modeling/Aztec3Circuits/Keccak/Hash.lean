import Aztec3Circuits.Keccak.Sponge

/-! `keccak::hash` with a composer context. The input is padded to whole 136-byte blocks by
writing `0x01` after it and `0x80` at the last byte; each group of eight bytes is reversed so that
reading it big-endian gives the little-endian lane; the lanes go through `KECCAK_FORMAT_INPUT`
into the sponge, and the first four lanes come back out through `KECCAK_FORMAT_OUTPUT`. When a
single padding byte is left, the `0x80` write lands on the `0x01` byte and replaces it, where
Keccak's padding has `0x81`: the circuit then hashes a different block than Keccak-256 does. -/
namespace Aztec3Circuits.Keccak

/-! ### Padding -/

theorem set_replicate_last {α : Type} (r : Nat) (a b : α) :
    (List.replicate (r + 1) a).set r b = List.replicate r a ++ [b] := by
  induction r with
  | zero => rfl
  | succ r ih => rw [List.replicate_succ, List.set_cons_succ, ih]; rfl

theorem paddedBytes_eq (input : List Nat) :
    paddedBytes input = input ++
      if input.length % 136 = 135 then [0x80] else [0x01] ++ List.replicate (134 - input.length % 136) 0 ++ [0x80] := by
  have gap : blockSize * (input.length / blockSize + 1) - input.length = 136 - input.length % 136 := by
    simp only [blockSize]
    omega
  obtain ⟨q, hq⟩ : ∃ q, 136 - input.length % 136 = q + 1 := ⟨135 - input.length % 136, by omega⟩
  simp only [paddedBytes, gap, hq, List.replicate_succ, List.set_append_right _ _ (le_refl _), Nat.sub_self,
    List.set_cons_zero, List.length_append, List.length_cons, List.length_replicate]
  rw [List.set_append_right _ _ (by omega), show input.length + (q + 1) - 1 - input.length = q by omega]
  split_ifs with last
  · obtain rfl : q = 0 := by omega
    rfl
  · obtain ⟨r, rfl⟩ : ∃ r, q = r + 1 := ⟨q - 1, by omega⟩
    rw [List.set_cons_succ, set_replicate_last, show 134 - input.length % 136 = r by omega]
    rfl

theorem length_paddedBytes (input : List Nat) :
    (paddedBytes input).length = blockSize * (input.length / blockSize + 1) := by
  rw [paddedBytes_eq]
  simp only [blockSize]
  split_ifs <;> simp <;> omega

/-! ### The byte swap -/

theorem length_swapGroup (bytes : List Nat) (g : Nat) : (swapGroup bytes g).length = bytes.length :=
  length_foldl_set _ _ _ _

theorem swapGroups_getD (bytes : List Nat) {m : Nat} (hm : 8 * m ≤ bytes.length) (k : Nat) :
    ((List.range m).foldl swapGroup bytes).getD k 0 =
        (if k < 8 * m then bytes.getD (k / 8 * 8 + (7 - k % 8)) 0 else bytes.getD k 0) ∧
      ((List.range m).foldl swapGroup bytes).length = bytes.length := by
  induction m generalizing k with
  | zero => simp
  | succ m ih =>
    obtain ⟨_, length⟩ := ih (by omega) 0
    rw [List.range_succ, List.foldl_append, List.foldl_cons, List.foldl_nil, length_swapGroup]
    refine ⟨?_, length⟩
    have nodup : ((List.range 8).map (8 * m + ·)).Nodup := (List.nodup_range 8).map fun _ _ => Nat.add_left_cancel
    by_cases group : 8 * m ≤ k ∧ k < 8 * m + 8
    · obtain ⟨j, hj, rfl⟩ : ∃ j < 8, k = 8 * m + j := ⟨k - 8 * m, by omega, by omega⟩
      rw [swapGroup, getD_foldl_set_pos (8 * m + ·) _ _ nodup _ (List.mem_range.mpr hj)
          (show 8 * m + j < _ by rw [length]; omega),
        getD_map_range _ (by omega), (ih (by omega) _).1, if_neg (by omega), if_pos (by omega)]
      congr 1
      omega
    · rw [swapGroup, getD_foldl_set_of_forall_ne (8 * m + ·) _ _ _
        fun j mem same => group (by simp only [List.mem_range] at mem; simp only at same; omega), (ih (by omega) k).1]
      simp only [show k < 8 * m ↔ k < 8 * (m + 1) by omega]

theorem length_swapBytes (bytes : List Nat) : (swapBytes bytes).length = bytes.length := by
  rw [swapBytes]
  generalize (bytes.length + 7) / 8 = groups
  induction groups with
  | zero => rfl
  | succ m ih => rw [List.range_succ, List.foldl_append, List.foldl_cons, List.foldl_nil, length_swapGroup, ih]

theorem swapBytes_getD {bytes : List Nat} (whole : bytes.length % 8 = 0) (k : Nat) :
    (swapBytes bytes).getD k 0 =
      if k < bytes.length then bytes.getD (k / 8 * 8 + (7 - k % 8)) 0 else bytes.getD k 0 := by
  rw [swapBytes, show (bytes.length + 7) / 8 = bytes.length / 8 by omega, (swapGroups_getD bytes (by omega) k).1]
  simp only [show 8 * (bytes.length / 8) = bytes.length by omega]

theorem valueOfBytes_swapped {bytes : List Nat} (whole : bytes.length % 8 = 0) {i : Nat}
    (hi : i * 8 + 8 ≤ bytes.length) :
    valueOfBytes (((swapBytes bytes).drop (i * 8)).take 8) = digitSum 256 8 fun j => bytes.getD (i * 8 + j) 0 := by
  have length : (((swapBytes bytes).drop (i * 8)).take 8).length = 8 := by
    simp only [List.length_take, List.length_drop, length_swapBytes]
    omega
  rw [valueOfBytes, length]
  refine digitSum_congr fun j hj => ?_
  rw [getD_take_drop _ _ (by omega), swapBytes_getD whole, if_pos (by omega)]
  congr 1
  omega

theorem pad_eq (message : List UInt8) :
    Spec.pad message = message ++
      if message.length % 136 = 135 then [0x81] else [0x01] ++ List.replicate (134 - message.length % 136) 0 ++ [0x80] := by
  simp only [Spec.pad, show (136 - message.length % 136 = 1) = (message.length % 136 = 135) by
    apply propext; omega, show 136 - message.length % 136 - 2 = 134 - message.length % 136 by omega]

theorem paddedBytes_eq_pad_iff (input : List UInt8) :
    paddedBytes (input.map (·.toNat)) = (Spec.pad input).map (·.toNat) ↔ input.length % 136 ≠ 135 := by
  rw [paddedBytes_eq, pad_eq, List.map_append, List.length_map, List.append_cancel_left_eq]
  split_ifs with last
  · simp only [last, ne_eq, not_true_eq_false, iff_false]
    decide
  · refine iff_of_true ?_ last
    simp only [List.map_append, List.map_replicate, List.map_cons, List.map_nil]
    rfl

/-- The `hash` buffer has `136 * (⌊L / 136⌋ + 1)` bytes and starts with the input; it is Keccak's
padded message exactly when more than one padding byte is left; and `sponge_absorb` runs once per
block of it. -/
theorem blockBytes_padding (input : List UInt8) :
    (paddedBytes (input.map (·.toNat))).length = blockSize * (input.length / blockSize + 1) ∧
      (paddedBytes (input.map (·.toNat))).take input.length = input.map (·.toNat) ∧
      (paddedBytes (input.map (·.toNat)) = (Spec.pad input).map (·.toNat) ↔ input.length % 136 ≠ 135) ∧
      (convertedLimbs (swapBytes (paddedBytes (input.map (·.toNat))))).length / (blockSize / 8) =
        input.length / blockSize + 1 := by
  refine ⟨by rw [length_paddedBytes, List.length_map], ?_, ?_, ?_⟩
  · rw [paddedBytes_eq, List.take_left' (List.length_map _ _)]
  · exact paddedBytes_eq_pad_iff input
  · rw [convertedLimbs, List.length_map, List.length_range, length_swapBytes, length_paddedBytes, List.length_map]
    simp only [blockSize, wordSize]
    omega

/-! ### Lanes in and out -/

theorem toUInt8_toNat (x : UInt8) : x.toNat.toUInt8 = x :=
  UInt8.eq_of_toBitVec_eq (BitVec.eq_of_toNat_eq (UInt8.toNat_ofNat_of_lt x.toNat_lt_size))

def absorbedBytes (input : List UInt8) : List UInt8 := (paddedBytes (input.map (·.toNat))).map (·.toUInt8)

theorem absorbedBytes_eq (input : List UInt8) :
    absorbedBytes input = input ++
      if input.length % 136 = 135 then [0x80] else [0x01] ++ List.replicate (134 - input.length % 136) 0 ++ [0x80] := by
  rw [absorbedBytes, paddedBytes_eq, List.map_append, List.map_map, List.length_map]
  congr 1
  · exact (List.map_congr_left fun x _ => toUInt8_toNat x).trans (List.map_id _)
  · split_ifs <;> simp [List.map_replicate] <;> rfl

theorem absorbedBytes_eq_pad_iff (input : List UInt8) :
    absorbedBytes input = Spec.pad input ↔ input.length % 136 ≠ 135 := by
  rw [absorbedBytes_eq, pad_eq, List.append_cancel_left_eq]
  split_ifs with last
  · simp only [last, ne_eq, not_true_eq_false, iff_false]
    decide
  · simp [last]

theorem paddedBytes_lt (input : List UInt8) (k : Nat) : (paddedBytes (input.map (·.toNat))).getD k 0 < 256 := by
  have members : ∀ x ∈ paddedBytes (input.map (·.toNat)), x < 256 := fun x mem => by
    rw [paddedBytes_eq, List.mem_append, List.mem_map] at mem
    rcases mem with ⟨b, -, rfl⟩ | tail
    · exact b.toNat_lt_size
    · split_ifs at tail <;> simp at tail <;> omega
  rw [List.getD_eq_getElem?_getD]
  cases entry : (paddedBytes (input.map (·.toNat)))[k]? with
  | none => decide
  | some x => exact members x (List.getElem?_mem entry)

theorem laneOfBytes_toNat (bytes : List UInt8) :
    (Spec.laneOfBytes bytes).toNat = digitSum 256 8 fun j => (bytes.getD j 0).toNat := by
  rw [Spec.laneOfBytes, BitVec.toNat_ofNat, Nat.mod_eq_of_lt]
  exact (digitSum_lt fun j _ => (bytes.getD j 0).toNat_lt_size).trans_eq (by norm_num)

theorem convertedLimbs_getD (input : List UInt8) {b j : Nat} (hb : b < input.length / blockSize + 1) (hj : j < 17) :
    (convertedLimbs (swapBytes (paddedBytes (input.map (·.toNat))))).getD (b * 17 + j) (0, 0) =
      (laneSparse (((Spec.blocksOf (absorbedBytes input)).getD b []).getD j 0),
        bit (((Spec.blocksOf (absorbedBytes input)).getD b []).getD j 0) 63) := by
  have length := length_paddedBytes (input.map (·.toNat))
  rw [List.length_map, blockSize] at length
  rw [blockSize] at hb
  have blocks : (absorbedBytes input).length / 136 = input.length / blockSize + 1 := by
    rw [absorbedBytes, List.length_map, length, blockSize]
    omega
  have whole : (paddedBytes (input.map (·.toNat))).length % 8 = 0 := by
    rw [length]
    omega
  have limb : b * 17 + j < (swapBytes (paddedBytes (input.map (·.toNat)))).length / wordSize := by
    rw [length_swapBytes, length, wordSize]
    omega
  have inside : ¬(b * 17 + j) * wordSize + wordSize > (swapBytes (paddedBytes (input.map (·.toNat)))).length := by
    rw [length_swapBytes, length, wordSize]
    omega
  rw [Spec.blocksOf, blocks, getD_map_range _ (by rw [blockSize]; exact hb), getD_map_range _ hj, ← formatInput_toNat,
    laneOfBytes_toNat, convertedLimbs, getD_map_range _ limb]
  dsimp only
  rw [if_neg inside, wordSize, valueOfBytes_swapped whole (by rw [length]; omega)]
  refine congrArg formatInput (digitSum_congr fun k hk => ?_)
  have within : 136 * b + 8 * j + k < (paddedBytes (input.map (·.toNat))).length := by
    rw [length]
    omega
  rw [getD_take_drop _ _ hk, absorbedBytes, getD_map_of_lt _ within _ 0,
    UInt8.toNat_ofNat_of_lt (paddedBytes_lt input _)]
  congr 1
  ring

variable {p : Nat}

theorem hash_buffersHold (input : List UInt8) :
    BuffersHold ((convertedLimbs (swapBytes (paddedBytes (input.map (·.toNat))))).map fun l => (l.1 : ZMod p))
      ((convertedLimbs (swapBytes (paddedBytes (input.map (·.toNat))))).map fun l => (l.2 : ZMod p))
      (Spec.blocksOf (absorbedBytes input)) := by
  have length := length_paddedBytes (input.map (·.toNat))
  rw [List.length_map] at length
  have limbs : (convertedLimbs (swapBytes (paddedBytes (input.map (·.toNat))))).length =
      17 * (input.length / blockSize + 1) := by
    rw [convertedLimbs, List.length_map, List.length_range, length_swapBytes, length, blockSize, wordSize]
    omega
  have blocks : (Spec.blocksOf (absorbedBytes input)).length = input.length / blockSize + 1 := by
    rw [Spec.blocksOf, List.length_map, List.length_range, absorbedBytes, List.length_map, length, blockSize]
    omega
  refine ⟨by rw [List.length_map, limbs, blocks], fun b hb j hj => ?_, fun b hb j hj => ?_⟩ <;>
    rw [blocks] at hb <;>
    rw [getD_map_of_lt _ (by rw [limbs]; omega) _ (0, 0), convertedLimbs_getD input hb hj]

theorem spongeSqueeze_eq (large : 11 ^ 64 < p) {internal : KeccakState p} {A : List (BitVec 64)}
    (lanes : LanesHold internal A) : spongeSqueeze internal = (Spec.squeeze A).map (·.toNat) := by
  rw [spongeSqueeze, Spec.squeeze, List.map_flatMap]
  refine List.flatMap_congr fun i mem => ?_
  rw [lanes.state i (by simp at mem; omega), ZMod.val_cast_of_lt ((laneSparse_lt _).trans large),
    formatOutput_laneSparse, List.map_map]
  refine List.map_congr_left fun j mem => ?_
  simp only [List.mem_range] at mem
  rw [bytesOfValue, getD_map_range _ (by omega), Function.comp_apply, UInt8.toNat_ofNat_of_lt (Nat.mod_lt _ (by norm_num)),
    show 8 - 1 - (7 - j) = j by omega]

theorem blocksOf_ne_nil (input : List UInt8) : Spec.blocksOf (absorbedBytes input) ≠ [] := by
  have length := length_paddedBytes (input.map (·.toNat))
  rw [List.length_map] at length
  rw [Spec.blocksOf, absorbedBytes, List.length_map, length, blockSize, Nat.mul_div_cancel_left _ (by norm_num)]
  simp

theorem hash_eq_sponge (large : 11 ^ 66 < p) (input : List UInt8) :
    hash p input = (Spec.squeeze (Spec.absorb (Spec.blocksOf (absorbedBytes input)))).map (·.toNat) :=
  spongeSqueeze_eq (pow_lt_of_large large) (spongeAbsorb_lanesHold large (hash_buffersHold input) (blocksOf_ne_nil input))

theorem hash_eq_keccak256 (large : 11 ^ 66 < p) (input : List UInt8) (fits : input.length % 136 ≠ 135) :
    hash p input = (Spec.keccak256 input).map (·.toNat) := by
  rw [hash_eq_sponge large, (absorbedBytes_eq_pad_iff input).mpr fits]
  rfl

set_option maxRecDepth 8000 in
theorem sponge_zeros_ne_keccak256 :
    Spec.squeeze (Spec.absorb (Spec.blocksOf (List.replicate 135 0 ++ [0x80]))) ≠ Spec.keccak256 (List.replicate 135 0) := by
  decide

/-- `hash` computes the Keccak sponge over the bytes it absorbs, and these are Keccak's padded
message exactly when more than one padding byte is left; with one left it is not Keccak-256, as
at 135 zero bytes. -/
theorem hash_absorbs_blockBytes (large : 11 ^ 66 < p) (input : List UInt8) :
    hash p input = (Spec.squeeze (Spec.absorb (Spec.blocksOf (absorbedBytes input)))).map (·.toNat) ∧
      (absorbedBytes input = Spec.pad input ↔ input.length % 136 ≠ 135) ∧
      hash p (List.replicate 135 0) ≠ (Spec.keccak256 (List.replicate 135 0)).map (·.toNat) := by
  refine ⟨hash_eq_sponge large input, absorbedBytes_eq_pad_iff input, fun same => sponge_zeros_ne_keccak256 ?_⟩
  rw [hash_eq_sponge large, absorbedBytes_eq, List.length_replicate, if_pos (show 135 % 136 = 135 from rfl)] at same
  exact List.map_injective_iff.mpr (fun _ _ => UInt8.toNat.inj) same

theorem hash_absorbs_blockBytes_zeros :
    11 ^ 66 < frModulus ∧
      (hash frModulus (List.replicate 135 0) =
          (Spec.squeeze (Spec.absorb (Spec.blocksOf (absorbedBytes (List.replicate 135 0))))).map (·.toNat) ∧
        (absorbedBytes (List.replicate 135 0) = Spec.pad (List.replicate 135 0) ↔
          (List.replicate 135 (0 : UInt8)).length % 136 ≠ 135) ∧
        hash frModulus (List.replicate 135 0) ≠ (Spec.keccak256 (List.replicate 135 0)).map (·.toNat)) :=
  have large : 11 ^ 66 < frModulus := by norm_num [frModulus]
  ⟨large, hash_absorbs_blockBytes large _⟩

end Aztec3Circuits.Keccak

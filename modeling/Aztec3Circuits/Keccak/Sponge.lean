import Aztec3Circuits.Keccak.Round

/-! `sponge_absorb` refines the absorbing phase of the Keccak sponge. The first block is loaded
as it is, which is the zero state xored with it; a later block is added to the first 17 lanes and
each sum normalised, which is xor. Each block then has its twisted lanes computed and runs
`keccakf1600`, so after every block the lanes hold the sponge state. -/
namespace Aztec3Circuits.Keccak

variable {p : Nat} {internal : KeccakState p} {A : List (BitVec 64)}
  {inputBuffer msbBuffer : List (ZMod p)} {blocks : List (List (BitVec 64))}

/-- The lane buffers hold 17-lane blocks: lane `j` of block `b` in sparse form, with its top bit. -/
structure BuffersHold (inputBuffer msbBuffer : List (ZMod p)) (blocks : List (List (BitVec 64))) : Prop where
  length : inputBuffer.length = 17 * blocks.length
  input : ∀ b < blocks.length, ∀ j < 17,
    inputBuffer.getD (b * 17 + j) 0 = (laneSparse ((blocks.getD b []).getD j 0) : ZMod p)
  msb : ∀ b < blocks.length, ∀ j < 17,
    msbBuffer.getD (b * 17 + j) 0 = (bit ((blocks.getD b []).getD j 0) 63 : ZMod p)

theorem absorbBlock_lanesHold (large : 11 ^ 66 < p) (buffers : BuffersHold inputBuffer msbBuffer blocks)
    {i : Nat} (hi : i < blocks.length)
    (prior : (i = 0 ∧ ∀ j < 25, A.getD j 0 = 0) ∨ (i ≠ 0 ∧ LanesHold internal A)) :
    LanesHold (absorbBlock inputBuffer msbBuffer internal i) (Spec.absorbBlock A (blocks.getD i [])) := by
  have spec : ∀ j < 25, ((List.range 25).map fun j =>
      if j < 17 then A.getD j 0 ^^^ (blocks.getD i []).getD j 0 else A.getD j 0).getD j 0 =
        if j < 17 then A.getD j 0 ^^^ (blocks.getD i []).getD j 0 else A.getD j 0 :=
    fun j hj => getD_map_range _ hj _
  simp only [absorbBlock, Spec.absorbBlock, show limbsPerBlock = 17 from rfl]
  apply keccakf1600_lanesHold large
  apply computeTwistedState_holds
  split_ifs with first
  · obtain ⟨-, zero⟩ := prior.resolve_right fun later => later.1 first
    subst first
    refine ⟨fun j hj => ?_, fun j hj => ?_⟩ <;> rw [getD_map_range _ hj, spec j hj, zero j hj] <;> split_ifs with low
    · simpa using buffers.input 0 hi j low
    · rw [laneSparse_zero, Nat.cast_zero]
    · simpa using buffers.msb 0 hi j low
    · rw [bit_zero, Nat.cast_zero]
  · obtain ⟨-, lanes⟩ := prior.resolve_left fun firstBlock => first firstBlock.1
    have added : ∀ j < 17, normalizeAndRotate 0 (internal.state.getD j 0 + inputBuffer.getD (i * 17 + j) 0) =
        ((laneSparse (A.getD j 0 ^^^ (blocks.getD i []).getD j 0) : ZMod p),
          (bit (A.getD j 0 ^^^ (blocks.getD i []).getD j 0) 63 : ZMod p)) := fun j hj => by
      rw [lanes.state j (by omega), buffers.input i hi j hj,
        normalizeAndRotate_holdsLoosely (pow_lt_of_large large) 0 (holdsLoosely_add _ _), show rotation 0 = 0 from rfl,
        rotateLeft_zero]
    refine ⟨fun j hj => ?_, fun j hj => ?_⟩ <;> rw [getD_map_range _ hj, spec j hj] <;> split_ifs with low
    · rw [added j low]
    · exact lanes.state j hj
    · rw [added j low]
    · exact lanes.msb j hj

def AbsorbUnreduced (internal : KeccakState p) (inputBuffer : List (ZMod p)) (i : Nat) : Prop :=
  ∀ j < limbsPerBlock, Unreduced (internal.state.getD j 0 + inputBuffer.getD (i * limbsPerBlock + j) 0)
    ((internal.state.getD j 0).val + (inputBuffer.getD (i * limbsPerBlock + j) 0).val)

theorem absorb_unreduced (large : 11 ^ 66 < p) (buffers : BuffersHold inputBuffer msbBuffer blocks) {i : Nat}
    (hi : i < blocks.length) (lanes : LanesHold internal A) : AbsorbUnreduced internal inputBuffer i := fun j hj => by
  rw [lanes.state j (by simp only [show limbsPerBlock = 17 from rfl] at hj; omega), show limbsPerBlock = 17 from rfl,
    buffers.input i hi j hj]
  exact laneSparse_add_unreduced large _ _

theorem take_succ_getD {l : List (List (BitVec 64))} {n : Nat} (hn : n < l.length) :
    l.take (n + 1) = l.take n ++ [l.getD n []] := by
  rw [List.take_succ, List.getElem?_eq_getElem hn, List.getD_eq_getElem _ _ hn]
  rfl

theorem absorb_take (large : 11 ^ 66 < p) (buffers : BuffersHold inputBuffer msbBuffer blocks) {m : Nat}
    (hm : m + 1 ≤ blocks.length) :
    LanesHold ((List.range (m + 1)).foldl (absorbBlock inputBuffer msbBuffer) internal)
      (Spec.absorb (blocks.take (m + 1))) := by
  induction m with
  | zero =>
    simp only [Spec.absorb, take_succ_getD (show 0 < blocks.length by omega), List.take_zero, List.nil_append,
      show List.range (0 + 1) = [0] from rfl, List.foldl_cons, List.foldl_nil]
    exact absorbBlock_lanesHold large buffers (by omega) (.inl ⟨rfl, fun j _ => by
      simp only [List.getD_eq_getElem?_getD, List.getElem?_getD_replicate_default_eq]⟩)
  | succ m ih =>
    simp only [Spec.absorb, take_succ_getD (show m + 1 < blocks.length by omega), List.range_succ (m + 1),
      List.foldl_append, List.foldl_cons, List.foldl_nil]
    exact absorbBlock_lanesHold large buffers (by omega) (.inr ⟨by omega, ih (by omega)⟩)

theorem spongeAbsorb_lanesHold (large : 11 ^ 66 < p) (buffers : BuffersHold inputBuffer msbBuffer blocks)
    (nonempty : blocks ≠ []) :
    LanesHold (spongeAbsorb internal inputBuffer msbBuffer) (Spec.absorb blocks) := by
  obtain ⟨m, hm⟩ : ∃ m, blocks.length = m + 1 := Nat.exists_eq_succ_of_ne_zero (by simpa using nonempty)
  have rounds : inputBuffer.length / (blockSize / 8) = m + 1 := by
    rw [buffers.length, hm, show blockSize / 8 = 17 from rfl]
    omega
  rw [spongeAbsorb, rounds]
  have whole : blocks.take (m + 1) = blocks := by rw [← hm, List.take_length]
  have run : LanesHold ((List.range (m + 1)).foldl (absorbBlock inputBuffer msbBuffer) internal)
      (Spec.absorb (blocks.take (m + 1))) := absorb_take large buffers hm.ge
  rwa [whole] at run

/-- The circuit's Keccak-f[1600] and sponge refine Keccak's. From lanes holding a state with
consistent top bits and twisted lanes, every round keeps that invariant at θ's entry and computes
its sums without a reduction modulo `p`, and `keccakf1600` leaves the lanes holding Keccak-f of the
state. `sponge_absorb` leaves the lanes holding the sponge state after each block, adds a later
block without a reduction, and so ends holding the sponge state of the whole nonempty input. -/
theorem keccakf1600_refinement (large : 11 ^ 66 < p) :
    (∀ (internal : KeccakState p) (A : List (BitVec 64)), Holds internal A →
      (∀ n ≤ 23,
        Holds ((List.range n).foldl (fun internal i => iota (chi (pi (rho (theta internal)))) i) internal)
            ((List.range n).foldl Spec.round A) ∧
          RoundUnreduced ((List.range n).foldl (fun internal i => iota (chi (pi (rho (theta internal)))) i) internal) n) ∧
      LanesHold (keccakf1600 internal) (Spec.keccakF A)) ∧
    ∀ (internal : KeccakState p) (inputBuffer msbBuffer : List (ZMod p)) (blocks : List (List (BitVec 64))),
      BuffersHold inputBuffer msbBuffer blocks →
        (∀ m < blocks.length,
          LanesHold ((List.range (m + 1)).foldl (absorbBlock inputBuffer msbBuffer) internal)
              (Spec.absorb (blocks.take (m + 1))) ∧
            (0 < m → AbsorbUnreduced ((List.range m).foldl (absorbBlock inputBuffer msbBuffer) internal) inputBuffer m)) ∧
        (blocks ≠ [] → LanesHold (spongeAbsorb internal inputBuffer msbBuffer) (Spec.absorb blocks)) := by
  refine ⟨fun _ _ holds => ⟨fun _ hn => ?_, keccakf1600_lanesHold large holds⟩,
    fun _ _ _ _ buffers => ⟨fun m hm => ⟨absorb_take large buffers hm, fun pos => ?_⟩,
      spongeAbsorb_lanesHold large buffers⟩⟩
  · have run := rounds_holds large holds hn
    exact ⟨run, round_unreduced large run _⟩
  · obtain ⟨k, rfl⟩ : ∃ k, m = k + 1 := ⟨m - 1, by omega⟩
    exact absorb_unreduced large buffers hm (absorb_take large buffers (by omega))

theorem keccakf1600_refinement_fr :
    11 ^ 66 < frModulus ∧
      ((∀ (internal : KeccakState frModulus) (A : List (BitVec 64)), Holds internal A →
        (∀ n ≤ 23,
          Holds ((List.range n).foldl (fun internal i => iota (chi (pi (rho (theta internal)))) i) internal)
              ((List.range n).foldl Spec.round A) ∧
            RoundUnreduced ((List.range n).foldl (fun internal i => iota (chi (pi (rho (theta internal)))) i) internal) n) ∧
        LanesHold (keccakf1600 internal) (Spec.keccakF A)) ∧
      ∀ (internal : KeccakState frModulus) (inputBuffer msbBuffer : List (ZMod frModulus))
        (blocks : List (List (BitVec 64))), BuffersHold inputBuffer msbBuffer blocks →
          (∀ m < blocks.length,
            LanesHold ((List.range (m + 1)).foldl (absorbBlock inputBuffer msbBuffer) internal)
                (Spec.absorb (blocks.take (m + 1))) ∧
              (0 < m → AbsorbUnreduced ((List.range m).foldl (absorbBlock inputBuffer msbBuffer) internal) inputBuffer m)) ∧
          (blocks ≠ [] → LanesHold (spongeAbsorb internal inputBuffer msbBuffer) (Spec.absorb blocks))) :=
  have large : 11 ^ 66 < frModulus := by norm_num [frModulus]
  ⟨large, keccakf1600_refinement large⟩

end Aztec3Circuits.Keccak

import PartitionedFilters.AddressSound
import PartitionedFilters.Bloom

/-!
# Block confinement of the Bloom filter

The words that `insert` and `contains` touch for a value lie in the blocks that
were selected for it, and `k` bits are set or tested. The grouped mask counts
its groups backwards from `k`, which is right for multiples of the groups.
-/

namespace PartitionedFilters.Bloom

variable {r : RegisterSize} {c : Config r}

/-! ## Windows -/

theorem toNat_extractBits_lt (vector : r.T) (offset : Nat) {nBits : Nat} (hn : nBits < 64) :
    (extractBits vector offset nBits).toNat < 2 ^ nBits := by
  have hmask : ((1#64 <<< nBits - 1#64).setWidth r.bits).toNat ≤ 2 ^ nBits - 1 := by
    rw [BitVec.toNat_setWidth, toNat_lowMask hn]
    exact Nat.mod_le _ _
  have hand := Nat.and_le_right (n := (vector >>> (r.bits - offset - nBits)).toNat)
    (m := ((1#64 <<< nBits - 1#64).setWidth r.bits).toNat)
  have hpos := Nat.two_pow_pos nBits
  rw [extractBits, BitVec.toNat_and]
  omega

theorem toNat_window_lt (h : HashWindow r) (offset : Nat) {nBits : Nat} (hn : nBits < 64) :
    (h.window offset nBits).toNat < 2 ^ nBits := toNat_extractBits_lt _ _ hn

theorem wordBits_lt (r : RegisterSize) : wordBits r < 64 := by cases r <;> decide

theorem two_pow_wordBits (r : RegisterSize) : 2 ^ wordBits r = r.bits := by cases r <;> decide

theorem length_fillMask (value : r.T) (remainingK : Nat) (h : HashWindow r) :
    (fillMask c value remainingK h).1.length = remainingK := by
  induction remainingK generalizing h with
  | zero => rfl
  | succ remainingK ih =>
    rw [fillMask, List.length_cons, ih]

theorem fillMask_lt (value : r.T) (remainingK : Nat) (h : HashWindow r) :
    ∀ b ∈ (fillMask c value remainingK h).1, b < r.bits := by
  induction remainingK generalizing h with
  | zero => exact fun b hb => absurd hb List.not_mem_nil
  | succ remainingK ih =>
    intro b hb
    rw [fillMask, List.mem_cons] at hb
    rcases hb with rfl | hb
    · exact Nat.lt_of_lt_of_eq (toNat_window_lt _ _ (wordBits_lt r)) (two_pow_wordBits r)
    · exact ih _ b hb

/-! ## Sectors -/

theorem sector_le {n : Nat} (hn : n ≠ 0) : 2 ^ Nat.log2 n ≤ n := Nat.log2_self_le hn

theorem nSectors_le (c : Config r) : c.nSectors ≤ 16 := by
  have h : c.blockSize.bits ≤ 512 := by cases c.blockSize <;> decide
  have hw : 32 ≤ r.bits := by cases r <;> decide
  exact (Nat.div_le_div_left hw (by decide)).trans (Nat.div_le_div_right h)

theorem log2_lt {n : Nat} (hn : n ≤ 16) : Nat.log2 n < 64 := by
  rcases Nat.eq_zero_or_pos n with rfl | hpos
  · decide
  · exact (Nat.log2_lt (Nat.ne_of_gt hpos)).mpr (Nat.lt_of_le_of_lt hn (by decide))

theorem two_pow_shiftFactor (hw : r.bits ≤ c.blockSize.bits) : 2 ^ c.shiftFactor = c.nSectors := by
  unfold Config.shiftFactor Config.nSectors
  revert hw
  cases c.blockSize <;> cases r <;> decide

theorem nSectors_mul (hw : r.bits ≤ c.blockSize.bits) : r.bits * c.nSectors = c.blockSize.bits := by
  unfold Config.nSectors
  revert hw
  cases c.blockSize <;> cases r <;> decide

/-! ## The steps of a block -/

/-- `base` and `offset` of a block whose words are all reached by an index. -/
structure Origin (c : Config r) (base : Nat) (offset : r.T) (first : Nat) : Prop where
  eq : base + offset.toNat = first
  room : offset.toNat + c.nSectors ≤ if c.avx then 2 ^ (r.bits - 1) else 2 ^ r.bits

theorem two_pow_bits (r : RegisterSize) : 2 ^ r.bits = 2 * 2 ^ (r.bits - 1) := by cases r <;> decide

theorem wordIndex_eq (c : Config r) (base : Nat) {index : r.T} (h : c.avx = true → index.toNat < 2 ^ (r.bits - 1)) :
    wordIndex c base index = base + (index.toNat : Int) := by
  unfold wordIndex
  split
  · rename_i havx
    have hlt := h havx
    have hpow := two_pow_bits r
    rw [BitVec.toInt_eq_toNat_of_lt (by omega)]
  · rfl

theorem Origin.wordIndex_eq {base first : Nat} {offset a : r.T} (ho : Origin c base offset first)
    (ha : a.toNat < c.nSectors) :
    wordIndex c base (offset + a) = first + (a.toNat : Int) := by
  obtain ⟨heq, hroom⟩ := ho
  have hpow := two_pow_bits r
  have hadd : (offset + a).toNat = offset.toNat + a.toNat := by
    rw [BitVec.toNat_add, Nat.mod_eq_of_lt]
    split at hroom <;> omega
  rw [Bloom.wordIndex_eq, hadd]
  · omega
  · intro havx
    rw [if_pos havx] at hroom
    omega

structure Walk (c : Config r) (block : r.T) (first k : Nat) (steps : List (Step r)) : Prop where
  inside : ∀ s ∈ steps, s.block = block ∧ ∃ j < c.nSectors, s.word = first + (j : Int)
  bits : ∀ s ∈ steps, ∀ b ∈ s.bits, b < r.bits
  count : (steps.flatMap Step.bits).length = k

theorem Walk.nil (c : Config r) (block : r.T) (first : Nat) : Walk c block first 0 [] :=
  ⟨fun _ h => absurd h List.not_mem_nil, fun _ h => absurd h List.not_mem_nil, rfl⟩

theorem Walk.cons {block : r.T} {first k k' j : Nat} {steps : List (Step r)} {s : Step r}
    (h : Walk c block first k steps) (hblock : s.block = block) (hj : j < c.nSectors)
    (hword : s.word = first + (j : Int)) (hbits : ∀ b ∈ s.bits, b < r.bits)
    (hk : k' = s.bits.length + k) : Walk c block first k' (s :: steps) := by
  refine ⟨fun t ht => ?_, fun t ht => ?_, ?_⟩
  · cases ht with
    | head => exact ⟨hblock, j, hj, hword⟩
    | tail _ ht => exact h.inside t ht
  · cases ht with
    | head => exact hbits
    | tail _ ht => exact h.bits t ht
  · rw [List.flatMap_cons, List.length_append, h.count, hk]

section
variable (value block : r.T) {offset : r.T} {base first : Nat} (hw : r.bits ≤ c.blockSize.bits)
  (ho : Origin c base offset first)
include hw

theorem nSectors_pos : 0 < c.nSectors := by
  rw [← two_pow_shiftFactor hw]
  exact Nat.two_pow_pos _

include ho

theorem walk_blockedSteps (remainingK : Nat) (h : HashWindow r) :
    Walk c block first (max remainingK 1) (blockedSteps c value block offset base remainingK h) := by
  have hpos := nSectors_pos hw
  have hstep : ∀ remainingK h steps k k', Walk c block first k steps → k' = 1 + k →
      Walk c block first k' ((blockedStep c value block offset base remainingK h).1 :: steps) := by
    intro remainingK h steps k k' hwalk hk
    have hsector : ((h.refill c value (c.sectorBits + wordBits r)).window 0 c.sectorBits).toNat < c.nSectors :=
      Nat.lt_of_lt_of_le (toNat_window_lt _ _ (log2_lt (nSectors_le c))) (sector_le (Nat.ne_of_gt hpos))
    refine Walk.cons hwalk rfl hsector ?_ (fun b hb => ?_) hk
    · exact ho.wordIndex_eq hsector
    · rw [List.mem_singleton.mp hb]
      exact Nat.lt_of_lt_of_eq (toNat_window_lt _ _ (wordBits_lt r)) (two_pow_wordBits r)
  induction remainingK generalizing h with
  | zero => exact hstep 0 h [] 0 _ (Walk.nil c block first) (by omega)
  | succ remainingK ih =>
    rw [blockedSteps]
    by_cases hlt : 1 < remainingK + 1
    · simp only [if_pos hlt]
      exact hstep _ _ _ _ _ (ih _) (by omega)
    · simp only [if_neg hlt]
      exact hstep _ _ _ _ _ (Walk.nil c block first) (by omega)

theorem walk_sectorizedSteps {t : Nat} (ht : 0 < t) {j : Nat} (hj : j + t ≤ c.nSectors) (h : HashWindow r) :
    Walk c block first (t * c.kPerSector)
      (sectorizedSteps c value block offset (base + j) (t * c.kPerSector) h) := by
  have hword : ∀ j < c.nSectors, wordIndex c (base + j) offset = first + (j : Int) := by
    intro j hj
    have h0 := ho.wordIndex_eq (a := 0) (by simpa using nSectors_pos hw)
    rw [show offset + 0 = offset from BitVec.add_zero offset] at h0
    unfold wordIndex at h0 ⊢
    simp at h0
    omega
  induction t generalizing j h with
  | zero => exact absurd ht (Nat.lt_irrefl 0)
  | succ t ih =>
    have hbits := fillMask_lt (c := c) value c.kPerSector h
    have hlen := length_fillMask (c := c) value c.kPerSector h
    have hmul := Nat.add_one_mul t c.kPerSector
    rw [sectorizedSteps]
    by_cases hrec : 0 < c.kPerSector ∧ c.kPerSector < (t + 1) * c.kPerSector
    · have htpos : 0 < t := by
        by_contra h0
        rw [Nat.eq_zero_of_not_pos h0] at hrec
        omega
      simp only [if_pos hrec]
      rw [show (t + 1) * c.kPerSector - c.kPerSector = t * c.kPerSector by omega, Nat.add_assoc]
      refine (ih htpos (by omega) _).cons rfl (show j < c.nSectors by omega) (hword j (by omega)) hbits ?_
      rw [hlen]
      omega
    · simp only [if_neg hrec]
      refine (Walk.nil c block first).cons rfl (show j < c.nSectors by omega) (hword j (by omega)) hbits ?_
      rw [hlen]
      -- the last sector, or no bit at all
      rcases Nat.eq_zero_or_pos c.kPerSector with h0 | hpos
      · rw [h0, Nat.mul_zero]
      · rcases Nat.eq_zero_or_pos t with rfl | htpos
        · omega
        · have := Nat.mul_le_mul_right c.kPerSector htpos
          exact absurd ⟨hpos, by omega⟩ hrec

/-- The groups are walked within the block while none is left over. -/
theorem walk_groupedSteps (hk : 0 < c.kPerGroup) {t : Nat} (ht : 0 < t)
    (hgroup : ∀ u, 0 < u → u ≤ t → (groupAddress c (u * c.kPerGroup)).toNat + max c.nSectorsPerGroup 1 ≤ c.nSectors)
    (h : HashWindow r) :
    Walk c block first (t * c.kPerGroup) (groupedSteps c value block offset base (t * c.kPerGroup) h) := by
  have hsectors := nSectors_le c
  have hbig : 16 < 2 ^ r.bits := by cases r <;> decide
  have hwindow : ∀ h : HashWindow r, (h.window 0 c.nSectorBitsPerGroup).toNat < max c.nSectorsPerGroup 1 := by
    intro h
    have hle : c.nSectorsPerGroup ≤ 16 := (Nat.div_le_self _ _).trans hsectors
    have hlt := toNat_window_lt h 0 (log2_lt hle)
    have hsector : 2 ^ Nat.log2 c.nSectorsPerGroup ≤ max c.nSectorsPerGroup 1 := by
      rcases Nat.eq_zero_or_pos c.nSectorsPerGroup with h0 | hpos
      · rw [h0]
        decide
      · exact (sector_le (Nat.ne_of_gt hpos)).trans (Nat.le_max_left ..)
    exact Nat.lt_of_lt_of_le hlt hsector
  have hword : ∀ u, 0 < u → u ≤ t → ∀ h : HashWindow r, ∃ j < c.nSectors,
      wordIndex c base (offset + groupAddress c (u * c.kPerGroup) + h.window 0 c.nSectorBitsPerGroup) =
        first + (j : Int) := by
    intro u hu hut h
    have hroom := hgroup u hu hut
    have hlt := hwindow h
    have hadd : (groupAddress c (u * c.kPerGroup) + h.window 0 c.nSectorBitsPerGroup).toNat =
        (groupAddress c (u * c.kPerGroup)).toNat + (h.window 0 c.nSectorBitsPerGroup).toNat := by
      rw [BitVec.toNat_add, Nat.mod_eq_of_lt (by omega)]
    refine ⟨_, ?_, by rw [BitVec.add_assoc]; exact ho.wordIndex_eq (by rw [hadd]; omega)⟩
    omega
  induction t generalizing h with
  | zero => exact absurd ht (Nat.lt_irrefl 0)
  | succ t ih =>
    have hbits := fillMask_lt (c := c) value c.kPerGroup
    have hlen := length_fillMask (c := c) value c.kPerGroup
    have hmul := Nat.add_one_mul t c.kPerGroup
    obtain ⟨j, hj, hjw⟩ := hword (t + 1) (Nat.succ_pos t) (Nat.le_refl _) (h.refill c value c.nSectorBitsPerGroup)
    rw [groupedSteps]
    by_cases hrec : 0 < c.kPerGroup ∧ c.kPerGroup < (t + 1) * c.kPerGroup
    · have htpos : 0 < t := by
        by_contra h0
        rw [Nat.eq_zero_of_not_pos h0] at hrec
        omega
      simp only [if_pos hrec]
      rw [show (t + 1) * c.kPerGroup - c.kPerGroup = t * c.kPerGroup by omega]
      refine (ih htpos (fun u hu hut => hgroup u hu (Nat.le_succ_of_le hut)) _
        fun u hu hut => hword u hu (Nat.le_succ_of_le hut)).cons rfl hj hjw (hbits _) ?_
      rw [hlen]
      omega
    · simp only [if_neg hrec]
      refine (Walk.nil c block first).cons rfl hj hjw (hbits _) ?_
      rw [hlen]
      rcases Nat.eq_zero_or_pos t with rfl | htpos
      · omega
      · have := Nat.mul_le_mul_right c.kPerGroup htpos
        exact absurd ⟨hk, by omega⟩ hrec

theorem walk_verticalSteps {hash : r.T} (hbase : base = 0) (hn : c.nElementsPerLane = c.nSectors) :
    Walk c block first (c.nSectors * c.kPerSector) (verticalSteps c value block offset hash) := by
  have hsectors := nSectors_le c
  have hbig : 16 < 2 ^ r.bits := by cases r <;> decide
  have hwalk :
      ∀ t ≤ c.nSectors, Walk c block first (t * c.kPerSector) ((List.range' (c.nSectors - t) t).map fun j =>
      ⟨block, wordIndex c 0 (offset + BitVec.ofNat r.bits j),
        (fillMask c value c.kPerSector ⟨hash ^^^ singleSeed r j, 0, 0⟩).1, false⟩) := by
    intro t
    induction t with
    | zero =>
      intro _
      rw [Nat.zero_mul]
      exact Walk.nil c block first
    | succ t ih =>
      intro ht
      have hj : c.nSectors - (t + 1) < c.nSectors := by omega
      have hval : (BitVec.ofNat r.bits (c.nSectors - (t + 1))).toNat = c.nSectors - (t + 1) := by
        rw [BitVec.toNat_ofNat, Nat.mod_eq_of_lt (by omega)]
      rw [List.range'_succ, List.map_cons, show c.nSectors - (t + 1) + 1 = c.nSectors - t by omega]
      refine (ih (by omega)).cons rfl hj ?_ (fillMask_lt _ _ _) ?_
      · have h := ho.wordIndex_eq (a := BitVec.ofNat r.bits (c.nSectors - (t + 1))) (by omega)
        rw [hbase, hval] at h
        exact h
      · rw [length_fillMask, Nat.add_one_mul, Nat.add_comm]
  have h := hwalk c.nSectors (Nat.le_refl _)
  rw [Nat.sub_self, ← List.range_eq_range'] at h
  rw [verticalSteps, hn]
  exact h

end

/-! ## Groups -/

theorem toNat_groupAddress_of_le {remainingK : Nat} (h : remainingK / c.kPerGroup ≤ c.groups.count) :
    (groupAddress c remainingK).toNat = c.nSectorsPerGroup * (c.groups.count - remainingK / c.kPerGroup) := by
  have hg : c.groups.count ≤ 8 := by cases c.groups <;> decide
  have hs : c.nSectorsPerGroup ≤ 16 := (Nat.div_le_self _ _).trans (nSectors_le c)
  have hw : 2 ^ 32 ≤ 2 ^ r.bits := Nat.pow_le_pow_right (by decide) (by cases r <;> decide)
  unfold groupAddress
  generalize remainingK / c.kPerGroup = q at h ⊢
  have hmul : c.nSectorsPerGroup * (c.groups.count - q) ≤ 16 * 8 := Nat.mul_le_mul hs (by omega)
  have hsub : (BitVec.ofNat 64 c.groups.count - BitVec.ofNat 64 q).toNat = c.groups.count - q := by
    have hlt : c.groups.count < 2 ^ 64 ∧ q < 2 ^ 64 := by omega
    rw [BitVec.toNat_sub_of_le]
    · rw [BitVec.toNat_ofNat, BitVec.toNat_ofNat, Nat.mod_eq_of_lt hlt.1, Nat.mod_eq_of_lt hlt.2]
    · rw [BitVec.le_def, BitVec.toNat_ofNat, BitVec.toNat_ofNat, Nat.mod_eq_of_lt hlt.1, Nat.mod_eq_of_lt hlt.2]
      exact h
  rw [BitVec.toNat_setWidth, BitVec.toNat_mul, hsub, BitVec.toNat_ofNat, Nat.mod_mul_mod,
    Nat.mod_eq_of_lt (show c.nSectorsPerGroup * (c.groups.count - q) < 2 ^ 64 by omega),
    Nat.mod_eq_of_lt (by omega)]

theorem toNat_groupAddress_succ {remainingK : Nat} (h : remainingK / c.kPerGroup = c.groups.count + 1)
    (hpos : 0 < c.nSectorsPerGroup) : (groupAddress c remainingK).toNat = 2 ^ r.bits - c.nSectorsPerGroup := by
  have hs : c.nSectorsPerGroup ≤ 16 := (Nat.div_le_self _ _).trans (nSectors_le c)
  have hneg : BitVec.ofNat 64 c.groups.count - BitVec.ofNat 64 (c.groups.count + 1) = BitVec.allOnes 64 := by
    cases c.groups <;> decide
  unfold groupAddress
  rw [h, hneg]
  generalize c.nSectorsPerGroup = g at hpos hs
  cases r <;> interval_cases g <;> decide

/-! ## Blocks -/

def start (x : BloomContainer r) : Nat → Nat
  | 0 => 0
  | i + 1 => start x i + (x.entries i).size.toNat

/-- Neither the blocks nor their words nor their bits wrap. The bound on the words holds for every build
with vectors: gathers have signed indices, and only AVX512F builds load some words without them. -/
structure NoWrap (c : Config r) (x : BloomContainer r) (n : Nat) : Prop where
  blocks : start x n < 2 ^ r.bits
  words : start x n * c.nSectors ≤ if c.avx then 2 ^ (r.bits - 1) else 2 ^ r.bits
  bytes : start x n * c.blockSize.bits < 2 ^ 64

theorem start_le_of_le {x : BloomContainer r} {i j : Nat} (h : i ≤ j) : start x i ≤ start x j := by
  induction h with
  | refl => exact Nat.le_refl _
  | step _ ih => exact Nat.le_trans ih (Nat.le_add_right _ _)

theorem lastOffset_eq {entries : Nat → AddresserEntry r} {x : BloomContainer r} (he : x.entries = entries) {i : Nat}
    (h : start x i < 2 ^ r.bits) : (BloomContainer.lastOffset entries i).toNat = start x i := by
  subst he
  induction i with
  | zero => exact BitVec.toNat_zero
  | succ i ih =>
    rw [start] at h
    rw [BloomContainer.lastOffset, BitVec.toNat_add, ih (by omega), Nat.mod_eq_of_lt h, start]

section
variable {x : BloomContainer r} {s nPartitions n : Nat} {histogram : Nat → r.T}
  (hx : x = .new c s nPartitions histogram) (hn : c.nParts nPartitions = n) (hf : NoWrap c x n)
include hx hn hf

theorem computeOffset_bounds {i : Nat} (hi : i < n) (hsize : (x.entries i).size ≠ 0) {a : r.T}
    (ha : a.toNat < 2 ^ 32) :
    start x i ≤ (x.computeOffset c i a).toNat ∧ (x.computeOffset c i a).toNat < start x (i + 1) := by
  have hstart : start x (i + 1) ≤ start x n := start_le_of_le hi
  have hnext : start x (i + 1) = start x i + (x.entries i).size.toNat := rfl
  have hblocks := hf.blocks
  have hlt : ((x.entries i).computeAddress c.mode a).toNat < (x.entries i).size.toNat := by
    subst hx
    exact AddresserEntry.computeAddress_lt c.mode _ hsize ha
  cases hp : c.partitioning with
  | Enabled =>
    have hoffset : (x.offsets i).toNat = start x i := by
      have hreach : start x i < 2 ^ r.bits := by omega
      subst hx
      exact lastOffset_eq (i := i) rfl hreach
    rw [BloomContainer.computeOffset, hp, BitVec.toNat_add, hoffset, Nat.mod_eq_of_lt (by omega)]
    omega
  | Disabled =>
    rw [Config.nParts, hp] at hn
    obtain rfl : i = 0 := by simp only at hn; omega
    simp only [BloomContainer.computeOffset, hp]
    exact ⟨Nat.zero_le _, by omega⟩

theorem le_nBytes {b : Nat} (hb : b < start x n) : c.blockSize.bits * (b + 1) ≤ 8 * x.nBytes := by
  have hle : c.blockSize.bits * (b + 1) ≤ start x n * c.blockSize.bits := by
    rw [Nat.mul_comm]
    exact Nat.mul_le_mul_right _ hb
  have h8 : 8 ∣ start x n * c.blockSize.bits := Nat.dvd_mul_left_of_dvd (by cases c.blockSize <;> decide) _
  have hbytes : x.nBytes = valign (start x n * c.blockSize.bits / 8) := by
    have hmod := Nat.mod_eq_of_lt hf.bytes
    have hoffset := lastOffset_eq (x := x) rfl hf.blocks
    rw [← hoffset, hx, ← hn] at hmod ⊢
    exact congrArg (fun a => valign (a / 8)) hmod
  have hbits := hf.bytes
  have hround := valign_eq (b := start x n * c.blockSize.bits / 8) (by omega)
  omega

theorem origin (hw : r.bits ≤ c.blockSize.bits) {block : r.T} (hb : block.toNat < start x n) :
    Origin c (if c.avx then 0 else (block <<< c.shiftFactor).toNat) (if c.avx then block <<< c.shiftFactor else 0)
      (block.toNat * c.nSectors) := by
  have hle := Nat.mul_le_mul_right c.nSectors (Nat.succ_le_of_lt hb)
  rw [Nat.succ_mul] at hle
  have hwords := hf.words
  have hpow := two_pow_bits r
  have hpos := nSectors_pos hw
  have hsectors := nSectors_le c
  have hbig : 16 < 2 ^ (r.bits - 1) := by cases r <;> decide
  have hoffset : (block <<< c.shiftFactor).toNat = block.toNat * c.nSectors := by
    rw [BitVec.toNat_shiftLeft, Nat.shiftLeft_eq, two_pow_shiftFactor hw, Nat.mod_eq_of_lt]
    split at hwords <;> omega
  by_cases havx : c.avx = true
  · rw [if_pos havx] at hwords
    exact ⟨by rw [if_pos havx, if_pos havx, hoffset, Nat.zero_add],
      by rw [if_pos havx, if_pos havx, hoffset]; omega⟩
  · refine ⟨?_, ?_⟩
    · rw [if_neg havx, if_neg havx, hoffset]
      exact Nat.add_zero _
    · rw [if_neg havx, if_neg havx, show (0 : r.T).toNat = 0 from BitVec.toNat_zero]
      omega

end

/-! ## Naive steps -/

theorem mem_naiveSteps {x : BloomContainer r} {index : Nat} {value : r.T} {s : Step r} {remainingK : Nat}
    {addressHash blockHash : HashWindow r} (hs : s ∈ naiveSteps c x index value remainingK addressHash blockHash) :
    (∃ a : r.T, a.toNat < 2 ^ 32 ∧ s.block = x.computeOffset c index a) ∧ s.word = wordIndex c 0 s.block ∧
      ∀ b ∈ s.bits, b < r.bits := by
  have hstep : ∀ a b k, s = naiveStep c x index value k a b →
      (∃ a : r.T, a.toNat < 2 ^ 32 ∧ s.block = x.computeOffset c index a) ∧ s.word = wordIndex c 0 s.block ∧
        ∀ b ∈ s.bits, b < r.bits := by
    intro a b k h
    rw [h]
    exact ⟨⟨_, toNat_window_lt _ _ (by decide), rfl⟩, rfl, fillMask_lt _ _ _⟩
  induction remainingK generalizing addressHash blockHash with
  | zero =>
    rw [naiveSteps, if_neg (by decide)] at hs
    exact hstep _ _ _ (List.mem_singleton.mp hs)
  | succ remainingK ih =>
    rw [naiveSteps] at hs
    rcases List.mem_cons.mp hs with hs | hs
    · exact hstep _ _ _ hs
    · split at hs
      · exact ih hs
      · exact absurd hs List.not_mem_nil

theorem count_naiveSteps {x : BloomContainer r} {index : Nat} {value : r.T} (remainingK : Nat)
    (addressHash blockHash : HashWindow r) :
    ((naiveSteps c x index value remainingK addressHash blockHash).flatMap Step.bits).length =
      max remainingK 1 := by
  have hone : ∀ a b k, (naiveStep c x index value k a b).bits.length = 1 := fun _ b _ => length_fillMask value 1 b
  induction remainingK generalizing addressHash blockHash with
  | zero =>
    rw [naiveSteps, if_neg (by decide), List.flatMap_cons, List.length_append, hone]
    rfl
  | succ remainingK ih =>
    rw [naiveSteps, List.flatMap_cons, List.length_append, hone]
    split
    · rw [Nat.add_sub_cancel, ih]
      omega
    · rw [List.flatMap_nil, List.length_nil]
      omega

/-! ## A group too many -/

section
variable {value block offset : r.T} {base first : Nat}

theorem dvd_count_groupedSteps (remainingK : Nat) (h : HashWindow r) :
    c.kPerGroup ∣ ((groupedSteps c value block offset base remainingK h).flatMap Step.bits).length := by
  induction remainingK using Nat.strong_induction_on generalizing h with
  | _ remainingK ih =>
    rw [groupedSteps, List.flatMap_cons, List.length_append, length_fillMask]
    refine Nat.dvd_add (Nat.dvd_refl _) ?_
    split
    · rename_i hrec
      exact ih _ (by omega) _
    · exact Nat.dvd_zero _

/-- Where more groups are left than there are, one step has the group before the first one. -/
theorem exists_step_past (hk : 0 < c.kPerGroup) (hpos : 0 < c.nSectorsPerGroup) {remainingK : Nat}
    (h : HashWindow r) (hpast : c.groups.count + 1 ≤ remainingK / c.kPerGroup) :
    ∃ s ∈ groupedSteps c value block offset base remainingK h, s.block = block ∧ ∃ g a : r.T,
      g.toNat = 2 ^ r.bits - c.nSectorsPerGroup ∧ a.toNat < c.nSectorsPerGroup ∧
      s.word = wordIndex c base (offset + g + a) := by
  have hwindow : ∀ h : HashWindow r, (h.window 0 c.nSectorBitsPerGroup).toNat < c.nSectorsPerGroup := fun h =>
    Nat.lt_of_lt_of_le (toNat_window_lt _ _ (log2_lt ((Nat.div_le_self _ _).trans (nSectors_le c))))
      (sector_le (Nat.ne_of_gt hpos))
  induction remainingK using Nat.strong_induction_on generalizing h with
  | _ remainingK ih =>
    rw [groupedSteps]
    rcases Nat.lt_or_eq_of_le hpast with hlt | heq
    · have hle := Nat.div_mul_le_self remainingK c.kPerGroup
      have hmul := Nat.mul_le_mul_right c.kPerGroup (show 2 ≤ remainingK / c.kPerGroup by omega)
      have hrec : 0 < c.kPerGroup ∧ c.kPerGroup < remainingK := ⟨hk, by omega⟩
      have hquot : (remainingK - c.kPerGroup) / c.kPerGroup = remainingK / c.kPerGroup - 1 := by
        have h := Nat.sub_mul_div remainingK c.kPerGroup 1
        rwa [Nat.mul_one] at h
      obtain ⟨s, hs, hrest⟩ := ih (remainingK - c.kPerGroup) (by omega)
        (fillMask c value c.kPerGroup ((h.refill c value c.nSectorBitsPerGroup).skip c.nSectorBitsPerGroup)).2
        (by omega)
      refine ⟨s, List.mem_cons_of_mem _ ?_, hrest⟩
      rw [if_pos hrec]
      exact hs
    · exact ⟨_, List.mem_cons_self .., rfl, _, _, toNat_groupAddress_succ heq.symm hpos, hwindow _, rfl⟩

theorem Origin.past (ho : Origin c base offset first) {g a : r.T} (hg : g.toNat = 2 ^ r.bits - c.nSectorsPerGroup)
    (ha : a.toNat < c.nSectorsPerGroup) : wordIndex c base (offset + g + a) < (first : Int) ∨
      (first : Int) + (c.nSectors : Int) ≤ wordIndex c base (offset + g + a) := by
  obtain ⟨heq, hroom⟩ := ho
  have hpow := two_pow_bits r
  have hle : c.nSectorsPerGroup ≤ c.nSectors := Nat.div_le_self _ _
  have hsectors := nSectors_le c
  have hbig : 16 * 2 < 2 ^ (r.bits - 1) := by cases r <;> decide
  have hsum :
      (offset + g + a).toNat = (offset.toNat + (2 ^ r.bits - c.nSectorsPerGroup) + a.toNat) % 2 ^ r.bits := by
    rw [BitVec.toNat_add, BitVec.toNat_add, hg, Nat.mod_add_mod]
  have hroom' : offset.toNat + c.nSectors ≤ 2 ^ r.bits := by split at hroom <;> omega
  by_cases hwrap : c.nSectorsPerGroup ≤ offset.toNat + a.toNat
  · have hval : (offset + g + a).toNat = offset.toNat + a.toNat - c.nSectorsPerGroup := by
      rw [hsum, show offset.toNat + (2 ^ r.bits - c.nSectorsPerGroup) + a.toNat =
        offset.toNat + a.toNat - c.nSectorsPerGroup + 2 ^ r.bits by
          omega, Nat.add_mod_right, Nat.mod_eq_of_lt (by omega)]
    rw [Bloom.wordIndex_eq, hval]
    · omega
    · intro havx
      rw [if_pos havx] at hroom
      omega
  · have hval : (offset + g + a).toNat = offset.toNat + (2 ^ r.bits - c.nSectorsPerGroup) + a.toNat := by
      rw [hsum, Nat.mod_eq_of_lt (by omega)]
    unfold wordIndex
    split
    · left
      rw [BitVec.toInt_eq_toNat_cond, hval, if_neg (by omega)]
      omega
    · right
      rw [hval]
      omega

end

/-! ## Confinement -/

structure StepConfined (c : Config r) (x : BloomContainer r) (index : Nat) (s : Step r) : Prop where
  first : (c.blockSize.bits * s.block.toNat : Int) ≤ r.bits * s.word
  last : (r.bits * s.word + r.bits : Int) ≤ c.blockSize.bits * s.block.toNat + c.blockSize.bits
  own : start x index ≤ s.block.toNat ∧ s.block.toNat < start x (index + 1)
  bytes : c.blockSize.bits * (s.block.toNat + 1) ≤ 8 * x.nBytes
  bits : ∀ b ∈ s.bits, b < r.bits

/-- `insert` walks confined words with `k` bits; `contains` walks the same words, all of them unless
it returns false on the way. -/
def Confined (c : Config r) (x : BloomContainer r) (n : Nat) : Prop :=
  ∀ index < n, ∀ value, (∀ s ∈ steps c x index value, StepConfined c x index s) ∧
    ((steps c x index value).flatMap Step.bits).length = c.k ∧
    ∀ m, tested c x m (steps c x index value) <+: steps c x index value ∧
      (contains c x index value m = true → tested c x m (steps c x index value) = steps c x index value)

/-- No partition is without a block, no word is longer than a block, and the groups divide `k`. -/
structure Regular (c : Config r) (x : BloomContainer r) (n : Nat) : Prop where
  sizes : ∀ i < n, (x.entries i).size ≠ 0
  width : r.bits ≤ c.blockSize.bits
  hashes : c.variant = .Naive ∨ c.variant = .Blocked → 0 < c.k
  groups : c.variant = .Grouped →
    c.groups.count ∣ c.k ∨ (c.nSectorsPerGroup = 0 ∧ c.kPerGroup ∣ c.k)

theorem tested_prefix (x : BloomContainer r) (m : Mem) (l : List (Step r)) :
    tested c x m l <+: l ∧ (checkMask c x m l = true → tested c x m l = l) := by
  induction l with
  | nil => exact ⟨List.prefix_rfl, fun _ => rfl⟩
  | cons s l ih =>
    rw [tested, checkMask]
    by_cases hexit : (s.exit && !found c x m s) = true
    · rw [if_pos hexit, if_pos hexit]
      exact ⟨List.prefix_cons_inj s |>.mpr (List.nil_prefix), fun h => Bool.noConfusion h⟩
    · rw [if_neg hexit, if_neg hexit]
      refine ⟨(List.prefix_cons_inj s).mpr ih.1, fun h => ?_⟩
      rw [Bool.and_eq_true] at h
      rw [ih.2 h.2]

section
variable {x : BloomContainer r} {s nPartitions n : Nat} {histogram : Nat → r.T}
  (hx : x = .new c s nPartitions histogram) (hn : c.nParts nPartitions = n) (hf : NoWrap c x n)
include hx hn hf

theorem stepConfined_of_walk (hw : r.bits ≤ c.blockSize.bits) {i : Nat} (hi : i < n) {block : r.T} {k : Nat}
    {l : List (Step r)} (hown : start x i ≤ block.toNat ∧ block.toNat < start x (i + 1))
    (h : Walk c block (block.toNat * c.nSectors) k l) : ∀ s ∈ l, StepConfined c x i s := by
  intro s hs
  obtain ⟨rfl, j, hj, hword⟩ := h.inside s hs
  have hmul := nSectors_mul hw
  have hstart : start x (i + 1) ≤ start x n := start_le_of_le hi
  have hblock : c.blockSize.bits * s.block.toNat = r.bits * (s.block.toNat * c.nSectors) := by
    rw [← hmul, Nat.mul_assoc, Nat.mul_comm c.nSectors]
  have hj' := Nat.mul_le_mul_left r.bits (Nat.succ_le_of_lt hj)
  rw [Nat.mul_succ, hmul] at hj'
  refine ⟨?_, ?_, hown, le_nBytes hx hn hf (by omega), h.bits s hs⟩
  · rw [hword, Int.mul_add]
    norm_cast
    omega
  · rw [hword, Int.mul_add]
    norm_cast
    omega

theorem steps_confined (ha : c.Admitted) (hr : Regular c x n) {index : Nat} (hi : index < n) (value : r.T) :
    (∀ s ∈ steps c x index value, StepConfined c x index s) ∧
      ((steps c x index value).flatMap Step.bits).length = c.k := by
  have hw := hr.width
  have hbounds := fun {a} => computeOffset_bounds (a := a) hx hn hf hi (hr.sizes index hi)
  have hstart : start x (index + 1) ≤ start x n := start_le_of_le hi
  have haddress : (extractBits (c.hash value) 0 addressBits).toNat < 2 ^ 32 := toNat_extractBits_lt _ _ (by decide)
  have hown := hbounds haddress
  have horigin := origin hx hn hf hw (Nat.lt_of_lt_of_le hown.2 hstart)
  have hsector : c.variant = .Sectorized → c.nSectors * c.kPerSector = c.k := fun hv =>
    Nat.mul_div_cancel' (Nat.dvd_of_mod_eq_zero (ha.sectorized hv))
  unfold steps
  simp only
  generalize x.computeOffset c index (extractBits (c.hash value) 0 addressBits) = block at hown horigin ⊢
  have hwalk : ∀ {l : List (Step r)}, Walk c block (block.toNat * c.nSectors) c.k l →
      (∀ s ∈ l, StepConfined c x index s) ∧ (l.flatMap Step.bits).length = c.k := fun h =>
    ⟨stepConfined_of_walk hx hn hf hw hi hown h, h.count⟩
  cases hvec : c.vectorization with
  | Vertical =>
    obtain ⟨hv, havx, hsimd⟩ := ha.vertical hvec
    rw [if_pos havx, if_pos havx] at horigin
    refine hwalk ?_
    rw [← hsector hv]
    refine walk_verticalSteps value block hw horigin rfl ?_
    unfold Config.nElementsPerLane Config.nSectors
    revert hsimd hw
    cases c.simd <;> cases c.blockSize <;> cases r <;> decide
  | Horizontal =>
    cases hv : c.variant with
    | Naive =>
      have hone : c.nSectors = 1 := by
        rw [Config.nSectors, ha.naive hv, Nat.div_self r.bits_pos]
      refine ⟨fun s hs => ?_, ?_⟩
      · obtain ⟨⟨a, halt, hblock⟩, hword, hbits⟩ := mem_naiveSteps hs
        have hown := hbounds halt
        rw [← hblock] at hown
        have horigin := origin hx hn hf hw (Nat.lt_of_lt_of_le hown.2 hstart)
        refine stepConfined_of_walk hx hn hf hw hi hown
          ((Walk.nil c s.block _).cons (s := s) (j := 0) rfl (by omega) ?_ hbits rfl) s (List.mem_singleton_self s)
        rw [hword, Bloom.wordIndex_eq, hone]
        · simp
        · intro havx
          have hroom := horigin.room
          have hzero : c.shiftFactor = 0 := by
            unfold Config.shiftFactor
            rw [show c.blockSize.bits / r.bits = 1 from hone]
            decide
          rw [if_pos havx, if_pos havx, hzero, BitVec.shiftLeft_zero] at hroom
          omega
      · rw [count_naiveSteps, Nat.max_eq_left (hr.hashes (.inl hv))]
    | Blocked =>
      refine hwalk ?_
      have h := walk_blockedSteps value block hw horigin c.k ⟨c.hash value, r.bits - addressBits, 0⟩
      rw [Nat.max_eq_left (hr.hashes (.inr hv))] at h
      exact h
    | Sectorized =>
      refine hwalk ?_
      have h := walk_sectorizedSteps value block (j := 0) hw horigin (nSectors_pos hw) (by omega)
        ⟨c.hash value, r.bits - addressBits, 0⟩
      rw [hsector hv] at h
      exact h
    | Grouped =>
      refine hwalk ?_
      have hk : 0 < c.kPerGroup := Nat.div_pos (ha.grouped hv) (by cases c.groups <;> decide)
      have hpos := nSectors_pos hw
      have hgroups : c.nSectorsPerGroup * c.groups.count ≤ c.nSectors := Nat.div_mul_le_self _ _
      have hdvd : c.kPerGroup ∣ c.k := by
        rcases hr.groups hv with hg | hg
        · exact Nat.div_dvd_of_dvd hg
        · exact hg.2
      obtain ⟨t, ht⟩ := hdvd
      have htpos : 0 < t := Nat.pos_of_ne_zero fun h0 => by
        have := ha.grouped hv
        rw [h0, Nat.mul_zero] at ht
        have : 0 < c.groups.count := by cases c.groups <;> decide
        omega
      have h := walk_groupedSteps value block hw horigin hk htpos (fun u hu hut => ?_)
        ⟨c.hash value, r.bits - addressBits, 0⟩
      · rw [Nat.mul_comm t, ← ht] at h
        exact h
      · rcases hr.groups hv with hg | hg
        · -- `t` is the number of groups
          have hcount : t = c.groups.count := by
            obtain ⟨q, hq⟩ := hg
            have hq' : c.kPerGroup = q := by
              rw [Config.kPerGroup, hq, Nat.mul_div_cancel_left _ (by cases c.groups <;> decide)]
            rw [hq', hq, Nat.mul_comm] at ht
            exact (Nat.eq_of_mul_eq_mul_left (hq' ▸ hk) ht).symm
          have hdiv : u * c.kPerGroup / c.kPerGroup = u := Nat.mul_div_cancel _ hk
          rw [toNat_groupAddress_of_le (by rw [hdiv]; omega), hdiv]
          rcases Nat.eq_zero_or_pos c.nSectorsPerGroup with h0 | hs
          · rw [h0]
            omega
          · have hle :=
              Nat.mul_le_mul_left c.nSectorsPerGroup (show c.groups.count - u + 1 ≤ c.groups.count by omega)
            rw [Nat.mul_succ] at hle
            omega
        · have hzero : groupAddress c (u * c.kPerGroup) = 0 := by
            unfold groupAddress
            rw [hg.1]
            simp
          rw [hzero, hg.1]
          simp only [show (0 : r.T).toNat = 0 from BitVec.toNat_zero]
          omega

omit hx hn hf in
theorem steps_ne_nil (ha : c.Admitted) (index : Nat) (value : r.T) : steps c x index value ≠ [] := by
  unfold steps
  simp only
  cases hvec : c.vectorization with
  | Vertical =>
    obtain ⟨hv, havx, hsimd⟩ := ha.vertical hvec
    have hn : 0 < c.nElementsPerLane := by
      have h32 := ha.register32 hv
      have h64 := ha.register64 hv
      unfold Config.avx at havx
      unfold Config.nElementsPerLane
      revert hsimd h32 h64 havx
      cases c.simd <;> cases c.blockSize <;> cases r <;> decide
    simp only [verticalSteps, ne_eq, List.map_eq_nil_iff, List.range_eq_nil]
    omega
  | Horizontal =>
    cases c.variant with
    | Naive =>
      simp only
      rw [naiveSteps]
      exact List.cons_ne_nil _ _
    | Blocked => cases c.k <;> exact List.cons_ne_nil _ _
    | Sectorized =>
      simp only
      rw [sectorizedSteps]
      exact List.cons_ne_nil _ _
    | Grouped =>
      simp only
      rw [groupedSteps]
      exact List.cons_ne_nil _ _

theorem regular_of_confined (ha : c.Admitted) (hpos : 0 < n) (h : Confined c x n) : Regular c x n := by
  have hsizes : ∀ i < n, (x.entries i).size ≠ 0 := by
    intro i hi h0
    obtain ⟨s, hs⟩ := List.exists_mem_of_ne_nil _ (steps_ne_nil (x := x) ha i 0)
    have hown := ((h i hi 0).1 s hs).own
    rw [start, h0] at hown
    simp at hown
    omega
  have hwidth : r.bits ≤ c.blockSize.bits := by
    obtain ⟨s, hs⟩ := List.exists_mem_of_ne_nil _ (steps_ne_nil (x := x) ha 0 0)
    obtain ⟨h1, h2, -⟩ := (h 0 hpos 0).1 s hs
    omega
  have hcount := (h 0 hpos 0).2.1
  have hbounds := fun {a} => computeOffset_bounds (a := a) hx hn hf hpos (hsizes 0 hpos)
  have haddress : (extractBits (c.hash (0 : r.T)) 0 addressBits).toNat < 2 ^ 32 :=
    toNat_extractBits_lt _ _ (by decide)
  have hown := hbounds haddress
  have hstart : start x (0 + 1) ≤ start x n := start_le_of_le hpos
  have horigin := origin hx hn hf hwidth (Nat.lt_of_lt_of_le hown.2 hstart)
  have hsteps := (h 0 hpos 0).1
  have hvertical : c.variant ≠ .Sectorized → c.vectorization = .Horizontal := by
    intro hv
    cases hvec : c.vectorization with
    | Horizontal => rfl
    | Vertical => exact absurd (ha.vertical hvec).1 hv
  refine ⟨hsizes, hwidth, ?_, ?_⟩
  · rintro (hv | hv)
    · unfold steps at hcount
      rw [hvertical (by rw [hv]; decide), hv] at hcount
      simp only [count_naiveSteps] at hcount
      omega
    · unfold steps at hcount
      rw [hvertical (by rw [hv]; decide), hv] at hcount
      simp only [(walk_blockedSteps _ _ hwidth horigin _ _).count] at hcount
      omega
  · intro hv
    have hk : 0 < c.kPerGroup := Nat.div_pos (ha.grouped hv) (by cases c.groups <;> decide)
    unfold steps at hcount hsteps
    rw [hvertical (by rw [hv]; decide), hv] at hcount hsteps
    simp only at hcount hsteps
    have hdvd : c.kPerGroup ∣ c.k := by
      rw [← hcount]
      exact dvd_count_groupedSteps _ _
    rcases Nat.eq_zero_or_pos c.nSectorsPerGroup with h0 | hs
    · exact .inr ⟨h0, hdvd⟩
    left
    by_contra hndvd
    -- more groups are left than there are
    have hpast : c.groups.count + 1 ≤ c.k / c.kPerGroup := by
      obtain ⟨t, ht⟩ := hdvd
      rw [Nat.div_eq_of_eq_mul_right hk ht]
      have hle := Nat.div_mul_le_self c.k c.groups.count
      have hne : c.kPerGroup * c.groups.count ≠ c.kPerGroup * t := fun heq =>
        hndvd ⟨c.kPerGroup, by rw [ht, ← heq, Nat.mul_comm]⟩
      have hlt : c.kPerGroup * c.groups.count < c.kPerGroup * t := Nat.lt_of_le_of_ne (ht ▸ hle) hne
      exact Nat.lt_of_mul_lt_mul_left hlt
    obtain ⟨s, hmem, hblock, g, a, hg, ha', hword⟩ := exists_step_past hk hs _ hpast
    obtain ⟨h1, h2, -⟩ := hsteps s hmem
    have hout := horigin.past hg ha'
    rw [← hword] at hout
    have hmul := nSectors_mul hwidth
    have hmul' : (c.blockSize.bits : Int) * s.block.toNat = r.bits * (s.block.toNat * c.nSectors : Nat) := by
      rw [← hmul]
      push_cast
      ring
    have hmul'' : (c.blockSize.bits : Int) = r.bits * c.nSectors := by
      rw [← hmul]
      push_cast
      rfl
    have hw : (0 : Int) < r.bits := by exact_mod_cast r.bits_pos
    rw [hmul'] at h1 h2
    rw [hmul''] at h2
    rw [← hblock] at hout
    have h1' := le_of_mul_le_mul_left h1 hw
    have h2' : (r.bits : Int) * (s.word + 1) ≤ r.bits * ((s.block.toNat * c.nSectors : Nat) + c.nSectors) := by
      linarith
    have h3 := le_of_mul_le_mul_left h2' hw
    omega

end

/-- Values stay in their blocks unless a partition has no block, a word is longer than a block, there
is no hash, or the groups do not divide `k`. -/
theorem confined_exact {s nPartitions : Nat} {histogram : Nat → r.T} (ha : c.Admitted) (hpos : 0 < nPartitions)
    (hf : NoWrap c (.new c s nPartitions histogram) (c.nParts nPartitions)) :
    Confined c (.new c s nPartitions histogram) (c.nParts nPartitions) ↔
      Regular c (.new c s nPartitions histogram) (c.nParts nPartitions) := by
  have hparts : 0 < c.nParts nPartitions := by
    unfold Config.nParts
    cases c.partitioning with
    | Enabled => exact hpos
    | Disabled => exact Nat.one_pos
  refine ⟨regular_of_confined rfl rfl hf ha hparts, fun hr index hi value => ?_⟩
  obtain ⟨h1, h2⟩ := steps_confined rfl rfl hf ha hr hi value
  exact ⟨h1, h2, fun m => tested_prefix _ m _⟩

def groupedConfig (k : Nat) : Config ._32bit :=
  { variant := .Grouped, vectorization := .Horizontal, blockSize := ._512bit, groups := ._2groups, k,
    simd := .Scalar, partitioning := .Enabled, mode := .Lemire, hash := murmur, rehash :=
    fun _ hash value => murmur (hash ^^^ value) }

def groupedContainer (k : Nat) : BloomContainer ._32bit := .new (groupedConfig k) 100 2 fun _ => 1000

/-- The tests have `k = 8`. -/
theorem confined_groups : Confined (groupedConfig 8) (groupedContainer 8) 2 := by
  have hf : NoWrap (groupedConfig 8) (groupedContainer 8) 2 :=
    ⟨by decide +kernel, by decide +kernel, by decide +kernel⟩
  refine (confined_exact (c := groupedConfig 8) (s := 100) ⟨by decide, by decide, by decide, by decide,
    by decide, by decide⟩ (show 0 < 2 by decide) hf).mpr
      ⟨by decide +kernel, by decide, by decide, fun _ => .inl (by decide)⟩

/-- With `k = 3` the first group is the one before the block. -/
theorem not_confined_groups : ¬Confined (groupedConfig 3) (groupedContainer 3) 2 := by
  intro h
  have hstep := (h 0 (by decide) 0).1
  have hlast :=
    (hstep _ (List.head_mem
      (steps_ne_nil ⟨by decide, by decide, by decide, by decide, by decide, by decide⟩ 0 0))).last
  revert hlast
  decide +kernel

end PartitionedFilters.Bloom

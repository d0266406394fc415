import PartitionedFilters.CuckooPositions
import PartitionedFilters.XorBounds

/-!
# Bit positions in words

The containers compute the position of a bucket, of a block or of a fingerprint in
`T`. It is the exact number as long as that fits, and then distinct slots have
distinct bits inside the array. The largest address decides.
-/

namespace PartitionedFilters.Cuckoo

variable {r : RegisterSize}

/-- Positions are exact, and distinct slots have distinct bits inside the array. -/
structure PositionsExact (v : Variant) (c : Config r) (x : CuckooContainer r) (avx : Bool) (n : Nat) : Prop where
  exact : ∀ i < n, ∀ address, Addressed v c x i address →
    v.position c x avx (c.offset x i) address = exactPosition v c x i address.toNat
  disjoint : ∀ i < n, ∀ j < n, ∀ a b, Addressed v c x i a → Addressed v c x j b →
    a.toNat < (x.entries i).size.toNat → b.toNat < (x.entries j).size.toNat →
    i ≠ j ∨ v.unit c a.toNat ≠ v.unit c b.toNat →
    v.position c x avx (c.offset x i) a + v.extent c ≤ v.position c x avx (c.offset x j) b ∨
      v.position c x avx (c.offset x j) b + v.extent c ≤ v.position c x avx (c.offset x i) a
  inside : ∀ i < n, ∀ a, Addressed v c x i a → a.toNat < (x.entries i).size.toNat →
    v.position c x avx (c.offset x i) a + v.extent c ≤ 8 * x.nBytes

namespace Variant

theorem distance_apart {v : Variant} {c : Config r} {a b : Nat} (h : v.unit c a ≠ v.unit c b) :
    v.distance c a + v.extent c ≤ v.distance c b ∨ v.distance c b + v.extent c ≤ v.distance c a := by
  rw [distance_eq, distance_eq, ← Nat.succ_mul, ← Nat.succ_mul]
  exact (Nat.lt_or_gt_of_ne h).imp (Nat.mul_le_mul_right _) (Nat.mul_le_mul_right _)

end Variant

/-- The size of the array, rounded up to whole cache lines, does not overflow; only buckets need it. -/
def AllocationFits (v : Variant) (c : Config r) (x : CuckooContainer r) (n : Nat) : Prop :=
  (∀ i < n, (x.entries i).size = 0) ∨ v.start c x n + 64 ≤ 2 ^ 64

section
variable {v : Variant} {c : Config r} {x : CuckooContainer r} {avx : Bool} {s nPartitions : Nat}
  {histogram : Nat → r.T} (hx : x = v.new c s nPartitions histogram) (hp : v.Params c)
  (hf : OffsetsFit v c x (c.nParts nPartitions))
include hp hf

theorem exactPosition_le {i a : Nat} (hi : i < c.nParts nPartitions) (ha : a < (x.entries i).size.toNat) :
    exactPosition v c x i a + v.extent c ≤ 8 * v.start c x (i + 1) := by
  have hd := Variant.distance_lt hp ha
  have hregion := (Variant.regionBytes_bounds hp (hf.region i hi).1 (hf.region i hi).2).1
  rw [exactPosition, Variant.start]
  omega

include hx

theorem nBytes_eq : x.nBytes = valign (v.start c x (c.nParts nPartitions)) := by
  rw [← Variant.toNat_offsets hx hf.total]
  subst hx
  cases v <;> rfl

theorem start_le_nBytes (h64 : v.start c x (c.nParts nPartitions) + 64 ≤ 2 ^ 64) {i : Nat}
    (hi : i < c.nParts nPartitions) : v.start c x (i + 1) ≤ x.nBytes := by
  have hle := Variant.start_le_of_le (v := v) (c := c) (x := x) (show i + 1 ≤ _ from hi)
  rw [nBytes_eq hx hp hf, valign_eq h64]
  omega

theorem allocationFits_of_inside (h : ∀ i < c.nParts nPartitions, ∀ a, Addressed v c x i a →
    a.toNat < (x.entries i).size.toNat → v.position c x avx (c.offset x i) a + v.extent c ≤ 8 * x.nBytes) :
    AllocationFits v c x (c.nParts nPartitions) := by
  refine or_iff_not_imp_right.mpr fun h64 i hi => ?_
  by_contra hsize
  have haddr := Standard.address1_lt (Variant.entry_eq hx i) hsize 0
  have hinside := h i hi _ (.address1 0) haddr
  have hpos := Variant.extent_pos hp
  have htotal := hf.total
  have hbits : 2 ^ r.bits ≤ 2 ^ 64 := Nat.pow_le_pow_right (by decide) r.bits_le
  have hnBytes : x.nBytes = 0 := by
    rw [nBytes_eq hx hp hf, valign]
    split <;> omega
  omega

/-- The positions of a container are exact if and only if the one of its largest address is. -/
theorem positionsExact_iff :
    PositionsExact v c x avx (c.nParts nPartitions) ↔
      AllocationFits v c x (c.nParts nPartitions) ∧ ∀ i < c.nParts nPartitions, PartitionFits v c x avx i := by
  constructor
  · intro h
    refine ⟨allocationFits_of_inside hx hp hf h.inside,
      fun i hi => (partitionFits_iff hx i).mpr fun address ha => ?_⟩
    exact (position_eq_exact_iff hx hp hf hi address).mp (h.exact i hi address ha)
  · rintro ⟨h64, h⟩
    have hexact : ∀ i < c.nParts nPartitions, ∀ address, Addressed v c x i address →
        v.position c x avx (c.offset x i) address = exactPosition v c x i address.toNat := fun i hi address ha =>
      (position_eq_exact_iff hx hp hf hi address).mpr ((partitionFits_iff hx i).mp (h i hi) address ha)
    -- the bits of a partition end before the next one starts
    have hbefore : ∀ i j a b, i < j → i < c.nParts nPartitions → a < (x.entries i).size.toNat →
        exactPosition v c x i a + v.extent c ≤ exactPosition v c x j b := by
      intro i j a b hij hi ha
      have hle := exactPosition_le hp hf hi ha
      have hstart := Variant.start_le_of_le (v := v) (c := c) (x := x) (show i + 1 ≤ j from hij)
      rw [exactPosition.eq_def v c x j]
      omega
    refine ⟨hexact, ?_, ?_⟩
    · intro i hi j hj a b ha hb hai hbj hne
      rw [hexact i hi a ha, hexact j hj b hb]
      rcases Nat.lt_trichotomy i j with hij | hij | hij
      · exact .inl (hbefore i j _ _ hij hi hai)
      · subst hij
        have hapart := Variant.distance_apart (hne.resolve_left fun h => h rfl)
        unfold exactPosition
        omega
      · exact .inr (hbefore j i _ _ hij hj hbj)
    · intro i hi a ha hai
      have hle := exactPosition_le hp hf hi hai
      have hne : (x.entries i).size ≠ 0 := fun h0 => by simp [h0] at hai
      have hbytes := start_le_nBytes hx hp hf (h64.resolve_left fun h0 => hne (h0 i hi)) hi
      rw [hexact i hi a ha]
      omega

end

end PartitionedFilters.Cuckoo

namespace PartitionedFilters.Xor

variable {r : RegisterSize} {c : Config r} {n : Nat} {histogram : Nat → Nat}

open PartitionedFilters.Xor.Filter (firstSlot lastSlot)

def bitPosition (c : Config r) (avx : Bool) (address : Nat) : Nat :=
  if !avx && c.byteAddressed then c.k * address else r.wrap (address * c.k)

/-- The running offset counts fingerprints; it does not overflow, nor do the bytes that are allocated for them. -/
structure OffsetsFit (c : Config r) (n : Nat) (histogram : Nat → Nat) : Prop where
  total : firstSlot c histogram n < 2 ^ r.bits
  bytes : firstSlot c histogram n * c.k + 8 ≤ 2 ^ 64

/-- Positions are exact, and distinct slots have distinct bits inside the array. -/
structure PositionsExact (c : Config r) (avx : Bool) (x : XorContainer r) (n : Nat) : Prop where
  exact : ∀ i < n, ∀ set hash, bitPosition c avx (addressOf c x i set hash) = addressOf c x i set hash * c.k
  disjoint : ∀ i < n, ∀ j < n, ∀ set set' hash hash', 0 < (x.entries i).size.toNat → 0 < (x.entries j).size.toNat →
    i ≠ j ∨ c.vertex (x.entries i) set hash ≠ c.vertex (x.entries j) set' hash' →
    bitPosition c avx (addressOf c x i set hash) + c.k ≤ bitPosition c avx (addressOf c x j set' hash') ∨
      bitPosition c avx (addressOf c x j set' hash') + c.k ≤ bitPosition c avx (addressOf c x i set hash)
  inside : ∀ i < n, ∀ set hash, 0 < (x.entries i).size.toNat →
    bitPosition c avx (addressOf c x i set hash) + c.k ≤ 8 * x.nBytes

section
variable {avx : Bool} (hn : c.partitioning = .Disabled → n ≤ 1) (hf : OffsetsFit c n histogram)
include hn hf

theorem positionsFit_iff (hbyte : ¬(avx = false ∧ c.byteAddressed = true)) :
    PositionsFit c avx n histogram ↔
      ∀ i < n, ∀ set hash, addressOf c (.new c n histogram) i set hash * c.k < 2 ^ r.bits := by
  refine ⟨fun h i hi set hash => h.lt hbyte hn hf.total hi set hash, fun hall => .inr ?_⟩
  split
  · rename_i hcase
    obtain ⟨hv, hsize⟩ := hcase
    rcases Nat.eq_zero_or_pos n with h0 | hpos
    · exact .inl h0
    right
    have hi : n - 1 < n := Nat.sub_lt hpos Nat.one_pos
    have hw : ∀ i < n, 0 < (entryOf c (histogram i)).size.toNat := fun i hi => (hsize i hi).1
    obtain ⟨hash, hlast⟩ := exists_vertex_lastSlot hv hpos (hw _ hi) (hsize _ hi).2
    have hfit := hall _ hi 2 hash
    rw [addressOf_eq_vertex hf.total hi (hw _ hi) hn] at hfit
    rwa [← hlast, Nat.add_sub_cancel]
  · exact hall

theorem bitPosition_exact_iff :
    (∀ i < n, ∀ set hash, bitPosition c avx (addressOf c (.new c n histogram) i set hash) =
    addressOf c (.new c n histogram) i set hash * c.k) ↔ PositionsFit c avx n histogram := by
  by_cases hbyte : avx = false ∧ c.byteAddressed = true
  · refine iff_of_true (fun i _ set hash => ?_) (.inl hbyte)
    rw [bitPosition, if_pos (by simp [hbyte]), Nat.mul_comm]
  · rw [positionsFit_iff hn hf hbyte]
    have hcond : (!avx && c.byteAddressed) = false := by
      cases avx <;> simp_all
    refine forall₂_congr fun i _ => forall₂_congr fun set hash => ?_
    rw [bitPosition, hcond, if_neg (by decide)]
    exact ⟨fun h => h ▸ Nat.mod_lt _ (Nat.two_pow_pos r.bits), RegisterSize.wrap_of_lt⟩

/-- The positions of a container are exact if and only if the one of its last fingerprint is. -/
theorem positionsExact_iff : PositionsExact c avx (.new c n histogram) n ↔ PositionsFit c avx n histogram := by
  constructor
  · intro h
    exact (bitPosition_exact_iff hn hf).mp h.exact
  · intro h
    have hexact := (bitPosition_exact_iff hn hf).mpr h
    have haddress : ∀ i < n, 0 < (entryOf c (histogram i)).size.toNat → ∀ set hash,
        addressOf c (.new c n histogram) i set hash =
          firstSlot c histogram i + c.vertex (entryOf c (histogram i)) set hash := fun i hi hpos set hash =>
      addressOf_eq_vertex hf.total hi hpos hn set hash
    have hapart : ∀ a b, a ≠ b → a * c.k + c.k ≤ b * c.k ∨ b * c.k + c.k ≤ a * c.k := by
      intro a b hab
      rw [← Nat.succ_mul, ← Nat.succ_mul]
      exact (Nat.lt_or_gt_of_ne hab).imp (Nat.mul_le_mul_right _) (Nat.mul_le_mul_right _)
    have hbefore : ∀ i j b, i < j → 0 < (entryOf c (histogram i)).size.toNat → ∀ set hash,
        firstSlot c histogram i + c.vertex (entryOf c (histogram i)) set hash < firstSlot c histogram j + b := by
      intro i j b hij hpos set hash
      have hvertex := Config.vertex_lt (Config.address_lt ⟨_, rfl⟩ hpos set hash)
      have hregion := regionStart_le c (fun i => entryOf c (histogram i)) hij
      exact Nat.lt_of_lt_of_le (Nat.add_lt_add_left hvertex _) (Nat.le_trans hregion (Nat.le_add_right _ _))
    refine ⟨hexact, ?_, ?_⟩
    · intro i hi j hj set set' hash hash' hsi hsj hne
      rw [hexact i hi, hexact j hj]
      refine hapart _ _ ?_
      rw [haddress i hi hsi, haddress j hj hsj]
      rcases Nat.lt_trichotomy i j with hij | hij | hij
      · exact Nat.ne_of_lt (hbefore i j _ hij hsi set hash)
      · subst hij
        have hvertex := hne.resolve_left fun h => h rfl
        exact fun h => hvertex (Nat.add_left_cancel h)
      · exact (Nat.ne_of_lt (hbefore j i _ hij hsj set' hash')).symm
    · intro i hi set hash hpos
      have hlt := vertex_lt_lastSlot hi hpos set hash
      have hle : lastSlot c n histogram ≤ firstSlot c histogram n := Nat.sub_le _ _
      have hmul := Nat.mul_le_mul_right c.k (Nat.le_trans (Nat.succ_le_of_lt hlt) hle)
      rw [Nat.succ_mul] at hmul
      rw [hexact i hi, haddress i hi hpos, nBytes_eq hn hf.total hf.bytes]
      omega

end

end PartitionedFilters.Xor

namespace PartitionedFilters

/-- In every container the positions are exact, and distinct slots apart, where the largest position fits. -/
theorem bit_positions_exact_iff (r : RegisterSize) :
    (∀ (v : Cuckoo.Variant) (c : Cuckoo.Config r) (avx : Bool) (s nPartitions : Nat) (histogram : Nat → r.T),
      v.Params c → Cuckoo.OffsetsFit v c (v.new c s nPartitions histogram) (c.nParts nPartitions) →
      (Cuckoo.PositionsExact v c (v.new c s nPartitions histogram) avx (c.nParts nPartitions) ↔
        Cuckoo.AllocationFits v c (v.new c s nPartitions histogram) (c.nParts nPartitions) ∧
          ∀ i < c.nParts nPartitions, Cuckoo.PartitionFits v c (v.new c s nPartitions histogram) avx i)) ∧
    ∀ (c : Xor.Config r) (avx : Bool) (n : Nat) (histogram : Nat → Nat), (c.partitioning = .Disabled → n ≤ 1) →
      Xor.OffsetsFit c n histogram →
      (Xor.PositionsExact c avx (.new c n histogram) n ↔ Xor.PositionsFit c avx n histogram) :=
  ⟨fun _ _ _ _ _ _ hp hf => Cuckoo.positionsExact_iff rfl hp hf, fun _ _ _ _ hn hf => Xor.positionsExact_iff hn hf⟩

open Cuckoo.Standard (packedConfig wideConfig wideContainer)

theorem bit_positions_packed : Cuckoo.PositionsExact .Standard packedConfig
    (Cuckoo.Standard.new packedConfig 100 2 fun i => BitVec.ofNat 32 (3 + i)) true 2 := by
  have hfits : ∀ i < 2, Cuckoo.PartitionFits .Standard packedConfig
      (Cuckoo.Standard.new packedConfig 100 2 fun i => BitVec.ofNat 32 (3 + i)) true i := fun i hi => by
    have hcase : ∀ i < 2, packedConfig.mode ≠ .Morton ∧
        ((Cuckoo.Standard.new packedConfig 100 2 fun i => BitVec.ofNat 32 (3 + i)).entries i).size ≠ 0 ∧
        ((Cuckoo.Standard.new packedConfig 100 2 fun i => BitVec.ofNat 32 (3 + i)).entries i).size.toNat <
          2 ^ 32 := by
      decide +kernel
    have hlast : ∀ i < 2, Cuckoo.PositionFits .Standard packedConfig
        (Cuckoo.Standard.new packedConfig 100 2 fun i => BitVec.ofNat 32 (3 + i)) true i
        (((Cuckoo.Standard.new packedConfig 100 2 fun i => BitVec.ofNat 32 (3 + i)).entries i).size.toNat - 1) := by
      decide +kernel
    rw [Cuckoo.PartitionFits, if_pos (hcase i hi)]
    exact hlast i hi
  exact ((bit_positions_exact_iff ._32bit).1 .Standard packedConfig true 100 2 (fun i => BitVec.ofNat 32 (3 + i))
    ⟨by decide, by decide, by decide⟩ ⟨by decide +kernel, by decide +kernel⟩).mpr
    ⟨.inr (by decide +kernel), hfits⟩

/-- The last of 2^28 buckets of 20 bits, whose bytes fit in 32 bits. -/
theorem not_bit_positions_wide : Cuckoo.OffsetsFit .Standard wideConfig wideContainer 1 ∧
    ¬Cuckoo.PositionsExact .Standard wideConfig wideContainer false 1 := by
  refine ⟨⟨by decide +kernel, by decide +kernel⟩, fun h => ?_⟩
  have hexact := h.exact 0 Nat.one_pos _ (.address1 (r := ._32bit) (BitVec.allOnes 32))
  exact absurd hexact (by decide +kernel)

end PartitionedFilters

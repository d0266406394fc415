import PartitionedFilters.CuckooSimd
import PartitionedFilters.MortonSimd

/-!
# Lanes of the cuckoo filter

What `contains` finds in a lane depends on the value and on the mask of this
lane only, in both variants.
-/

namespace PartitionedFilters.Cuckoo

variable {r : RegisterSize} {n : Nat} {c : Config r} {x : CuckooContainer r} {m : Mem} {l l' : Fin n}
  {fingerprint fingerprint' : Lanes r n} {mask mask' : LaneMask n} (hn : n * r.bits ≤ 512)
  (hf : fingerprint l = fingerprint' l') (hm : mask l = mask' l')

theorem getLsbD_equal_permute_lane {k : Nat} (hk : k = 8 ∨ k = 16) (hn : n * r.bits ≤ 512)
    {bucket bucket' : Lanes r n} (hb : bucket l = bucket' l') (hf : fingerprint l = fingerprint' l') {j : Nat}
    (hj : j < r.bits / k) :
    (Lanes.equal k bucket (Lanes.permute k fingerprint)).getLsbD (r.bits / k * l + j) =
      (Lanes.equal k bucket' (Lanes.permute k fingerprint')).getLsbD (r.bits / k * l' + j) := by
  rw [getLsbD_equal hk hn _ _ _ hj, getLsbD_equal hk hn _ _ _ hj, lane_permute hk _ _ hj,
    lane_permute hk _ _ hj, hb, hf]

namespace Standard.Simd

include hn hf hm in
theorem bucketContains_lane (hb : c.k * c.associativity ≤ r.bits)
    {address address' byteOffset byteOffset' : Lanes r n} (ha : address l = address' l')
    (ho : byteOffset l = byteOffset' l') :
    bucketContains c x fingerprint address byteOffset mask m l =
      bucketContains c x fingerprint' address' byteOffset' mask' m l' := by
  have hbucket : loadBucket c x address byteOffset mask m l = loadBucket c x address' byteOffset' mask' m l' :=
    Lanes.gatheruBits_lane (by rw [ha, ho]) hm
  simp only [bucketContains]
  by_cases hk : c.k = 8 ∨ c.k = 16
  · obtain ⟨hpos, -⟩ := fields_pos (r := r) hk
    have hslots : c.associativity ≤ r.bits / c.k := by
      rw [Nat.le_div_iff_mul_le hpos, Nat.mul_comm]
      exact hb
    rw [if_pos hk, if_pos hk]
    exact getLsbD_pext64_foldEqual_congr hk hn hslots fun j hj => getLsbD_equal_permute_lane hk hn hbucket hf hj
  · rw [if_neg hk, if_neg hk, hbucket, hf]

theorem contains_lane (hn : n * r.bits ≤ 512) (hb : c.k * c.associativity ≤ r.bits) {value value' : Lanes r n}
    (hv : value l = value' l') (hm : mask l = mask' l') (index : Nat) :
    contains c x value index mask m l = contains c x value' index mask' m l' := by
  simp only [contains]
  refine congrArg₂ and hm (congrArg₂ or ?_ ?_)
  · exact bucketContains_lane hn (by rw [hv]) hm hb (by rw [hv]) rfl
  · exact bucketContains_lane hn (by rw [hv]) hm hb (by rw [hv]) rfl

end Standard.Simd

namespace Morton.Simd

section
variable {bucketIndex bucketIndex' blockOffset blockOffset' : Lanes r n} (hi : bucketIndex l = bucketIndex' l')
  (ho : blockOffset l = blockOffset' l')
include hi ho hm

theorem getSlotCount_lane :
    getSlotCount c x bucketIndex blockOffset mask m l = getSlotCount c x bucketIndex' blockOffset' mask' m l' :=
  Lanes.gatheruBits_lane (by rw [hi, ho]) hm

omit hi ho in
theorem sumStep_lane {s s' : Sum r n} (hc : s.count l = s'.count l') (hx : s.index l = s'.index l')
    (hb : s.bitAddress l = s'.bitAddress l') :
    (sumStep c x mask m s).count l = (sumStep c x mask' m s').count l' ∧
      (sumStep c x mask m s).index l = (sumStep c x mask' m s').index l' ∧
      (sumStep c x mask m s).bitAddress l = (sumStep c x mask' m s').bitAddress l' := by
  simp only [sumStep]
  rw [Lanes.gatheruBits_lane hb hm, hc, hx, hb]
  exact ⟨rfl, rfl, rfl⟩

theorem getSlotOffset_lane :
    getSlotOffset c x bucketIndex blockOffset mask m l =
      getSlotOffset c x bucketIndex' blockOffset' mask' m l' := by
  have hsteps : ∀ (pieces : List Nat) (s s' : Sum r n), s.count l = s'.count l' → s.index l = s'.index l' →
      s.bitAddress l = s'.bitAddress l' → (pieces.foldl (fun s _ => sumStep c x mask m s) s).count l =
        (pieces.foldl (fun s _ => sumStep c x mask' m s) s').count l' := by
    intro pieces
    induction pieces with
    | nil => exact fun _ _ hc _ _ => hc
    | cons _ pieces ih =>
      intro s s' hc hx hb
      obtain ⟨h1, h2, h3⟩ := sumStep_lane (c := c) (x := x) (m := m) hm hc hx hb
      exact ih _ _ h1 h2 h3
  exact hsteps _ _ _ rfl hi ho

end

include hn hf hm in
theorem lookupStep_lane {s s' : Lookup r n} (hs : s.found l = s'.found l') (hc : s.slotCount l = s'.slotCount l')
    (hb : s.bitAddress l = s'.bitAddress l') (i : Nat) :
    let t := lookupStep c x fingerprint mask m i s
    let t' := lookupStep c x fingerprint' mask' m i s'
    t.found l = t'.found l' ∧ t.slotCount l = t'.slotCount l' ∧ t.bitAddress l = t'.bitAddress l' := by
  have hbucket : Lanes.gatheruBits false (c.simdSlotsToLoad * c.k) s.bitAddress x.filter mask m l =
      Lanes.gatheruBits false (c.simdSlotsToLoad * c.k) s'.bitAddress x.filter mask' m l' :=
      Lanes.gatheruBits_lane hb hm
  simp only [lookupStep]
  by_cases hk : c.k = 8 ∨ c.k = 16
  · rw [if_pos hk, if_pos hk]
    refine ⟨?_, by simp only [hc], by simp only [hb]⟩
    simp only
    refine congrArg₂ or hs (getLsbD_pext64_foldEqual_congr hk hn (Nat.min_le_right ..) fun j hj => ?_)
    rw [BitVec.getLsbD_and, BitVec.getLsbD_and]
    refine congrArg₂ and (getLsbD_equal_permute_lane hk hn hbucket hf hj) ?_
    rw [getLsbD_equal hk hn _ _ _ hj, getLsbD_equal hk hn _ _ _ hj, hc]
  · rw [if_neg hk, if_neg hk]
    refine ⟨?_, hc, by simp only [hb]⟩
    simp only [hs, hc, hbucket, hf]

include hn hf hm in
theorem bucketContains_lane {bucketIndex bucketIndex' blockOffset blockOffset' : Lanes r n}
    (hi : bucketIndex l = bucketIndex' l') (ho : blockOffset l = blockOffset' l') :
    bucketContains c x fingerprint bucketIndex blockOffset mask m l =
      bucketContains c x fingerprint' bucketIndex' blockOffset' mask' m l' := by
  have hcount := getSlotCount_lane (c := c) (x := x) (m := m) hm hi ho
  have hoffset := getSlotOffset_lane (c := c) (x := x) (m := m) hm hi ho
  have hsteps : ∀ (pieces : List Nat) (s s' : Lookup r n), s.found l = s'.found l' →
      s.slotCount l = s'.slotCount l' →
      s.bitAddress l = s'.bitAddress l' →
      (pieces.foldl (fun s t => lookupStep c x fingerprint mask m (c.simdSlotsToLoad * t) s) s).found l =
        (pieces.foldl (fun s t => lookupStep c x fingerprint' mask' m (c.simdSlotsToLoad * t) s) s').found l' := by
    intro pieces
    induction pieces with
    | nil => exact fun _ _ hs _ _ => hs
    | cons t pieces ih =>
      intro s s' hs hc hb
      obtain ⟨h1, h2, h3⟩ := lookupStep_lane (c := c) (x := x) (m := m) hn hf hm hs hc hb (c.simdSlotsToLoad * t)
      exact ih _ _ h1 h2 h3
  simp only [bucketContains]
  exact hsteps _ _ _ rfl hcount (by simp only [hcount, hoffset, ho])

theorem contains_lane (hn : n * r.bits ≤ 512) {value value' : Lanes r n} (hv : value l = value' l')
    (hm : mask l = mask' l') (divide : Nat → r.T → r.T) (index : Nat) :
    contains c x divide value index mask m l = contains c x divide value' index mask' m l' := by
  simp only [contains]
  refine congrArg₂ and hm (congrArg₂ or ?_ ?_)
  · exact bucketContains_lane hn (by rw [hv]) hm (by rw [hv]) (by rw [hv])
  · refine bucketContains_lane hn (by rw [hv]) ?_ (by rw [hv]) (by rw [hv])
    split
    · simp only [getOta]
      rw [Lanes.gatheruBits_lane (by rw [hv]) hm, hm]
    · exact hm

end Morton.Simd

end PartitionedFilters.Cuckoo

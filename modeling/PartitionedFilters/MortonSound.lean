import PartitionedFilters.MortonStored

/-!
# Soundness of the Morton container

Where no address wraps, an insertion is a chain of relocations as in the standard
container: the entries of the stored fingerprints change by the inserted key
alone, up to one that is left over when the call fails. A bucket that loses a
fingerprint has its overflow-tracking bit set, so the lookup that stops at a
clear bit misses nothing.
-/

namespace PartitionedFilters.Cuckoo.Morton

open Standard (Bucket buckets mem_buckets alt)

variable {r : RegisterSize} {c : Config r} {x : CuckooContainer r} {n : Nat}

/-! ## The fingerprint on its way -/

/-- With the carried fingerprint the entries are `total`; what buckets have lost since `m₀` is tracked. -/
structure Carried (c : Config r) (x : CuckooContainer r) (n index : Nat)
    (total : Multiset (BitVec c.k × Sym2 Bucket)) (m₀ : Mem) (v : Cursor r) : Prop extends At c x n index v where
  lt : v.fingerprint.toNat < 2 ^ c.k
  supported : Supported c x n v.mem
  tracks : Tracks c x n m₀ v.mem
  carries : Relocation.Carries (alt c x) (buckets x n) total (content c x v.mem) (index, v.address.toNat)
    (v.fingerprint.setWidth c.k)

theorem alt_eq (index : Nat) (address : r.T) (f : BitVec c.k) : alt c x (index, address.toNat) f =
    (index, ((x.entries index).computeAlternativeAddress c.mode address (f.setWidth r.bits)).toNat) := by
  rw [alt, BitVec.ofNat_toNat, BitVec.setWidth_eq]

theorem toNat_setWidth_lt (hk : c.k ≤ r.bits) (f : BitVec c.k) : (f.setWidth r.bits).toNat < 2 ^ c.k ∧
    (f.setWidth r.bits).setWidth c.k = f := by
  refine ⟨?_, ?_⟩
  · rw [BitVec.toNat_setWidth]
    exact Nat.lt_of_le_of_lt (Nat.mod_le _ _) f.isLt
  · rw [BitVec.setWidth_setWidth_of_le _ hk, BitVec.setWidth_eq]

/-- A step that gives slots to a bucket of the table, and otherwise only takes some. -/
theorem Supported.step {m m' : Mem} (h : Supported c x n m) {p : Bucket} (hp : p ∈ buckets x n)
    (hcounter : ∀ block : r.T, 512 ∣ block.toNat → ∀ i < c.bucketsPerBlock, 0 < counter c m' (base x block) i →
      0 < counter c m (base x block) i ∨ block = blockOf c x p ∧ i = indexOf c p) : Supported c x n m' := by
  intro block hb i hi hpos
  rcases hcounter block hb i hi hpos with hpos | ⟨hblock, hindex⟩
  · exact h block hb i hi hpos
  · exact ⟨p, hp, hblock.symm, hindex.symm⟩

section
variable (hl : Layout c x n) {index : Nat} {v : Cursor r} (hv : At c x n index v)
include hl hv

theorem At.alt_mem (f : BitVec c.k) : alt c x (index, v.address.toNat) f ∈ buckets x n ∧
    alt c x (alt c x (index, v.address.toNat) f) f = (index, v.address.toNat) :=
  Standard.alt_mem_of_entries (hl.entries index (mem_buckets.mp hv.mem).1) hl.mode (mem_buckets.mp hv.mem).1
    (mem_buckets.mp hv.mem).2 f

theorem At.victim_bucket (hs : Supported c x n v.mem) {candidate : Nat × Nat} (hi : IsVictim c x v candidate) :
    ∃ address : r.T, (index, address.toNat) ∈ buckets x n ∧ blockOf c x (index, address.toNat) =
      v.probe.blockOffset ∧
      indexOf c (index, address.toNat) = candidate.1 ∧
      victimAddress c x index v candidate = (x.entries index).computeAlternativeAddress c.mode address
        ((slot c v.mem (base x v.probe.blockOffset) candidate.2).setWidth r.bits) := by
  obtain ⟨⟨i, a⟩, hp, hblock, hindex⟩ := hs _ hv.valid.probed.aligned _ hi.lt hi.counter_pos
  obtain ⟨hfirst, hdiv⟩ := hl.blockOf_inj hp hv.mem (hblock.trans hv.block)
  obtain ⟨hlt, -, -⟩ := hi.bounds hv.valid
  obtain rfl : i = index := hfirst
  have ha := Nat.lt_trans (mem_buckets.mp hp).2 (x.entries i).size.isLt
  have hof : (BitVec.ofNat r.bits a).toNat = a := by
    rw [BitVec.toNat_ofNat]
    exact Nat.mod_eq_of_lt ha
  have hbuckets := hl.params.buckets_le
  have hi_lt := hi.lt
  have hmod := hv.bucketIndex
  have hle := Nat.mod_le v.address.toNat c.bucketsPerBlock
  have hdm := Nat.div_add_mod v.address.toNat c.bucketsPerBlock
  have hdm' := Nat.div_add_mod a c.bucketsPerBlock
  rw [indexOf] at hmod hindex
  simp only at hdiv hmod hindex
  have heq : v.address - v.probe.bucketIndex + BitVec.ofNat r.bits candidate.1 = BitVec.ofNat r.bits a := by
    refine BitVec.eq_of_toNat_eq ?_
    rw [hdiv] at hdm'
    rw [BitVec.toNat_add, BitVec.toNat_sub_of_le (BitVec.le_def.mpr (by omega)), toNat_ofNat_of_le (by omega), hof,
      hmod, Nat.mod_eq_of_lt (by omega)]
    omega
  refine ⟨BitVec.ofNat r.bits a, by rw [hof]; exact hp, by rw [hof]; exact hblock, by rw [hof]; exact hindex, ?_⟩
  rw [victimAddress, heq, readFingerprint_eq (hv.reachesEnd hl) hl.params v.mem hlt]

end

/-! ## Steps -/

section
variable (hl : Layout c x n) {index : Nat} {total : Multiset (BitVec c.k × Sym2 Bucket)} {m₀ : Mem} {v : Cursor r}
include hl

/-- What is lost is tracked if it is lost in a bucket that counts as overflowed. -/
theorem At.tracks_step (hv : At c x n index v) {m' : Mem} (hkept : Kept c x v.probe.blockOffset v.mem m')
    (hcontent : ∀ p ∈ buckets x n, overflowed c x m' p = true ∨ content c x v.mem p ≤ content c x m' p) :
    Tracks c x n v.mem m' := by
  intro p hp hclear
  refine ⟨?_, (hcontent p hp).resolve_left (by rw [hclear]; decide)⟩
  by_contra hset
  have hset' := hl.overflowed_kept hp hv.valid.probed.aligned hkept (Bool.not_eq_false _ ▸ hset)
  rw [hclear] at hset'
  exact absurd hset' (by decide)

theorem Carried.place (h : Carried c x n index total m₀ v) (hfree : v.probe.free = true) {m' : Mem}
    (hm : bucketInsert c x v.fingerprint v.probe.bucketIndex v.probe.blockOffset
      (getSlotOffset c x v.probe.bucketIndex v.probe.blockOffset v.mem) v.probe.slotCount
        v.probe.occupiedSlots v.mem = m') :
    stored c x n m' = total ∧ AllWellFormed c x m' ∧ Supported c x n m' ∧ Tracks c x n m₀ m' ∧
      v.fingerprint.setWidth c.k ∈ content c x m' (index, v.address.toNat) := by
  have hw := hl.writable index
  have hv := h.toAt
  obtain ⟨hkept, hgain, hrest⟩ := hv.bucketInsert hl hfree v.fingerprint hm
  have hwf := wellFormed_bucketInsert hw hv.valid hfree v.fingerprint
  have hcounter := fun {block : r.T} (hb : 512 ∣ block.toNat) {i : Nat} (hi : i < c.bucketsPerBlock) =>
    counter_bucketInsert hw hv.valid hfree v.fingerprint hb hi
  rw [hm] at hwf hcounter
  refine ⟨h.carries.place hgain hrest, hwf, ?_, h.tracks.trans (hv.tracks_step hl hkept fun p hp => .inr ?_), ?_⟩
  · refine h.supported.step hv.mem fun block hb i hi hpos => ?_
    rw [hcounter hb hi] at hpos
    by_cases hbi : block = v.probe.blockOffset ∧ i = v.probe.bucketIndex.toNat
    · exact .inr ⟨hbi.1.trans hv.block, hbi.2.trans hv.bucketIndex⟩
    · rw [if_neg hbi] at hpos
      exact .inl hpos
  · by_cases hne : p = (index, v.address.toNat)
    · rw [hne, hgain]
      exact Multiset.le_cons_self _ _
    · rw [hrest p hp hne]
  · rw [hgain]
    exact Multiset.mem_cons_self _ _

/-- The cursor behind an eviction, where its probe looks at the bucket of the victim's other address. -/
theorem Carried.next (h : Carried c x n index total m₀ v) {v' : Cursor r} (hvalid : v'.Valid c x) {p : Bucket}
    {y : BitVec c.k} (halt : (index, v'.address.toNat) = alt c x p y)
    (hfingerprint : v'.fingerprint = y.setWidth r.bits)
    (hplace : v'.probe.blockOffset = blockOf c x (index, v'.address.toNat) ∧
      v'.probe.bucketIndex.toNat = indexOf c (index, v'.address.toNat))
    (hsupported : Supported c x n v'.mem) (htracks : Tracks c x n v.mem v'.mem)
    (hcarries : Relocation.Carries (alt c x) (buckets x n) total (content c x v'.mem) (alt c x p y) y) :
    Carried c x n index total m₀ v' := by
  obtain ⟨hlt, hwidth⟩ := toNat_setWidth_lt (r := r) hl.params.k_le y
  refine ⟨⟨hvalid, halt ▸ hcarries.mem, hplace.1, hplace.2⟩, hfingerprint ▸ hlt, hsupported,
    h.tracks.trans htracks, ?_⟩
  rw [halt, hfingerprint, hwidth]
  exact hcarries

theorem Carried.evictVictim_bucket (h : Carried c x n index total m₀ v)
    (hcount : v.probe.slotCount.toNat = c.associativity) {randomIndex : Nat}
    (hrandom : randomIndex < c.associativity) :
    Carried c x n index total m₀ (evictVictim c x index randomIndex (c.offset x index)
      (getSlotOffset c x v.probe.bucketIndex v.probe.blockOffset v.mem) v) := by
  have hw := hl.writable index
  have hv := h.toAt
  have hb := hv.valid.probed.aligned
  have hle := slotsBefore_add_le (hv.valid.wellFormed _ hb) hv.valid.probed.bucket
  have ht : randomIndex < counter c v.mem (base x v.probe.blockOffset) v.probe.bucketIndex.toNat := by
    rw [← hv.valid.probed.count, hcount]
    exact hrandom
  have hslot : slotsBefore c v.mem (base x v.probe.blockOffset) v.probe.bucketIndex.toNat + randomIndex <
      c.slotsPerBlock := by
    omega
  obtain ⟨hkept, hswap, hrest⟩ := hv.replace hl ht rfl
  have hvalid := valid_evictVictim_bucket hw hv.valid index hcount hrandom
  obtain ⟨hdom, hinv⟩ := hv.alt_mem hl (slot c v.mem (base x v.probe.blockOffset)
    (slotsBefore c v.mem (base x v.probe.blockOffset) v.probe.bucketIndex.toNat + randomIndex))
  have hcounters := (sameCounters_setFingerprint hw.params hw.filter_ge hb v.mem v.fingerprint hslot).trans
    (sameCounters_setOta hw.params hb _ v.probe.bucketIndex)
  have hover := hl.overflowed_setOta hv.mem (setFingerprint c x (slotsBefore c v.mem (base x v.probe.blockOffset)
    v.probe.bucketIndex.toNat + randomIndex) v.probe.blockOffset v.fingerprint v.mem) hv.bucketIndex
  rw [← hv.block] at hover
  rw [evictVictim, if_pos hcount, hv.valid.toNat_slotOffset hw,
    readFingerprint_eq (hv.reachesEnd hl) hw.params v.mem hslot] at hvalid ⊢
  refine h.next hl hvalid (alt_eq index v.address _).symm rfl (isFree_place hl.toReadable index _ _) ?_ ?_
    (h.carries.swap hswap hrest hdom hinv)
  · refine h.supported.step hv.mem fun block hb' i hi hpos => .inl ?_
    rwa [hcounters block hb' i hi] at hpos
  · refine hv.tracks_step hl hkept fun p hp => ?_
    by_cases hne : p = (index, v.address.toNat)
    · exact .inl (hne ▸ hover)
    · exact .inr (hrest p hp hne).ge

theorem Carried.evictVictim_block (h : Carried c x n index total m₀ v) (hover : BlockOverflow c v)
    (randomIndex : Nat) :
    Carried c x n index total m₀ (evictVictim c x index randomIndex (c.offset x index)
      (getSlotOffset c x v.probe.bucketIndex v.probe.blockOffset v.mem) v) := by
  have hw := hl.writable index
  have hv := h.toAt
  have hp := hl.params
  have hvalid := valid_evictVictim_block hw hv.valid index hover hl.size_le randomIndex
  obtain ⟨candidate, count, m, hi, hd, hcount, heq⟩ :=
    Morton.evictVictim_block hw hv.valid index hover hl.size_le randomIndex
  obtain ⟨address, hmem, hblock, hindex, haddress⟩ := hv.victim_bucket hl h.supported hi
  have hne : (index, v.address.toNat) ≠ (index, address.toNat) := fun he =>
    hi.ne (by rw [← hindex, ← he, hv.bucketIndex])
  have hcandidate : (BitVec.ofNat r.bits candidate.1).toNat = indexOf c (index, address.toNat) := by
    have hlt := hi.lt
    have hbuckets := hp.buckets_le
    rw [hindex]
    exact toNat_ofNat_of_le (by omega)
  have hsame := hd.sameCounters hw hv.valid hi
  obtain ⟨hgain, hlose, hrest⟩ := hv.relocate hl hover hi hd hcount rfl
  have hkept := (hv.kept_displacement hl hi hd).trans (hv.kept_relocate hp (c.offset x index) hi count m).1
  have hset : overflowed c x (relocate c x index (c.offset x index) v candidate count m).mem (index,
      address.toNat) = true := by
    rw [relocate, ← hblock]
    exact hl.overflowed_setOta hmem _ hcandidate
  obtain ⟨hdom, hinv⟩ :=
    Standard.alt_mem_of_entries (hl.entries index (mem_buckets.mp hmem).1) hl.mode (mem_buckets.mp hmem).1
    (mem_buckets.mp hmem).2 (slot c v.mem (base x v.probe.blockOffset) candidate.2)
  rw [heq] at hvalid ⊢
  refine h.next hl hvalid (p := (index, address.toNat))
    (y := slot c v.mem (base x v.probe.blockOffset) candidate.2) ?_
    (readFingerprint_eq (hv.reachesEnd hl) hp v.mem (hi.bounds hv.valid).1)
    (isFree_place hl.toReadable index (victimAddress c x index v candidate) v.mem) ?_ ?_
    (h.carries.displace hmem hne hgain (hlose _ hmem hblock hindex) (fun p hp' hpv hpa => ?_) hdom hinv)
  · rw [alt_eq, ← haddress]
    rfl
  · refine h.supported.step hv.mem fun block hb i hlt hpos => ?_
    rw [counter_relocate hw hv.valid hover hi hsame hcount index hb hlt] at hpos
    split at hpos
    · exact .inl (by omega)
    · split at hpos
      · rename_i hbi
        exact .inr ⟨hbi.1.trans hv.block, hbi.2.trans hv.bucketIndex⟩
      · exact .inl hpos
  · refine hv.tracks_step hl hkept fun p hp' => ?_
    by_cases hpa : p = (index, address.toNat)
    · exact .inl (hpa ▸ hset)
    · by_cases hpv : p = (index, v.address.toNat)
      · rw [hpv, hgain]
        exact .inr (Multiset.le_cons_self _ _)
      · refine .inr (hrest p hp' hpv fun hpb hpi => hpa ?_).ge
        exact hl.eq_of_blockOf hp' hmem (hpb.trans hblock.symm) (hpi.trans hindex.symm)
  · exact hrest p hp' hpv fun hpb hpi =>
      hpa (hl.eq_of_blockOf hp' hmem (hpb.trans hblock.symm) (hpi.trans hindex.symm))

theorem Carried.evictVictim (h : Carried c x n index total m₀ v) (hfull : v.probe.free = false) {randomIndex : Nat}
    (hrandom : randomIndex < c.associativity) :
    Carried c x n index total m₀ (evictVictim c x index randomIndex (c.offset x index)
      (getSlotOffset c x v.probe.bucketIndex v.probe.blockOffset v.mem) v) := by
  by_cases hcount : v.probe.slotCount.toNat = c.associativity
  · exact h.evictVictim_bucket hl hcount hrandom
  · exact h.evictVictim_block hl ⟨hfull, hcount⟩ randomIndex

/-- A fingerprint that finds its first bucket occupied goes to its other one. -/
theorem Carried.alternate (h : Carried c x n index total m₀ v) {m₁ : Mem}
    (hm : setOta c x v.probe.bucketIndex v.probe.blockOffset v.mem = m₁) {address : r.T}
    (ha : (x.entries index).computeAlternativeAddress c.mode v.address v.fingerprint = address) :
    Carried c x n index total m₁ ⟨address, v.fingerprint, isFree c x (c.offset x index) address m₁, m₁⟩ ∧
      Tracks c x n v.mem m₁ ∧ overflowed c x m₁ (index, v.address.toNat) = true := by
  have hp := hl.params
  have hv := h.toAt
  have hb := hv.valid.probed.aligned
  obtain ⟨hkept, hsame⟩ := kept_setOta (x := x) hp hb v.mem (i := v.probe.bucketIndex)
  have hcounters := sameCounters_setOta (x := x) hp hb v.mem v.probe.bucketIndex
  have hover := hl.overflowed_setOta hv.mem v.mem hv.bucketIndex
  obtain ⟨hdom, hinv⟩ := hv.alt_mem hl (v.fingerprint.setWidth c.k)
  have halt := h.carries.alternate hdom hinv
  have hplace := isFree_place (x := x) hl.toReadable index address m₁
  have haddress := alt_eq (c := c) (x := x) index v.address (v.fingerprint.setWidth c.k)
  rw [Standard.setWidth_setWidth h.lt, ha] at haddress
  rw [← hv.block, hm] at hover
  rw [hm] at hkept hsame hcounters
  have hcontent : ∀ p ∈ buckets x n, content c x m₁ p = content c x v.mem p := fun p hp' =>
    hl.content_congr hp' hv.valid.wellFormed (hcounters _ (hl.aligned_blockOf hp'))
      (hsame _ (hl.aligned_blockOf hp'))
  have hwf := hcounters.wellFormed hv.valid.wellFormed
  refine ⟨⟨⟨⟨hwf, probed_isFree hl.toReadable hwf (hl.aligned index) _⟩, haddress ▸ hdom, hplace.1, hplace.2⟩, h.lt,
    h.supported.step hv.mem fun block hb i hi hpos => .inl (by rwa [hcounters block hb i hi] at hpos), .refl m₁,
    haddress ▸ hdom, ?_⟩, hv.tracks_step hl hkept fun p hp' => .inr (hcontent p hp').ge, hover⟩
  rw [Relocation.entries_congr hcontent, ← haddress]
  exact halt.entries_eq

/-- The loop: the carried fingerprint is placed, or one is left over. -/
theorem Carried.insertLoop {random : Nat → Nat} (hrandom : ∀ i, random i < c.associativity) (fuel : Nat) :
    ∀ (i : Nat) (v : Cursor r), Carried c x n index total m₀ v →
      Standard.Accounts total (stored c x n (insertLoop c x index (c.offset x index) random fuel i v).2)
          (insertLoop c x index (c.offset x index) random fuel i v).1 ∧
        AllWellFormed c x (insertLoop c x index (c.offset x index) random fuel i v).2 ∧
        Supported c x n (insertLoop c x index (c.offset x index) random fuel i v).2 ∧
        Tracks c x n m₀ (insertLoop c x index (c.offset x index) random fuel i v).2 := by
  induction fuel with
  | zero => exact fun i v h => ⟨⟨_, h.carries.entries_eq⟩, h.valid.wellFormed, h.supported, h.tracks⟩
  | succ fuel ih =>
    intro i v h
    rw [Morton.insertLoop]
    cases hfree : v.probe.free with
    | true =>
      simp only [if_true]
      obtain ⟨h1, h2, h3, h4, -⟩ := h.place hl hfree rfl
      exact ⟨h1, h2, h3, h4⟩
    | false =>
      simp only [Bool.false_eq_true, if_false]
      exact ih (i + 1) _ (h.evictVictim hl hfree (hrandom i))

end

/-! ## Insertion -/

def keyFingerprint (c : Config r) (value : r.T) : BitVec c.k :=
  (AddresserEntry.fingerprint c.k (c.hash value)).setWidth c.k

def keyBucket (c : Config r) (x : CuckooContainer r) (value : r.T) (index : Nat) : Bucket :=
  (index, (c.address1 x index (c.hash value)).toNat)

def keyEntry (c : Config r) (x : CuckooContainer r) (value : r.T) (index : Nat) : BitVec c.k × Sym2 Bucket :=
  Relocation.entry (alt c x) (keyBucket c x value index) (keyFingerprint c value)

/-- What every run keeps. -/
structure Sound (c : Config r) (x : CuckooContainer r) (n : Nat) (m : Mem) : Prop where
  wellFormed : AllWellFormed c x m
  supported : Supported c x n m

/-- A key is found in its first bucket, or that bucket counts as overflowed. -/
def Findable (c : Config r) (x : CuckooContainer r) (m : Mem) (value : r.T) (index : Nat) : Prop :=
  overflowed c x m (keyBucket c x value index) = false →
  keyFingerprint c value ∈ content c x m (keyBucket c x value index)

section
variable (hl : Layout c x n) {index : Nat} (hi : index < n) (hsize : (x.entries index).size ≠ 0) (value : r.T)
include hl hi hsize

theorem Layout.keyBucket_mem : keyBucket c x value index ∈ buckets x n :=
  mem_buckets.mpr ⟨hi, Standard.address1_lt (hl.entries index hi) hsize (c.hash value)⟩

theorem Layout.insert_spec {random : Nat → Nat} (hrandom : ∀ i, random i < c.associativity) {m : Mem}
    (hs : Sound c x n m) :
    Standard.Accounts (keyEntry c x value index ::ₘ stored c x n m)
      (stored c x n (insert c x value index random m).2) (insert c x value index random m).1 ∧
      Sound c x n (insert c x value index random m).2 ∧ Tracks c x n m (insert c x value index random m).2 ∧
      ((insert c x value index random m).1 = true →
      Findable c x (insert c x value index random m).2 value index) := by
  have hp := hl.params
  have hmem := hl.keyBucket_mem hi hsize value
  have hprobed := probed_isFree hl.toReadable hs.wellFormed (hl.aligned index) (c.address1 x index (c.hash value))
  have hplace := isFree_place (x := x) hl.toReadable index (c.address1 x index (c.hash value)) m
  have hat : At c x n index ⟨c.address1 x index (c.hash value), AddresserEntry.fingerprint c.k (c.hash value),
      isFree c x (c.offset x index) (c.address1 x index (c.hash value)) m, m⟩ :=
    ⟨⟨hs.wellFormed, hprobed⟩, hmem, hplace.1, hplace.2⟩
  have hlt := toNat_fingerprint_lt hp.k_le (c.hash value)
  have hcarried :
      Carried c x n index (keyEntry c x value index ::ₘ stored c x n m) m ⟨c.address1 x index (c.hash value),
      AddresserEntry.fingerprint c.k (c.hash value),
      isFree c x (c.offset x index) (c.address1 x index (c.hash value)) m, m⟩ :=
    ⟨hat, hlt, hs.supported, .refl m, hmem, rfl⟩
  rw [insert, insertHash]
  simp only
  cases hfree : (isFree c x (c.offset x index) (c.address1 x index (c.hash value)) m).free with
  | true =>
    simp only [if_true]
    obtain ⟨h1, h2, h3, h4, h5⟩ := hcarried.place hl hfree rfl
    exact ⟨h1, ⟨h2, h3⟩, h4, fun _ _ => h5⟩
  | false =>
    simp only [Bool.false_eq_true, if_false]
    obtain ⟨hnext, htracks, hover⟩ := hcarried.alternate hl rfl rfl
    obtain ⟨h1, h2, h3, h4⟩ := hnext.insertLoop hl hrandom maxIteration 0
    refine ⟨h1, ⟨h2, h3⟩, htracks.trans h4, fun _ hclear => ?_⟩
    have hfalse := (h4 _ hmem hclear).1
    exact absurd (hover.symm.trans hfalse) (by decide)

end

/-! ## Lookup -/

section
variable (hl : Layout c x n) {index : Nat} {address : r.T} (hp : (index, address.toNat) ∈ buckets x n) {m : Mem}
include hl hp

theorem Layout.bucketContains_of_mem (hwf : AllWellFormed c x m) {f : r.T} (hf : f.toNat < 2 ^ c.k)
    (h : f.setWidth c.k ∈ content c x m (index, address.toNat)) :
    bucketContains c x f (mod c.bucketsPerBlock address) (blockOffset c (c.offset x index) address) m = true := by
  obtain ⟨hblock, hindex⟩ := isFree_place (x := x) hl.toReadable index address m
  rw [show (isFree c x (c.offset x index) address m).blockOffset =
    blockOffset c (c.offset x index) address from rfl] at hblock
  rw [show (isFree c x (c.offset x index) address m).bucketIndex = mod c.bucketsPerBlock address from rfl] at hindex
  have hr := hl.reachesEnd hp
  refine (bucketContains_iff (hblock ▸ hr.toReaches) hl.params (hblock ▸ hwf _ hr.aligned)
    (hindex ▸ hl.indexOf_lt _)
    hl.slotsToLoad_pos hl.loads hf).mpr (.inl ?_)
  rw [hblock, hindex]
  exact BucketArray.mem_bucket.mp h

theorem Layout.getOta_eq_overflowed :
    getOta c x (mod c.bucketsPerBlock address) (blockOffset c (c.offset x index) address) m =
      overflowed c x m (index, address.toNat) := by
  obtain ⟨hblock, hindex⟩ := isFree_place (x := x) hl.toReadable index address m
  rw [show (isFree c x (c.offset x index) address m).blockOffset =
    blockOffset c (c.offset x index) address from rfl] at hblock
  rw [show (isFree c x (c.offset x index) address m).bucketIndex = mod c.bucketsPerBlock address from rfl] at hindex
  rw [hblock, getOta_eq (hl.reachesEnd hp).toReaches hl.params, hindex, overflowed]

end

/-- A key whose entry is stored is found, also where the lookup stops at its first bucket. -/
theorem Layout.contains_of_mem (hl : Layout c x n) {index : Nat} (hi : index < n)
    (hsize : (x.entries index).size ≠ 0) {value : r.T} {m : Mem} (hwf : AllWellFormed c x m)
    (h : keyEntry c x value index ∈ stored c x n m)
    (hfind : Findable c x m value index) : contains c x value index m = true := by
  have hmem := hl.keyBucket_mem hi hsize value
  have hlt := toNat_fingerprint_lt hl.params.k_le (c.hash value)
  have hota := hl.getOta_eq_overflowed hmem (m := m)
  obtain ⟨hdom, -⟩ :=
    Standard.alt_mem_of_entries (hl.entries index hi) hl.mode hi (mem_buckets.mp hmem).2 (keyFingerprint c value)
  have haddress := alt_eq (c := c) (x := x) index (c.address1 x index (c.hash value)) (keyFingerprint c value)
  rw [keyFingerprint, Standard.setWidth_setWidth hlt] at haddress
  rw [keyFingerprint, haddress] at hdom
  rw [contains]
  simp only [hota]
  split
  · rename_i hclear
    exact hl.bucketContains_of_mem hmem hwf hlt (hfind hclear.2)
  · rw [Bool.or_eq_true]
    rcases Relocation.mem_or_mem_alt h with h | h
    · exact .inl (hl.bucketContains_of_mem hmem hwf hlt h)
    · rw [keyBucket, keyFingerprint, haddress] at h
      exact .inr (hl.bucketContains_of_mem hdom hwf hlt h)

/-! ## Runs -/

/-- A step is a call with its result. -/
def resultStep (c : Config r) (x : CuckooContainer r) (m : Mem) (a : Standard.Call r × Bool) : Option Mem :=
  if (insert c x a.1.value a.1.index a.1.random m).1 = a.2 then
    some (insert c x a.1.value a.1.index a.1.random m).2
  else none

theorem resultStep_eq_some {m m' : Mem} {a : Standard.Call r × Bool} (h : resultStep c x m a = some m') :
    insert c x a.1.value a.1.index a.1.random m = (a.2, m') := by
  rw [resultStep] at h
  split at h
  · rename_i hb
    exact Prod.ext hb (Option.some.inj h)
  · exact absurd h (by simp)

theorem sound_zero : Sound c x n Mem.zero where
  wellFormed := wellFormed_zero
  supported _ _ i _ hpos := absurd (counter_zero c _ i) (Nat.ne_of_gt hpos)

theorem stored_zero : stored c x n Mem.zero = 0 := by
  refine Multiset.eq_zero_of_forall_notMem fun e he => ?_
  obtain ⟨p, -, f, hf, -⟩ := Relocation.mem_entries.mp he
  obtain ⟨j, hj, -⟩ := BucketArray.mem_bucket.mp hf
  rw [counter_zero] at hj
  exact Nat.not_lt_zero j hj

section
variable (hl : Layout c x n) {l : List (Standard.Call r × Bool)} (hvalid : ∀ a ∈ l, a.1.Valid c x n)
include hl hvalid

theorem Layout.sound_of_run {m : Mem} (h : Lts.Run (resultStep c x) Mem.zero l m) : Sound c x n m := by
  induction h with
  | nil => exact sound_zero
  | @snoc m m' l a _ ha ih =>
    have hv := hvalid a (List.mem_append_right _ List.mem_cons_self)
    have hspec :=
      hl.insert_spec hv.index_lt hv.size a.1.value hv.random (ih fun b hb => hvalid b (List.mem_append_left _ hb))
    rw [resultStep_eq_some ha] at hspec
    exact hspec.2.1

/-- Where every call succeeds, the entries are those of the keys, and every key can be found. -/
theorem Layout.stored_of_run (hsuccess : ∀ a ∈ l, a.2 = true) {m : Mem}
    (h : Lts.Run (resultStep c x) Mem.zero l m) :
    stored c x n m = (l.map fun a => keyEntry c x a.1.value a.1.index : List _) ∧
      ∀ a ∈ l, Findable c x m a.1.value a.1.index := by
  induction h with
  | nil => exact ⟨stored_zero, fun a ha => absurd ha List.not_mem_nil⟩
  | @snoc m m' l a hrun ha ih =>
    have hv := hvalid a (List.mem_append_right _ List.mem_cons_self)
    have hvalid' := fun b hb => hvalid b (List.mem_append_left _ hb)
    obtain ⟨hstored, hfind⟩ := ih hvalid' fun b hb => hsuccess b (List.mem_append_left _ hb)
    have hspec := hl.insert_spec hv.index_lt hv.size a.1.value hv.random (hl.sound_of_run hvalid' hrun)
    rw [resultStep_eq_some ha, hsuccess a (List.mem_append_right _ List.mem_cons_self)] at hspec
    obtain ⟨haccounts, -, htracks, hplaced⟩ := hspec
    refine ⟨?_, fun b hb => ?_⟩
    · rw [show stored c x n m' = _ from haccounts, hstored, List.map_append, List.map_singleton, ← Multiset.coe_add,
        Multiset.coe_singleton, ← Multiset.singleton_add, add_comm]
    · rcases List.mem_append.mp hb with hb | hb
      · intro hclear
        have hvb := hvalid' b hb
        obtain ⟨hclear', hle⟩ := htracks _ (hl.keyBucket_mem hvb.index_lt hvb.size b.1.value) hclear
        exact Multiset.mem_of_le hle (hfind b hb hclear')
      · obtain rfl := List.mem_singleton.mp hb
        exact hplaced rfl

end

/-! ## The constructor -/

def blocks (c : Config r) (size : Nat) : Nat := (size + c.bucketsPerBlock - 1) / c.bucketsPerBlock

def start (c : Config r) (x : CuckooContainer r) : Nat → Nat
  | 0 => 0
  | i + 1 => start c x i + (blocks c (x.entries i).size.toNat + 1) * 64

/-- Neither a region wraps in `size_t`, nor the bit address of a block of a table in `T`, nor the end of a
block from which byte-addressed slots are counted down. -/
structure Fits (c : Config r) (x : CuckooContainer r) (n : Nat) : Prop where
  region : ∀ i < n, (blocks c (x.entries i).size.toNat + 1) * 512 < 2 ^ 64
  reach : ∀ i < n, (x.entries i).size ≠ 0 → 8 * start c x i + blocks c (x.entries i).size.toNat * 512 ≤ 2 ^ r.bits
  strict : c.optimalFingerprintSize = true → ∀ i < n, (x.entries i).size ≠ 0 →
    8 * start c x i + blocks c (x.entries i).size.toNat * 512 < 2 ^ r.bits

theorem start_mono {i j : Nat} (h : i ≤ j) : start c x i ≤ start c x j := by
  induction h with
  | refl => exact Nat.le_refl _
  | step _ ih => exact Nat.le_trans ih (Nat.le_add_right _ _)

theorem regionBytes_eq (hb : 0 < c.bucketsPerBlock) (hb512 : c.bucketsPerBlock ≤ 512) {size : Nat}
    (h : (blocks c size + 1) * 512 < 2 ^ 64) : regionBytes c size = (blocks c size + 1) * 64 := by
  have hdm := Nat.div_add_mod (size + c.bucketsPerBlock - 1) c.bucketsPerBlock
  have hmod := Nat.mod_lt (size + c.bucketsPerBlock - 1) hb
  have hmul : c.bucketsPerBlock * blocks c size ≤ 512 * blocks c size := Nat.mul_le_mul_right _ hb512
  have halign : alignNumber size c.bucketsPerBlock / c.bucketsPerBlock = blocks c size := by
    unfold blocks at *
    rw [alignNumber, Nat.mod_eq_of_lt (show size + c.bucketsPerBlock - 1 < 2 ^ 64 by omega), Nat.mul_comm,
      Nat.mod_eq_of_lt (by omega), Nat.mul_div_cancel_left _ hb]
  rw [regionBytes, halign, Nat.mod_eq_of_lt (show blocks c size + 1 < 2 ^ 64 by omega), Nat.mod_eq_of_lt h]
  omega

theorem blocks_pos (hb : 0 < c.bucketsPerBlock) {size : r.T} (h : size ≠ 0) : 0 < blocks c size.toNat := by
  have hpos : 0 < size.toNat := Nat.pos_of_ne_zero fun h0 => h (BitVec.eq_of_toNat_eq h0)
  exact Nat.div_pos (by omega) hb

namespace Fits
variable (hf : Fits c x n) (hb : 0 < c.bucketsPerBlock) (hb512 : c.bucketsPerBlock ≤ 512)
include hf hb hb512

theorem lastOffset_eq {i : Nat} (hi : i < n) (hsize : (x.entries i).size ≠ 0) {j : Nat} (hj : j ≤ i) :
    (lastOffset c x.entries j).toNat = start c x j := by
  have hpos := blocks_pos hb hsize
  have hreach := hf.reach i hi hsize
  induction j with
  | zero => exact BitVec.toNat_zero
  | succ j ih =>
    have hmono := start_mono (c := c) (x := x) hj
    rw [lastOffset, BitVec.toNat_add, BitVec.toNat_ofNat, Nat.add_mod_mod, ih (Nat.le_of_succ_le hj),
      regionBytes_eq hb hb512 (hf.region j (Nat.lt_trans hj hi))]
    exact Nat.mod_eq_of_lt (by rw [start] at hmono; omega)

theorem offset_eq (hx : x.offsets = lastOffset c x.entries) {nPartitions : Nat} (hn : n = c.nParts nPartitions)
    {i : Nat} (hi : i < n) (hsize : (x.entries i).size ≠ 0) : (c.offset x i).toNat = start c x i := by
  cases hp : c.partitioning with
  | Enabled =>
    rw [Config.offset, hp]
    simp only [hx]
    exact hf.lastOffset_eq hb hb512 hi hsize (Nat.le_refl i)
  | Disabled =>
    rw [Config.nParts, hp] at hn
    obtain rfl : i = 0 := by
      simp only at hn
      omega
    rw [Config.offset, hp]
    exact BitVec.toNat_zero

end Fits

theorem blockStop_le (hb : 0 < c.bucketsPerBlock) {p : Bucket} (hp : p ∈ buckets x n) :
    blockStop c x p ≤ 8 * (c.offset x p.1).toNat + blocks c (x.entries p.1).size.toNat * 512 := by
  have hlt := (mem_buckets.mp hp).2
  have hle : p.2 / c.bucketsPerBlock + 1 ≤ blocks c (x.entries p.1).size.toNat := by
    rw [← Nat.add_div_right _ hb]
    exact Nat.div_le_div_right (by omega)
  have hmul := Nat.mul_le_mul_right 512 hle
  rw [blockStop]
  omega

theorem size_ne_zero {p : Bucket} (hp : p ∈ buckets x n) : (x.entries p.1).size ≠ 0 := fun h0 => by
  have hlt := (mem_buckets.mp hp).2
  rw [h0] at hlt
  exact Nat.not_lt_zero _ hlt

section
variable (hk : 0 < c.k) (hb : 0 < c.bucketsPerBlock) (hfit : c.otaOffset + c.otaSize ≤ 512)
  (hload : 1 ≤ c.slotsToLoad)
  (hsize : c.associativity ≤ c.slotsPerBlock)
include hk hb hfit hload hsize

theorem Readable.of_fit : Readable c := by
  have hk' : c.k ≤ r.bits := Nat.le_trans (Nat.le_mul_of_pos_left _ hload) Params.load_le
  have hslots : c.slotsPerBlock ≤ 512 := by
    rw [Config.slotsPerBlock, show 2 ^ 64 + 512 - c.otaOffset - c.otaSize =
      (512 - c.otaOffset - c.otaSize) + 2 ^ 64 by omega, Nat.add_mod_right, Nat.mod_eq_of_lt (by omega)]
    exact Nat.le_trans (Nat.div_le_self _ _) (by omega)
  have ha : 1 ≤ c.associativity := by
    unfold Config.slotsToLoad at hload
    split at hload
    · exact (Nat.le_min.mp hload).1
    · exact (Nat.le_min.mp hload).1
  have hbits := bits_ge r
  have hpow : 2 ^ 32 ≤ 2 ^ r.bits := Nat.pow_le_pow_right (by decide) hbits
  have hcs := counterSize_le ha (b := 10) (by decide) (by omega)
  have hp : Params c := ⟨hk, hk', ha, by omega, by omega, hb, hfit⟩
  exact ⟨hp, counterToLoad_pos hb (counterSize_pos _) (by omega), by omega⟩

theorem Layout.new {s nPartitions filter : Nat} {histogram : Nat → r.T} (hm : c.mode ≠ .Morton) (hge : 64 ≤ filter)
    (hf : Fits c { new c s nPartitions histogram with filter := filter } (c.nParts nPartitions)) :
    Layout c { new c s nPartitions histogram with filter := filter } (c.nParts nPartitions) := by
  have hc := Readable.of_fit hk hb hfit hload hsize
  have hoffset := fun {p : Bucket} (hp : p ∈ buckets _ _) =>
    hf.offset_eq hb hc.params.buckets_le rfl rfl (mem_buckets.mp hp).1 (size_ne_zero hp)
  refine ⟨hc, hload, hsize, hge, hm, fun i _ => ⟨_, rfl⟩, fun i => dvd_offset rfl i, fun p hp => ?_,
    fun hopt p hp => ?_,
    fun p hp q hq hpq => ?_⟩
  · refine Nat.le_trans (blockStop_le hb hp) ?_
    rw [hoffset hp]
    exact hf.reach p.1 (mem_buckets.mp hp).1 (size_ne_zero hp)
  · refine Nat.lt_of_le_of_lt (blockStop_le hb hp) ?_
    rw [hoffset hp]
    exact hf.strict hopt p.1 (mem_buckets.mp hp).1 (size_ne_zero hp)
  · have hstop := blockStop_le hb hp
    have hmono := start_mono (c := c) (x := { Morton.new c s nPartitions histogram with filter := filter }) hpq
    rw [hoffset hp] at hstop
    rw [hoffset hq]
    rw [start] at hmono
    omega

end

/-! ## The container -/

/-- In every run without wrap-around the blocks stay well formed, the entries account for the calls, and a run of
successful calls contains its keys. -/
theorem insert_accounts {s nPartitions filter : Nat} {histogram : Nat → r.T} (hk : 0 < c.k)
    (hb : 0 < c.bucketsPerBlock) (hfit : c.otaOffset + c.otaSize ≤ 512) (hload : 1 ≤ c.slotsToLoad)
    (hsize : c.associativity ≤ c.slotsPerBlock) (hm : c.mode ≠ .Morton) (hge : 64 ≤ filter)
    (hf : Fits c { new c s nPartitions histogram with filter := filter } (c.nParts nPartitions))
    {l : List (Standard.Call r × Bool)}
    (hvalid : ∀ a ∈ l, a.1.Valid c { new c s nPartitions histogram with filter := filter } (c.nParts nPartitions))
    {m : Mem} (hrun : Lts.Run (resultStep c { new c s nPartitions histogram with filter := filter }) Mem.zero l m) :
    let x : CuckooContainer r := { new c s nPartitions histogram with filter := filter }
    let n := c.nParts nPartitions
    AllWellFormed c x m ∧ Supported c x n m ∧
      (∀ a : Standard.Call r, a.Valid c x n → AllWellFormed c x (insert c x a.value a.index a.random m).2 ∧
        Standard.Accounts (keyEntry c x a.value a.index ::ₘ stored c x n m)
          (stored c x n (insert c x a.value a.index a.random m).2) (insert c x a.value a.index a.random m).1) ∧
      ((∀ a ∈ l, a.2 = true) → ∀ a ∈ l, contains c x a.1.value a.1.index m = true) := by
  intro x n
  have hl : Layout c x n := Layout.new hk hb hfit hload hsize hm hge hf
  have hs := hl.sound_of_run hvalid hrun
  refine ⟨hs.wellFormed, hs.supported, fun a hv => ?_, fun hsuccess a hal => ?_⟩
  · obtain ⟨haccounts, hs', -, -⟩ := hl.insert_spec hv.index_lt hv.size a.value hv.random hs
    exact ⟨hs'.wellFormed, haccounts⟩
  · have hv := hvalid a hal
    obtain ⟨hstored, hfind⟩ := hl.stored_of_run hvalid hsuccess hrun
    refine hl.contains_of_mem hv.index_lt hv.size hs.wellFormed ?_ (hfind a hal)
    rw [hstored, Multiset.mem_coe]
    exact List.mem_map.mpr ⟨a, hal, rfl⟩

def blockedConfig : Config ._32bit :=
  { associativity := 3, bucketsPerBlock := 64, otaSize := 8, k := 8, partitioning := .Enabled, mode := .Lemire,
    hash := murmur }

def blockedContainer : CuckooContainer ._32bit :=
  { new blockedConfig 100 2 fun i => BitVec.ofNat 32 (3 + i) with filter := 64 }

def blockedCalls : List (Standard.Call ._32bit × Bool) :=
  [(⟨3, 0, fun _ => 0⟩, true), (⟨2, 1, fun _ => 0⟩, true), (⟨0, 0, fun _ => 0⟩, true), (⟨7, 0, fun _ => 0⟩, true)]

def blockedMem : Mem :=
  (blockedCalls.foldlM (resultStep blockedConfig blockedContainer) Mem.zero).get (by decide +kernel)

theorem insert_accounts_blocked : contains blockedConfig blockedContainer 3 0 blockedMem = true := by
  have hf : Fits blockedConfig blockedContainer 2 := ⟨by decide +kernel, by decide +kernel, by decide +kernel⟩
  have hvalid : ∀ a ∈ blockedCalls, a.1.Valid blockedConfig blockedContainer 2 := by
    intro a ha
    simp only [blockedCalls, List.mem_cons, List.not_mem_nil, or_false] at ha
    rcases ha with rfl | rfl | rfl | rfl <;> exact ⟨by decide, by decide +kernel, fun _ => Nat.succ_pos 2⟩
  have hsuccess : ∀ a ∈ blockedCalls, a.2 = true := by decide
  have hrun : Lts.Run (resultStep blockedConfig blockedContainer) Mem.zero blockedCalls blockedMem :=
    Lts.Run.of_foldlM (Option.eq_some_of_isSome _)
  have hmem : (⟨3, 0, fun _ => 0⟩, true) ∈ blockedCalls := List.mem_cons_self
  have h :=
    (insert_accounts (by decide) (by decide) (by decide) (by decide) (by decide) (by decide) (by decide) hf hvalid
    hrun).2.2.2 hsuccess _ hmem
  exact h

/-- A table of 3 * 2^27 buckets, whose bit addresses do not fit into `T`. -/
def wideConfig : Config ._32bit :=
  { associativity := 2, bucketsPerBlock := 32, otaSize := 8, k := 8, partitioning := .Disabled, mode := .Lemire,
    hash := murmur }

def wideContainer : CuckooContainer ._32bit :=
  { new wideConfig 100 1 fun _ => BitVec.ofNat 32 (3 * 2 ^ 28) with filter := 64 }

/-- The first two keys fill bucket 2^28, whose bit address wraps to that of bucket 0, where the third key takes
the place of the first one. -/
theorem insert_wraps :
    let first := insert wideConfig wideContainer 1636048897 0 (fun _ => 0) Mem.zero
    let second := insert wideConfig wideContainer 3675286398 0 (fun _ => 0) first.2
    let third := insert wideConfig wideContainer 0 0 (fun _ => 0) second.2
    1 ≤ wideConfig.slotsToLoad ∧ wideConfig.associativity ≤ wideConfig.slotsPerBlock ∧
      (wideContainer.entries 0).size ≠ 0 ∧
      first.1 = true ∧ second.1 = true ∧ third.1 = true ∧
      contains wideConfig wideContainer 1636048897 0 third.2 = false := by
  decide +kernel

end PartitionedFilters.Cuckoo.Morton

import PartitionedFilters.Simd
import PartitionedFilters.XorFilterSound

/-!
# The bounds of the fingerprint array

Behind the last partition there is room for some more fingerprints, while an
access ends up to two words behind its first bit. The accesses stay inside the
array exactly if the one to the last slot does.
-/

namespace PartitionedFilters.Xor

variable {r : RegisterSize} {c : Config r} {n : Nat} {histogram : Nat → Nat}

open PartitionedFilters.Xor.Filter (firstSlot lastSlot)

namespace XorContainer

/-- `get_fingerprint` and `set_fingerprint` of a vector with several lanes. -/
def getFingerprints (c : Config r) {lanes : Nat} (m : Mem) (address : Lanes r lanes) (mask : LaneMask lanes) :
    Lanes r lanes := Lanes.gatheruBits true c.k (fun l => address l * BitVec.ofNat r.bits c.k) 0 mask m

def setFingerprints (c : Config r) {lanes : Nat} (fingerprint address : Lanes r lanes)
    (mask : LaneMask lanes) (m : Mem) :
    Mem := Lanes.scatteruBits true c.k (fun l => address l * BitVec.ofNat r.bits c.k) 0 fingerprint mask m

def Simd.contains (c : Config r) (x : XorContainer r) {lanes : Nat} (values : Lanes r lanes) (index : Nat)
    (mask : LaneMask lanes) : LaneMask lanes :=
  let hash := fun l => c.hash (values l ^^^ x.seeds index)
  let segment := fun l => c.segment (x.entries index) (hash l)
  let address := fun set l => BitVec.ofNat r.bits
    (segment l + computeAddress c (x.entries index) set (hash l) (x.offsets set index))
  let fingerprint0 := getFingerprints c x.fingerprints (address 0) mask
  let fingerprint1 := getFingerprints c x.fingerprints (address 1) mask
  let fingerprint2 := getFingerprints c x.fingerprints (address 2) mask
  fun l => mask l &&
    (fingerprint0 l ^^^ fingerprint1 l ^^^ fingerprint2 l == xorFingerprint (hash l) &&& valueMask r c.k)

/-- The bytes that `get_fingerprint` reads, and `set_fingerprint` reads and writes. -/
def fingerprintSpans (c : Config r) (avx : Bool) (address : Nat) : List Span :=
  if !avx && c.byteAddressed then [⟨c.k / 8 * address, c.k / 8 * (address + 1)⟩]
  else packedSpans r avx true c.k (r.wrap (address * c.k)) 0

theorem eight_dvd_k (hb : c.byteAddressed = true) : 8 * (c.k / 8) = c.k := by
  simp only [Config.byteAddressed, Bool.or_eq_true, beq_iff_eq] at hb
  omega

theorem covers_byteAddressed (hb : c.byteAddressed = true) {address q : Nat} :
    Span.Covers ⟨c.k / 8 * address, c.k / 8 * (address + 1)⟩ q ↔ c.k * address ≤ q ∧ q < c.k * address + c.k := by
  unfold Span.Covers
  rw [← Nat.mul_assoc, ← Nat.mul_assoc, eight_dvd_k hb, Nat.mul_succ]

theorem getFingerprint_congr {address : Nat} {m m' : Mem}
    (h : ∀ s ∈ fingerprintSpans c false address, ∀ q, s.Covers q → m.bit q = m'.bit q) :
    getFingerprint c m address = getFingerprint c m' address := by
  unfold fingerprintSpans at h
  unfold getFingerprint
  by_cases hb : c.byteAddressed = true
  · rw [if_pos (by simp [hb])] at h
    rw [if_pos hb, if_pos hb, load_congr fun q h1 h2 =>
      h _ (List.mem_singleton_self _) q ((covers_byteAddressed hb).mpr ⟨h1, h2⟩)]
  · rw [if_neg (by simp [hb])] at h
    rw [if_neg hb, if_neg hb, gatheruBits_congr h]

theorem setFingerprint_frame {address q : Nat} {fingerprint : r.T} {m : Mem}
    (h : ∀ s ∈ fingerprintSpans c false address, ¬s.Covers q) :
    (setFingerprint c fingerprint address m).bit q = m.bit q := by
  unfold fingerprintSpans at h
  unfold setFingerprint
  by_cases hb : c.byteAddressed = true
  · rw [if_pos (by simp [hb])] at h
    have hq := h _ (List.mem_singleton_self _)
    rw [covers_byteAddressed hb] at hq
    rw [if_pos hb, Mem.store_of_notMem _ _ (by omega)]
  · rw [if_neg (by simp [hb])] at h
    rw [if_neg hb, scatteruBits_frame h]

section
variable {lanes : Nat} {address fingerprint : Lanes r lanes} {mask : LaneMask lanes}

theorem toNat_bitAddress (l : Fin lanes) :
    (address l * BitVec.ofNat r.bits c.k).toNat = r.wrap ((address l).toNat * c.k) := by
  rw [BitVec.toNat_mul, BitVec.toNat_ofNat, Nat.mul_mod_mod]
  rfl

theorem getFingerprints_congr {m m' : Mem} (h : ∀ l, mask l = true →
    ∀ s ∈ fingerprintSpans c true (address l).toNat, ∀ q, s.Covers q → m.bit q = m'.bit q) :
    getFingerprints c m address mask = getFingerprints c m' address mask :=
  Lanes.gatheruBits_congr fun l hl => by
    rw [toNat_bitAddress]
    exact h l hl

theorem setFingerprints_frame {m : Mem} {q : Nat} (h : ∀ l, mask l = true →
    ∀ s ∈ fingerprintSpans c true (address l).toNat, ¬s.Covers q) :
    (setFingerprints c fingerprint address mask m).bit q = m.bit q :=
  Lanes.scatteruBits_frame fun l hl => by
    rw [toNat_bitAddress]
    exact h l hl

end

end XorContainer

/-! ## Addresses -/

structure NoWrap (c : Config r) (n : Nat) (histogram : Nat → Nat) : Prop where
  pos : ∀ i < n, 0 < (entryOf c (histogram i)).size.toNat
  total : firstSlot c histogram n < 2 ^ r.bits
  bytes : firstSlot c histogram n * c.k + 8 ≤ 2 ^ 64

namespace NoWrap
variable (hn : c.partitioning = .Disabled → n ≤ 1) (hw : NoWrap c n histogram) {i : Nat} (hi : i < n)
include hw hi

theorem vertex_lt (set : Fin 3) (hash : r.T) :
    firstSlot c histogram i + c.vertex (entryOf c (histogram i)) set hash < lastSlot c n histogram :=
  vertex_lt_lastSlot hi (hw.pos i hi) set hash

include hn

theorem addressOf_eq (set : Fin 3) (hash : r.T) : addressOf c (.new c n histogram) i set hash =
    firstSlot c histogram i + c.vertex (entryOf c (histogram i)) set hash :=
  addressOf_eq_vertex hw.total hi (hw.pos i hi) hn set hash

end NoWrap

/-! ## The array -/

def accessStop (c : Config r) (avx : Bool) (a : Nat) : Nat :=
  if !avx && c.byteAddressed then c.k / 8 * (a + 1) else packedStop r avx true c.k (r.wrap (a * c.k)) 0

/-- The slots of all hashes. -/
def reachedSlots (c : Config r) (n : Nat) (histogram : Nat → Nat) : Set Nat :=
  {a | ∃ i < n, ∃ set hash, firstSlot c histogram i + c.vertex (entryOf c (histogram i)) set hash = a}

/-- An access to the last slot that some hash has ends inside the bytes of all fingerprints, rounded up to 64. -/
def LastFits (c : Config r) (avx : Bool) (n : Nat) (histogram : Nat → Nat) : Prop :=
  ∀ a, IsGreatest (reachedSlots c n histogram) a →
    accessStop c avx a ≤ 64 * ((firstSlot c histogram n * c.k + 511) / 512)

def InBounds (c : Config r) (avx : Bool) (x : XorContainer r) (n : Nat) : Prop :=
  ∀ i < n, ∀ set hash, ∀ s ∈ XorContainer.fingerprintSpans c avx (addressOf c x i set hash), s.stop ≤ x.nBytes

theorem nBytes_eq (hn : c.partitioning = .Disabled → n ≤ 1) (htotal : firstSlot c histogram n < 2 ^ r.bits)
    (hb : firstSlot c histogram n * c.k + 8 ≤ 2 ^ 64) :
    (XorContainer.new c n histogram).nBytes = 64 * ((firstSlot c histogram n * c.k + 511) / 512) := by
  have hlast : (XorContainer.layout c (fun i => entryOf c (histogram i)) n).2 = firstSlot c histogram n :=
    (XorContainer.layout_eq c _ hn htotal).1
  show valign (alignNumber ((XorContainer.layout c (fun i => entryOf c (histogram i)) n).2 * c.k % 2 ^ 64) 8 / 8) =
      _
  rw [hlast, valign_eq (by rw [alignNumber]; omega), alignNumber]
  omega

theorem fingerprintSpans_le_iff {avx : Bool} {address stop : Nat} :
    (∀ s ∈ XorContainer.fingerprintSpans c avx address, s.stop ≤ stop) ↔
      accessStop c avx address ≤ stop := by
  unfold XorContainer.fingerprintSpans accessStop
  split
  · rw [List.forall_mem_singleton]
  · exact packedSpans_le_iff

/-- With a slot all slots before it are in bounds: bit addresses that wrap are far from the end. -/
theorem accessStop_le {avx : Bool} {a b : Nat} (hab : a ≤ b) (hb : b < firstSlot c histogram n)
    (h : accessStop c avx b ≤ 64 * ((firstSlot c histogram n * c.k + 511) / 512)) :
    accessStop c avx a ≤ 64 * ((firstSlot c histogram n * c.k + 511) / 512) := by
  unfold accessStop at h ⊢
  split at h
  · rename_i hbyte
    rw [if_pos hbyte]
    exact Nat.le_trans (Nat.mul_le_mul_left _ (Nat.succ_le_succ hab)) h
  rename_i hbyte
  rw [if_neg hbyte]
  have hle : a * c.k ≤ b * c.k := Nat.mul_le_mul_right _ hab
  by_cases hwrap : b * c.k < 2 ^ r.bits
  · rw [RegisterSize.wrap_of_lt hwrap] at h
    rw [RegisterSize.wrap_of_lt (Nat.lt_of_le_of_lt hle hwrap)]
    exact Nat.le_trans (packedStop_mono hle) h
  · have hstop : 8 * packedStop r avx true c.k (r.wrap (a * c.k)) 0 ≤ 8 * 0 + r.wrap (a * c.k) + 2 * r.bits :=
      packedStop_le
    have hlt : r.wrap (a * c.k) < 2 ^ r.bits := Nat.mod_lt _ (Nat.two_pow_pos _)
    have htotal : b * c.k + c.k ≤ firstSlot c histogram n * c.k := by
      rw [← Nat.succ_mul]
      exact Nat.mul_le_mul_right _ hb
    have hk : 0 < c.k := Nat.pos_of_ne_zero fun h0 => hwrap (by rw [h0, Nat.mul_zero]; exact Nat.two_pow_pos _)
    have hbits : 2 ^ r.bits % 512 = 0 ∧ 2 * r.bits ≤ 512 := by cases r <;> decide
    omega

/-- A word before the end of whole cache lines ends there or before it. -/
theorem word_le_lines {lines b t : Nat} (hb : b + t * r.bits < 512 * lines) :
    r.bytes * (b / r.bits + (t + 1)) ≤ 64 * lines := by
  have hbits := bits_eq_bytes r
  have hrounded : r.bits * (512 / r.bits * lines) = 512 * lines := by
    rw [← Nat.mul_assoc]
    cases r <;> rfl
  have hlt : (b + t * r.bits) / r.bits < 512 / r.bits * lines := Nat.div_lt_of_lt_mul (hrounded ▸ hb)
  rw [Nat.add_mul_div_right _ _ r.bits_pos] at hlt
  have hmul := Nat.mul_le_mul_left r.bits hlt
  rw [hrounded, Nat.succ_eq_add_one, Nat.add_assoc] at hmul
  have hbytes : r.bits * (b / r.bits + (t + 1)) = 8 * (r.bytes * (b / r.bits + (t + 1))) := by
    rw [← Nat.mul_assoc, ← hbits]
  omega

theorem accessStop_last_le (hw : NoWrap c n histogram) (hk : c.k = 1 ∨ c.k = 2 ∨ c.k = 4 ∨ 8 ≤ c.k)
    (hpos : 0 < n) (avx : Bool) : accessStop c avx (lastSlot c n histogram - 1) ≤
      64 * ((firstSlot c histogram n * c.k + 511) / 512) := by
  have hadd := lastSlot_add hpos c histogram
  have hslots : lastSlot c n histogram ≤ firstSlot c histogram n := Nat.sub_le _ _
  have hbits := bits_eq_bytes r
  have hend : 8 * (64 * ((firstSlot c histogram n * c.k + 511) / 512)) =
      512 * ((firstSlot c histogram n * c.k + 511) / 512) := by omega
  have htotal : firstSlot c histogram n * c.k ≤ 512 * ((firstSlot c histogram n * c.k + 511) / 512) := by omega
  unfold accessStop
  split
  · rename_i hb
    have h8 := XorContainer.eight_dvd_k (Bool.and_eq_true_iff.mp hb).2
    have hone := hw.vertex_lt hpos 0 0
    have hmul := Nat.mul_le_mul_right c.k hslots
    rw [Nat.sub_add_cancel (by omega), ← Nat.mul_le_mul_left_iff (show 0 < 8 by decide), hend, ← Nat.mul_assoc, h8,
      Nat.mul_comm c.k]
    exact Nat.le_trans hmul htotal
  rename_i hb
  have hwrap : r.wrap ((lastSlot c n histogram - 1) * c.k) ≤ (lastSlot c n histogram - 1) * c.k := Nat.mod_le _ _
  have hlt : (lastSlot c n histogram - 1) * c.k + c.k + (if c.byteAddressed then 0 else r.bits / 8) * c.k =
      firstSlot c histogram n * c.k := by
    have h := hw.vertex_lt hpos 0 0
    rw [← hadd, Nat.add_mul, ← Nat.succ_mul, Nat.succ_eq_add_one, Nat.sub_add_cancel (by omega)]
  unfold packedStop
  split
  · rw [Nat.zero_add]
    exact word_le_lines (t := 0) (by omega)
  · rename_i hpow
    -- `k` is at least 9 and not byte addressed
    have hb' : c.byteAddressed = false ∧ c.k ≠ 8 := by
      rw [Bool.true_and] at hpow
      unfold Config.byteAddressed
      refine ⟨Bool.eq_false_iff.mpr fun h => hpow ?_, fun h => hpow (by rw [h]; rfl)⟩
      simp only [Bool.or_eq_true, beq_iff_eq] at h
      rcases h with (h | h) | h <;> rw [h] <;> rfl
    have h9 : 9 ≤ c.k := by
      rcases hk with h | h | h | h
      · exact absurd (by rw [h]; rfl) hpow
      · exact absurd (by rw [h]; rfl) hpow
      · exact absurd (by rw [h]; rfl) hpow
      · omega
    have hslack : r.bits / 8 * 9 ≤ r.bits / 8 * c.k := Nat.mul_le_mul_left _ h9
    rw [hb'.1] at hlt
    simp only [Bool.false_eq_true, if_false] at hlt
    split
    · omega
    · rw [Nat.zero_add]
      exact word_le_lines (t := 1) (by omega)

theorem lt_lastSlot_of_reached (hw : NoWrap c n histogram) {a : Nat} (h : a ∈ reachedSlots c n histogram) :
    a < lastSlot c n histogram := by
  obtain ⟨i, hi, set, hash, rfl⟩ := h
  exact hw.vertex_lt hi set hash

/-- Only `k = 3`, `5`, `6` and `7` can fail. -/
theorem lastFits_of_k (hw : NoWrap c n histogram) (hk : c.k = 1 ∨ c.k = 2 ∨ c.k = 4 ∨ 8 ≤ c.k) (avx : Bool) :
    LastFits c avx n histogram := by
  intro a ha
  obtain ⟨i, hi, -⟩ := ha.1
  have hlt := lt_lastSlot_of_reached hw ha.1
  have hslots : lastSlot c n histogram ≤ firstSlot c histogram n := Nat.sub_le _ _
  exact accessStop_le (Nat.le_sub_one_of_lt hlt) (by omega) (accessStop_last_le hw hk (by omega) avx)

theorem exists_greatest_reached (hw : NoWrap c n histogram) {a : Nat} (ha : a ∈ reachedSlots c n histogram) :
    ∃ b, IsGreatest (reachedSlots c n histogram) b := by
  have hbound : BddAbove (reachedSlots c n histogram) :=
    ⟨lastSlot c n histogram, fun b hb => Nat.le_of_lt (lt_lastSlot_of_reached hw hb)⟩
  exact ⟨_, Nat.sSup_mem ⟨a, ha⟩ hbound, fun b hb => le_csSup hbound hb⟩

/-- In the variant `Standard` the last slot belongs to some hash. -/
theorem isGreatest_lastSlot (hw : NoWrap c n histogram) (hv : c.variant = .Standard) (hpos : 0 < n)
    (h32 : (entryOf c (histogram (n - 1))).size.toNat < 2 ^ 32) :
    IsGreatest (reachedSlots c n histogram) (lastSlot c n histogram - 1) := by
  have hi : n - 1 < n := Nat.sub_lt hpos Nat.one_pos
  obtain ⟨hash, hlast⟩ := exists_vertex_lastSlot hv hpos (hw.pos _ hi) h32
  exact ⟨⟨n - 1, hi, 2, hash, by omega⟩, fun a ha => Nat.le_sub_one_of_lt (lt_lastSlot_of_reached hw ha)⟩

/-- The array holds every access exactly if it holds the one to the last slot of a hash. -/
theorem inBounds_exact (hn : c.partitioning = .Disabled → n ≤ 1) (hw : NoWrap c n histogram) (avx : Bool) :
    (InBounds c avx (.new c n histogram) n ↔ LastFits c avx n histogram) ∧
      (c.variant = .Standard → 0 < n → (entryOf c (histogram (n - 1))).size.toNat < 2 ^ 32 →
        IsGreatest (reachedSlots c n histogram) (lastSlot c n histogram - 1)) := by
  refine ⟨⟨fun hin a ha => ?_, fun hlast i hi set hash => ?_⟩, isGreatest_lastSlot hw⟩
  · obtain ⟨i, hi, set, hash, rfl⟩ := ha.1
    have h := hin i hi set hash
    rwa [fingerprintSpans_le_iff, hw.addressOf_eq hn hi, nBytes_eq hn hw.total hw.bytes] at h
  · have hreached : firstSlot c histogram i + c.vertex (entryOf c (histogram i)) set hash ∈
        reachedSlots c n histogram := ⟨i, hi, set, hash, rfl⟩
    obtain ⟨b, hb⟩ := exists_greatest_reached hw hreached
    have hlt := lt_lastSlot_of_reached hw hb.1
    have hslots : lastSlot c n histogram ≤ firstSlot c histogram n := Nat.sub_le _ _
    rw [fingerprintSpans_le_iff, hw.addressOf_eq hn hi, nBytes_eq hn hw.total hw.bytes]
    exact accessStop_le (hb.2 hreached) (by omega) (hlast b hb)

/-- A 32-bit filter with packed fingerprints of 3 bits. -/
def threeBits : Config ._32bit :=
  { variant := .Standard, k := 3, partitioning := .Disabled, mode := .Lemire, hash := murmur, s := 123 }

theorem inBounds_threeBits : InBounds threeBits true (.new threeBits 1 fun _ => 100) 1 := by
  have hw : NoWrap threeBits 1 fun _ => 100 := ⟨by decide +kernel, by decide +kernel, by decide +kernel⟩
  obtain ⟨hexact, hlast⟩ := inBounds_exact (c := threeBits) (fun _ => Nat.le_refl 1) hw true
  have hgreatest := hlast rfl Nat.one_pos (by decide +kernel)
  refine hexact.mpr fun a ha => ?_
  rw [ha.unique hgreatest]
  decide +kernel

/-- 165 fingerprints with room for 4 more take 64 bytes, and the window of the last one begins at byte 61. -/
theorem not_inBounds_threeBits : ¬InBounds threeBits false (.new threeBits 1 fun _ => 134) 1 := by
  intro h
  have hstop := h 0 Nat.one_pos 2 (BitVec.allOnes 32) ⟨61, 65⟩ (by decide +kernel)
  exact absurd hstop (by decide +kernel)

end PartitionedFilters.Xor

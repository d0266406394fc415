import PartitionedFilters.Bloom

/-!
# The windows of a hash word

Which bits of a hash the masks read, as their template arguments say it: these
are of type `size_t`, so an argument below zero would wrap around. Each hash of a
value is a sequence of words, the next one a rehash of the last.
-/

namespace PartitionedFilters.Bloom

variable {r : RegisterSize}

structure Window where
  word : Nat
  offset : BitVec 64
  nBits : BitVec 64
  deriving DecidableEq, Repr

/-- The template arguments `_remaining_hash_bits` and `_n_rehash`. -/
structure HashBits where
  remaining : BitVec 64
  nRehash : Nat
  deriving DecidableEq, Repr

namespace HashBits

def refill (r : RegisterSize) (h : HashBits) (nBits : BitVec 64) : HashBits :=
  if h.remaining < nBits then ⟨BitVec.ofNat 64 r.bits, h.nRehash + 1⟩ else h

def skip (h : HashBits) (nBits : BitVec 64) : HashBits := { h with remaining := h.remaining - nBits }

/-- `hash_offset + offset` and the bits behind it. -/
def window (r : RegisterSize) (h : HashBits) (offset nBits : BitVec 64) : Window :=
  ⟨h.nRehash, BitVec.ofNat 64 r.bits - h.remaining + offset, nBits⟩

end HashBits

/-! ## The recursions -/

/-- `word_bits`. -/
def wordWidth (r : RegisterSize) : BitVec 64 := BitVec.ofNat 64 (wordBits r)

/-- `BloomMaskHelper`. -/
def fillWindows (r : RegisterSize) : Nat → HashBits → List Window × HashBits
  | 0, h => ([], h)
  | remainingK + 1, h =>
    let h := h.refill r (wordWidth r)
    let rest := fillWindows r remainingK (h.skip (wordWidth r))
    (h.window r 0 (wordWidth r) :: rest.1, rest.2)

section
variable (c : Config r)

/-- `BloomMask<Variant::Blocked>`. -/
def blockedWindows (c : Config r) : Nat → HashBits → List Window
  | remainingK, h =>
    let sectorBits := BitVec.ofNat 64 c.sectorBits
    let h := h.refill r (sectorBits + wordWidth r)
    h.window r 0 sectorBits :: h.window r sectorBits (wordWidth r) ::
      match remainingK with
      | remainingK + 2 => blockedWindows c (remainingK + 1) (h.skip (sectorBits + wordWidth r))
      | _ => []

/-- `BloomMask<Variant::Sectorized, Vectorization::Horizontal>`. -/
def sectorizedWindows (remainingK : Nat) (h : HashBits) : List Window :=
  let (windows, h) := fillWindows r c.kPerSector h
  windows ++
    if 0 < c.kPerSector ∧ c.kPerSector < remainingK then sectorizedWindows (remainingK - c.kPerSector) h else []
termination_by remainingK

/-- `BloomMask<Variant::Grouped>`. -/
def groupedWindows (remainingK : Nat) (h : HashBits) : List Window :=
  let sectorBits := BitVec.ofNat 64 c.nSectorBitsPerGroup
  let h := h.refill r sectorBits
  let (windows, h') := fillWindows r c.kPerGroup (h.skip sectorBits)
  h.window r 0 sectorBits :: windows ++
    if 0 < c.kPerGroup ∧ c.kPerGroup < remainingK then groupedWindows (remainingK - c.kPerGroup) h' else []
termination_by remainingK

/-- The words of `address_hash` in the naive constructor and counter. -/
def naiveAddressWindows (r : RegisterSize) : Nat → HashBits → List Window
  | remainingK, h =>
    let width := BitVec.ofNat 64 addressBits
    let h := h.refill r width
    h.window r 0 width ::
      match remainingK with
      | remainingK + 2 => naiveAddressWindows r (remainingK + 1) (h.skip width)
      | _ => []

/-- The words of `block_hash`. -/
def naiveBlockWindows (r : RegisterSize) : Nat → HashBits → List Window
  | remainingK, h =>
    let (windows, h) := fillWindows r 1 h
    windows ++
      match remainingK with
      | remainingK + 2 => naiveBlockWindows r (remainingK + 1) h
      | _ => []

/-- The windows of each hash of a value: the block address first, where it shares the hash with the mask. -/
def windows : List (List Window) :=
  let width := BitVec.ofNat 64 addressBits
  let address : Window := ⟨0, 0, width⟩
  let hashBits : HashBits := ⟨BitVec.ofNat 64 r.bits, 0⟩
  match c.vectorization, c.variant with
  | .Horizontal, .Naive => [naiveAddressWindows r c.k hashBits, naiveBlockWindows r c.k hashBits]
  | .Horizontal, .Blocked => [address :: blockedWindows c c.k (hashBits.skip width)]
  | .Horizontal, .Sectorized => [address :: sectorizedWindows c c.k (hashBits.skip width)]
  | .Horizontal, .Grouped => [address :: groupedWindows c c.k (hashBits.skip width)]
  | .Vertical, _ => [[address], (fillWindows r c.kPerSector ⟨0, 0⟩).1]

end

/-! ## The masks read their windows -/

def hashWord (c : Config r) (value hash : r.T) : Nat → r.T
  | 0 => hash
  | n + 1 => c.rehash n (hashWord c value hash n) value

def Window.read (c : Config r) (value hash : r.T) (w : Window) : r.T :=
  extractBits (hashWord c value hash w.word) w.offset.toNat w.nBits.toNat

def HashWindow.hashBits (h : HashWindow r) : HashBits := ⟨BitVec.ofNat 64 h.remaining, h.nRehash⟩

theorem bits_lt (r : RegisterSize) : r.bits < 2 ^ 64 := by
  cases r with
  | _32bit => decide
  | _64bit => decide

theorem toNat_ofNat_of_le {n : Nat} (h : n ≤ r.bits) : (BitVec.ofNat 64 n).toNat = n := by
  rw [BitVec.toNat_ofNat, Nat.mod_eq_of_lt (Nat.lt_of_le_of_lt h (bits_lt r))]

namespace HashWindow
variable {c : Config r} {value hash : r.T} {h : HashWindow r} {n : Nat}

structure Reads (c : Config r) (value hash : r.T) (h : HashWindow r) : Prop where
  remaining : h.remaining ≤ r.bits
  word : h.hash = hashWord c value hash h.nRehash

theorem Reads.refill (hr : Reads c value hash h) (hn : n ≤ r.bits) : Reads c value hash (h.refill c value n) ∧
    (h.refill c value n).hashBits = h.hashBits.refill r (BitVec.ofNat 64 n) := by
  have hlt : h.hashBits.remaining < BitVec.ofNat 64 n ↔ h.remaining < n := by
    rw [BitVec.lt_def, hashBits, toNat_ofNat_of_le hr.remaining, toNat_ofNat_of_le hn]
  unfold HashWindow.refill HashBits.refill
  by_cases hless : h.remaining < n
  · rw [if_pos hless, if_pos (hlt.mpr hless)]
    refine ⟨⟨Nat.le_refl _, ?_⟩, rfl⟩
    rw [hashWord, ← hr.word]
  · rw [if_neg hless, if_neg fun h => hless (hlt.mp h)]
    exact ⟨hr, rfl⟩

theorem Reads.skip (hr : Reads c value hash h) (hn : n ≤ h.remaining) :
    Reads c value hash (h.skip n) ∧ (h.skip n).hashBits = h.hashBits.skip (BitVec.ofNat 64 n) := by
  have hn64 : n < 2 ^ 64 := Nat.lt_of_le_of_lt (Nat.le_trans hn hr.remaining) (bits_lt r)
  refine ⟨⟨Nat.le_trans (Nat.sub_le _ _) hr.remaining, hr.word⟩, ?_⟩
  simp only [HashWindow.skip, hashBits, HashBits.skip, BitVec.ofNat_sub_ofNat_of_le _ _ hn64 hn]

theorem Reads.window (hr : Reads c value hash h) (offset : Nat) (hfits : offset + n ≤ h.remaining) :
    h.window offset n = (h.hashBits.window r (BitVec.ofNat 64 offset) (BitVec.ofNat 64 n)).read c value hash := by
  have hle := hr.remaining
  have hoffset : (BitVec.ofNat 64 r.bits - BitVec.ofNat 64 h.remaining + BitVec.ofNat 64 offset).toNat =
      r.bits - h.remaining + offset := by
    have h64 : h.remaining < 2 ^ 64 := Nat.lt_of_le_of_lt hle (bits_lt r)
    rw [BitVec.ofNat_sub_ofNat_of_le _ _ h64 hle, ← BitVec.ofNat_add, toNat_ofNat_of_le (r := r) (by omega)]
  unfold HashWindow.window Window.read HashBits.window hashBits
  simp only
  rw [hoffset, toNat_ofNat_of_le (r := r) (by omega), hr.word]

/-- The helper reads the windows of its arguments and leaves what they leave. -/
theorem Reads.fillMask (hr : Reads c value hash h) (k : Nat) :
    (fillMask c value k h).1 = (fillWindows r k h.hashBits).1.map (fun w => (w.read c value hash).toNat) ∧
      Reads c value hash (fillMask c value k h).2 ∧
      (fillMask c value k h).2.hashBits = (fillWindows r k h.hashBits).2 := by
  induction k generalizing h with
  | zero => exact ⟨rfl, hr, rfl⟩
  | succ k ih =>
    have hw : wordBits r ≤ r.bits := by cases r <;> decide
    obtain ⟨hr1, hbits1⟩ := hr.refill hw
    have hfits : wordBits r ≤ (h.refill c value (wordBits r)).remaining := by
      unfold HashWindow.refill
      split
      · exact hw
      · rename_i hlt
        exact Nat.le_of_not_lt hlt
    obtain ⟨hr2, hbits2⟩ := hr1.skip hfits
    obtain ⟨hmask, hr3, hbits3⟩ := ih hr2
    have hwindow := hr1.window (n := wordBits r) 0 (by rwa [Nat.zero_add])
    rw [hbits2, hbits1] at hmask hbits3
    rw [hbits1] at hwindow
    refine ⟨?_, hr3, hbits3⟩
    simp only [Bloom.fillMask, fillWindows, List.map_cons]
    rw [hwindow, hmask]
    rfl

end HashWindow

/-! ## Cutting a hash into windows -/

/-- From `h` on the windows are cut off one behind the other, with rehashes in between. -/
inductive Cuts (r : RegisterSize) : HashBits → List Window → HashBits → Prop where
  | done (h : HashBits) : Cuts r h [] h
  | rehash {h h' : HashBits} {ws : List Window} (rest : Cuts r ⟨BitVec.ofNat 64 r.bits, h.nRehash + 1⟩ ws h') :
    Cuts r h ws h'
  | take {h h' : HashBits} {nBits : BitVec 64} {ws : List Window} (fits : nBits.toNat ≤ h.remaining.toNat)
      (rest : Cuts r (h.skip nBits) ws h') : Cuts r h (h.window r 0 nBits :: ws) h'

def Window.Inside (r : RegisterSize) (w : Window) : Prop := w.offset.toNat + w.nBits.toNat ≤ r.bits

/-- No bit of `w'` is one of `w` or lies before it. -/
def Window.Before (w w' : Window) : Prop := w.word = w'.word → w.offset.toNat + w.nBits.toNat ≤ w'.offset.toNat

def HashBits.Valid (r : RegisterSize) (h : HashBits) : Prop := h.remaining.toNat ≤ r.bits

def Window.After (r : RegisterSize) (h : HashBits) (w : Window) : Prop :=
  h.nRehash < w.word ∨ h.nRehash = w.word ∧ r.bits - h.remaining.toNat ≤ w.offset.toNat

theorem toNat_bits (r : RegisterSize) : (BitVec.ofNat 64 r.bits).toNat = r.bits := by
  cases r with
  | _32bit => rfl
  | _64bit => rfl

namespace HashBits
variable {h : HashBits} {nBits : BitVec 64}

theorem toNat_skip (hn : nBits.toNat ≤ h.remaining.toNat) :
    (h.skip nBits).remaining.toNat = h.remaining.toNat - nBits.toNat := BitVec.toNat_sub_of_le hn

theorem Valid.skip (hv : h.Valid r) (hn : nBits.toNat ≤ h.remaining.toNat) : (h.skip nBits).Valid r := by
  unfold Valid
  rw [toNat_skip hn]
  exact Nat.le_trans (Nat.sub_le _ _) hv

theorem valid_rehash (r : RegisterSize) (n : Nat) : Valid r ⟨BitVec.ofNat 64 r.bits, n⟩ :=
  Nat.le_of_eq (toNat_bits r)

theorem Valid.refill (hv : h.Valid r) : (h.refill r nBits).Valid r := by
  unfold HashBits.refill
  split
  · exact valid_rehash r _
  · exact hv

theorem le_refill (hn : nBits.toNat ≤ r.bits) : nBits.toNat ≤ (h.refill r nBits).remaining.toNat := by
  unfold HashBits.refill
  split
  · rw [toNat_bits]
    exact hn
  · rename_i hlt
    exact Nat.le_of_not_lt hlt

theorem Valid.toNat_offset (hv : h.Valid r) (nBits : BitVec 64) :
    (h.window r 0 nBits).offset.toNat = r.bits - h.remaining.toNat := by
  show (BitVec.ofNat 64 r.bits - h.remaining + 0#64).toNat = _
  rw [BitVec.add_zero, BitVec.toNat_sub_of_le (by rw [BitVec.le_def, toNat_bits]; exact hv), toNat_bits]

end HashBits

namespace Cuts
variable {h h' h'' : HashBits} {ws ws' : List Window}

theorem append (hc : Cuts r h ws h') (hc' : Cuts r h' ws' h'') : Cuts r h (ws ++ ws') h'' := by
  induction hc with
  | done h => exact hc'
  | rehash _ ih => exact .rehash (ih hc')
  | take fits _ ih => exact .take fits (ih hc')

theorem refill {nBits : BitVec 64} (hc : Cuts r (h.refill r nBits) ws h') : Cuts r h ws h' := by
  unfold HashBits.refill at hc
  split at hc
  · exact .rehash hc
  · exact hc

theorem sound (hc : Cuts r h ws h') (hv : h.Valid r) :
    (∀ w ∈ ws, w.Inside r ∧ w.After r h) ∧ ws.Pairwise Window.Before ∧ h'.Valid r := by
  induction hc with
  | done h => exact ⟨fun w hw => absurd hw List.not_mem_nil, .nil, hv⟩
  | rehash _ ih =>
    obtain ⟨hin, hpair, hv'⟩ := ih (HashBits.valid_rehash r _)
    refine ⟨fun w hw => ⟨(hin w hw).1, .inl ?_⟩, hpair, hv'⟩
    rcases (hin w hw).2 with hlt | heq
    · exact Nat.lt_of_succ_lt hlt
    · exact Nat.lt_of_succ_le (Nat.le_of_eq heq.1)
  | @take h h' nBits ws fits _ ih =>
    obtain ⟨hin, hpair, hv'⟩ := ih (hv.skip fits)
    have hoffset := hv.toNat_offset nBits
    have hskip := HashBits.toNat_skip fits
    have hle : h.remaining.toNat ≤ r.bits := hv
    refine ⟨fun w hw => ?_, List.Pairwise.cons (fun w hw hword => ?_) hpair, hv'⟩
    · cases hw with
      | head =>
        refine ⟨?_, .inr ⟨rfl, Nat.le_of_eq hoffset.symm⟩⟩
        show (h.window r 0 nBits).offset.toNat + nBits.toNat ≤ r.bits
        omega
      | tail _ hw =>
        refine ⟨(hin w hw).1, ?_⟩
        rcases (hin w hw).2 with hlt | ⟨heq, hge⟩
        · exact .inl hlt
        · refine .inr ⟨heq, ?_⟩
          omega
    · show (h.window r 0 nBits).offset.toNat + nBits.toNat ≤ w.offset.toNat
      rcases (hin w hw).2 with hlt | ⟨heq, hge⟩
      · exact absurd hword (Nat.ne_of_lt hlt)
      · omega

end Cuts

/-! ## The recursions cut -/

theorem toNat_wordWidth_le (r : RegisterSize) : (wordWidth r).toNat ≤ 6 := by
  cases r with
  | _32bit => decide
  | _64bit => decide

theorem le_bits {n : Nat} (hn : n ≤ 32) : n ≤ r.bits := by
  cases r with
  | _32bit => exact hn
  | _64bit => exact Nat.le_trans hn (by decide)

theorem cuts_fillWindows (n : Nat) (h : HashBits) : Cuts r h (fillWindows r n h).1 (fillWindows r n h).2 := by
  induction n generalizing h with
  | zero => exact .done h
  | succ n ih =>
    have hw : (wordWidth r).toNat ≤ r.bits := le_bits (Nat.le_trans (toNat_wordWidth_le r) (by decide))
    exact (Cuts.take (HashBits.le_refill hw) (ih _)).refill

/-- Two windows of one step, the second one behind the first. -/
theorem cuts_two {h h' : HashBits} {n m : BitVec 64} {ws : List Window}
    (hfits : n.toNat + m.toNat ≤ h.remaining.toNat) (hc : Cuts r (h.skip (n + m)) ws h') :
    Cuts r h (h.window r 0 n :: h.window r n m :: ws) h' := by
  have hn : n.toNat ≤ h.remaining.toNat := Nat.le_trans (Nat.le_add_right _ _) hfits
  have hskip : (h.skip n).skip m = h.skip (n + m) := by
    simp only [HashBits.skip, BitVec.sub_sub]
  have hwindow : (h.skip n).window r 0 m = h.window r n m := by
    have hoffset : BitVec.ofNat 64 r.bits - (h.remaining - n) + 0 = BitVec.ofNat 64 r.bits - h.remaining + n := by
      generalize BitVec.ofNat 64 r.bits = bits
      bv_omega
    simp only [HashBits.window, HashBits.skip, hoffset]
  apply Cuts.take hn
  rw [← hwindow]
  apply Cuts.take
  · rw [HashBits.toNat_skip hn]
    omega
  · rw [hskip]
    exact hc

section
variable (c : Config r)

theorem sectorBits_le : c.sectorBits ≤ 4 := by
  unfold Config.sectorBits Config.nSectors
  generalize c.blockSize = b
  cases r <;> cases b <;> decide

theorem nSectorBitsPerGroup_le : c.nSectorBitsPerGroup ≤ 4 := by
  unfold Config.nSectorBitsPerGroup Config.nSectorsPerGroup
  generalize c.blockSize = b
  generalize c.groups = g
  cases r <;> cases b <;> cases g <;> decide

theorem toNat_ofNat_le {n m : Nat} (h : n ≤ m) (hm : m < 2 ^ 64) : (BitVec.ofNat 64 n).toNat ≤ m := by
  rw [BitVec.toNat_ofNat, Nat.mod_eq_of_lt (Nat.lt_of_le_of_lt h hm)]
  exact h

theorem cuts_blockedWindows (k : Nat) (h : HashBits) : ∃ h', Cuts r h (blockedWindows c k h) h' := by
  have hsector := toNat_ofNat_le (sectorBits_le c) (by decide)
  have hword := toNat_wordWidth_le r
  have hsum : (BitVec.ofNat 64 c.sectorBits + wordWidth r).toNat =
      (BitVec.ofNat 64 c.sectorBits).toNat + (wordWidth r).toNat :=
    BitVec.toNat_add_of_lt (by omega)
  have hle : (BitVec.ofNat 64 c.sectorBits + wordWidth r).toNat ≤ r.bits := le_bits (by omega)
  induction k using Nat.strong_induction_on generalizing h with
  | _ k ih =>
    unfold blockedWindows
    have hfits := HashBits.le_refill (h := h) hle
    rw [hsum] at hfits
    cases k with
    | zero => exact ⟨_, (cuts_two hfits (.done _)).refill⟩
    | succ k =>
      cases k with
      | zero => exact ⟨_, (cuts_two hfits (.done _)).refill⟩
      | succ k =>
        obtain ⟨h', hrest⟩ :=
          ih (k + 1) (Nat.lt_succ_self _) ((h.refill r (BitVec.ofNat 64 c.sectorBits + wordWidth r)).skip
          (BitVec.ofNat 64 c.sectorBits + wordWidth r))
        exact ⟨h', (cuts_two hfits hrest).refill⟩

theorem cuts_sectorizedWindows (k : Nat) (h : HashBits) : ∃ h', Cuts r h (sectorizedWindows c k h) h' := by
  induction k using Nat.strong_induction_on generalizing h with
  | _ k ih =>
    unfold sectorizedWindows
    have hfill := cuts_fillWindows (r := r) c.kPerSector h
    split
    · rename_i hk
      obtain ⟨h', hrest⟩ := ih (k - c.kPerSector) (by omega) (fillWindows r c.kPerSector h).2
      exact ⟨h', hfill.append hrest⟩
    · exact ⟨_, hfill.append (.done _)⟩

theorem cuts_groupedWindows (k : Nat) (h : HashBits) : ∃ h', Cuts r h (groupedWindows c k h) h' := by
  have hsector : (BitVec.ofNat 64 c.nSectorBitsPerGroup).toNat ≤ r.bits :=
    le_bits (Nat.le_trans (toNat_ofNat_le (nSectorBitsPerGroup_le c) (by decide)) (by decide))
  induction k using Nat.strong_induction_on generalizing h with
  | _ k ih =>
    unfold groupedWindows
    have hfill := cuts_fillWindows (r := r) c.kPerGroup ((h.refill r (BitVec.ofNat 64 c.nSectorBitsPerGroup)).skip
      (BitVec.ofNat 64 c.nSectorBitsPerGroup))
    split
    · rename_i hk
      obtain ⟨h', hrest⟩ := ih (k - c.kPerGroup) (by omega) _
      exact ⟨h', (Cuts.take (HashBits.le_refill hsector) (hfill.append hrest)).refill⟩
    · exact ⟨_, (Cuts.take (HashBits.le_refill hsector) (hfill.append (.done _))).refill⟩

theorem cuts_naiveAddressWindows (k : Nat) (h : HashBits) : ∃ h', Cuts r h (naiveAddressWindows r k h) h' := by
  have hwidth : (BitVec.ofNat 64 addressBits).toNat ≤ r.bits := le_bits (by decide)
  induction k using Nat.strong_induction_on generalizing h with
  | _ k ih =>
    unfold naiveAddressWindows
    cases k with
    | zero => exact ⟨_, (Cuts.take (HashBits.le_refill hwidth) (.done _)).refill⟩
    | succ k =>
      cases k with
      | zero => exact ⟨_, (Cuts.take (HashBits.le_refill hwidth) (.done _)).refill⟩
      | succ k =>
        obtain ⟨h', hrest⟩ := ih (k + 1) (Nat.lt_succ_self _) _
        exact ⟨h', (Cuts.take (HashBits.le_refill hwidth) hrest).refill⟩

theorem cuts_naiveBlockWindows (k : Nat) (h : HashBits) : ∃ h', Cuts r h (naiveBlockWindows r k h) h' := by
  induction k using Nat.strong_induction_on generalizing h with
  | _ k ih =>
    unfold naiveBlockWindows
    have hfill := cuts_fillWindows (r := r) 1 h
    cases k with
    | zero => exact ⟨_, hfill.append (.done _)⟩
    | succ k =>
      cases k with
      | zero => exact ⟨_, hfill.append (.done _)⟩
      | succ k =>
        obtain ⟨h', hrest⟩ := ih (k + 1) (Nat.lt_succ_self _) (fillWindows r 1 h).2
        exact ⟨h', hfill.append hrest⟩

theorem cuts_windows : ∀ ws ∈ windows c, ∃ h h', h.Valid r ∧ Cuts r h ws h' := by
  let width := BitVec.ofNat 64 addressBits
  let hashBits : HashBits := ⟨BitVec.ofNat 64 r.bits, 0⟩
  have hv : hashBits.Valid r := HashBits.valid_rehash r 0
  have haddress : ∀ {ws h'}, Cuts r (hashBits.skip width) ws h' → Cuts r hashBits (⟨0, 0, width⟩ :: ws) h' := by
    intro ws h' hc
    have hwindow : hashBits.window r 0 width = ⟨0, 0, width⟩ := by
      simp only [HashBits.window, hashBits, BitVec.sub_self]
      rfl
    rw [← hwindow]
    apply Cuts.take _ hc
    rw [toNat_bits]
    exact le_bits (by decide)
  intro ws hws
  unfold windows at hws
  cases hvec : c.vectorization with
  | Vertical =>
    simp only [hvec, List.mem_cons, List.not_mem_nil, or_false] at hws
    cases hws with
    | inl h => exact h ▸ ⟨hashBits, _, hv, haddress (.done _)⟩
    | inr h => exact h ▸ ⟨⟨0, 0⟩, _, Nat.zero_le _, cuts_fillWindows c.kPerSector ⟨0, 0⟩⟩
  | Horizontal =>
    cases hvar : c.variant with
    | Naive =>
      simp only [hvec, hvar, List.mem_cons, List.not_mem_nil, or_false] at hws
      cases hws with
      | inl h =>
        obtain ⟨h', hc⟩ := cuts_naiveAddressWindows (r := r) c.k hashBits
        exact h ▸ ⟨hashBits, h', hv, hc⟩
      | inr h =>
        obtain ⟨h', hc⟩ := cuts_naiveBlockWindows (r := r) c.k hashBits
        exact h ▸ ⟨hashBits, h', hv, hc⟩
    | Blocked =>
      simp only [hvec, hvar, List.mem_cons, List.not_mem_nil, or_false] at hws
      obtain ⟨h', hc⟩ := cuts_blockedWindows c c.k (hashBits.skip width)
      exact hws ▸ ⟨hashBits, h', hv, haddress hc⟩
    | Sectorized =>
      simp only [hvec, hvar, List.mem_cons, List.not_mem_nil, or_false] at hws
      obtain ⟨h', hc⟩ := cuts_sectorizedWindows c c.k (hashBits.skip width)
      exact hws ▸ ⟨hashBits, h', hv, haddress hc⟩
    | Grouped =>
      simp only [hvec, hvar, List.mem_cons, List.not_mem_nil, or_false] at hws
      obtain ⟨h', hc⟩ := cuts_groupedWindows c c.k (hashBits.skip width)
      exact hws ▸ ⟨hashBits, h', hv, haddress hc⟩

/-- The windows of a hash word lie inside it and have no bit in common. -/
theorem windows_disjoint : ∀ ws ∈ windows c, (∀ w ∈ ws, w.Inside r) ∧ ws.Pairwise Window.Before := by
  intro ws hws
  obtain ⟨h, h', hv, hc⟩ := cuts_windows c ws hws
  obtain ⟨hin, hpair, -⟩ := hc.sound hv
  exact ⟨fun w hw => (hin w hw).1, hpair⟩

end

def blockedConfig : Config ._64bit :=
  ⟨.Blocked, .Horizontal, ._512bit, ._1group, 4, .Scalar, .Disabled, .Lemire, murmur,
  fun _ hash value => murmur (hash ^^^ value)⟩

theorem windows_disjoint_blocked :
    (∀ w ∈ [⟨0, 0, 32⟩, ⟨0, 32, 3⟩, ⟨0, 35, 6⟩, ⟨0, 41, 3⟩, ⟨0, 44, 6⟩, ⟨0, 50, 3⟩, ⟨0, 53, 6⟩,
    ⟨1, 0, 3⟩, ⟨1, 3, 6⟩],
      Window.Inside ._64bit w) ∧ List.Pairwise Window.Before
      [⟨0, 0, 32⟩, ⟨0, 32, 3⟩, ⟨0, 35, 6⟩, ⟨0, 41, 3⟩, ⟨0, 44, 6⟩, ⟨0, 50, 3⟩, ⟨0, 53, 6⟩, ⟨1, 0, 3⟩, ⟨1, 3, 6⟩] :=
  windows_disjoint blockedConfig _ (by decide)

end PartitionedFilters.Bloom

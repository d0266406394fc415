import PartitionedFilters.Bits

/-!
# Footprints

The bytes that a packed access loads and stores: one word, the unaligned window
or two words.
-/

namespace PartitionedFilters

/-- The bytes from `first` on, before `stop`. -/
structure Span where
  first : Nat
  stop : Nat
  deriving DecidableEq, Repr

namespace Span

def Covers (s : Span) (q : Nat) : Prop := 8 * s.first ≤ q ∧ q < 8 * s.stop

end Span

variable {r : RegisterSize}

def wordSpan (r : RegisterSize) (base i : Nat) : Span := ⟨base + r.bytes * i, base + r.bytes * (i + 1)⟩

/-- What `_gatheru_bits` loads, and `_scatteru_bits` loads and stores. -/
def packedSpans (r : RegisterSize) (avx nbitAligned : Bool) (n bitAddress base : Nat) : List Span :=
  if nbitAligned && isPowerOfTwo n then [wordSpan r base (bitAddress / r.bits)]
  else if !avx && decide (8 + n ≤ r.bits) then [⟨base + bitAddress / 8, base + bitAddress / 8 + r.bytes⟩]
  else [wordSpan r base (bitAddress / r.bits), wordSpan r base (bitAddress / r.bits + 1)]

theorem bits_eq_bytes (r : RegisterSize) : r.bits = 8 * r.bytes := by cases r <;> rfl

theorem covers_wordSpan {base i q : Nat} : (wordSpan r base i).Covers q ↔
    8 * base + r.bits * i ≤ q ∧ q < 8 * base + r.bits * i + r.bits := by
  unfold Span.Covers wordSpan
  rw [bits_eq_bytes, Nat.mul_add, Nat.mul_add, Nat.mul_succ, Nat.mul_add, Nat.mul_assoc, Nat.add_assoc]

theorem load_congr {m m' : Mem} {p n : Nat} (h : ∀ q, p ≤ q → q < p + n → m.bit q = m'.bit q) :
    m.load p n = m'.load p n := by
  refine BitVec.eq_of_getLsbD_eq fun i hi => ?_
  rw [Mem.getLsbD_load, Mem.getLsbD_load, h (p + i) (by omega) (by omega)]

section
variable {avx nbitAligned : Bool} {n bitAddress base : Nat}

theorem gatheruBits_congr {m m' : Mem}
    (h : ∀ s ∈ packedSpans r avx nbitAligned n bitAddress base, ∀ q, s.Covers q → m.bit q = m'.bit q) :
    (gatheruBits avx nbitAligned n bitAddress base m : r.T) = gatheruBits avx nbitAligned n bitAddress base m' := by
  have hword : ∀ i, wordSpan r base i ∈ packedSpans r avx nbitAligned n bitAddress base →
      (gather m base i : r.T) = gather m' base i := fun i hi =>
    load_congr fun q h1 h2 => h _ hi q (covers_wordSpan.mpr ⟨h1, h2⟩)
  unfold packedSpans at h hword
  unfold gatheruBits
  split at h
  · rename_i hal
    rw [if_pos hal] at hword
    rw [if_pos hal, if_pos hal, hword _ (List.mem_singleton_self _)]
  rename_i hal
  rw [if_neg hal] at hword
  rw [if_neg hal, if_neg hal]
  split at h
  · rename_i hwin
    rw [if_pos hwin, if_pos hwin, load_congr fun q h1 h2 => h _ (List.mem_singleton_self _) q ⟨h1, ?_⟩]
    show q < 8 * (base + bitAddress / 8 + r.bytes)
    rwa [Nat.mul_add, ← bits_eq_bytes]
  · rename_i hwin
    rw [if_neg hwin] at hword
    rw [if_neg hwin, if_neg hwin, hword _ (List.mem_cons_self ..),
      hword _ (List.mem_cons_of_mem _ (List.mem_cons_self ..))]

theorem scatteruBits_frame {value : r.T} {m : Mem} {q : Nat}
    (h : ∀ s ∈ packedSpans r avx nbitAligned n bitAddress base, ¬s.Covers q) :
    (scatteruBits avx nbitAligned n bitAddress base value m).bit q = m.bit q := by
  have hword : ∀ i, wordSpan r base i ∈ packedSpans r avx nbitAligned n bitAddress base → ∀ (m : Mem) (v : r.T),
      (scatter m base i v).bit q = m.bit q := fun i hi m v => Mem.store_of_notMem _ _ (by
    have := h _ hi
    rw [covers_wordSpan] at this
    omega)
  unfold packedSpans at h hword
  unfold scatteruBits
  simp only
  split at h
  · rename_i hal
    rw [if_pos hal] at hword
    rw [if_pos hal, hword _ (List.mem_singleton_self _)]
  rename_i hal
  rw [if_neg hal] at hword
  rw [if_neg hal]
  split at h
  · rename_i hwin
    have hq : ¬(8 * (base + bitAddress / 8) ≤ q ∧ q < 8 * (base + bitAddress / 8 + r.bytes)) :=
      h _ (List.mem_singleton_self _)
    rw [Nat.mul_add 8 (base + bitAddress / 8), ← bits_eq_bytes] at hq
    have hout : q < 8 * (base + bitAddress / 8) ∨ 8 * (base + bitAddress / 8) + r.bits ≤ q := by omega
    rw [if_pos hwin, Mem.store_of_notMem _ _ hout, Mem.store_of_notMem _ _ hout]
  · rename_i hwin
    rw [if_neg hwin] at hword
    rw [if_neg hwin, hword _ (List.mem_cons_of_mem _ (List.mem_cons_self ..)), hword _ (List.mem_cons_self ..)]

end

/-! ## Ends -/

def packedStop (r : RegisterSize) (avx nbitAligned : Bool) (n bitAddress base : Nat) : Nat :=
  if nbitAligned && isPowerOfTwo n then base + r.bytes * (bitAddress / r.bits + 1)
  else if !avx && decide (8 + n ≤ r.bits) then base + bitAddress / 8 + r.bytes
  else base + r.bytes * (bitAddress / r.bits + 2)

section
variable {avx nbitAligned : Bool} {n bitAddress base : Nat}

theorem packedSpans_le_iff {stop : Nat} : (∀ s ∈ packedSpans r avx nbitAligned n bitAddress base, s.stop ≤ stop) ↔
    packedStop r avx nbitAligned n bitAddress base ≤ stop := by
  have hmul := Nat.mul_le_mul_left r.bytes (Nat.le_succ (bitAddress / r.bits + 1))
  unfold packedSpans packedStop wordSpan
  split
  · rw [List.forall_mem_singleton]
  split
  · rw [List.forall_mem_singleton]
  · rw [List.forall_mem_cons, List.forall_mem_singleton]
    exact and_iff_right_of_imp fun h => Nat.le_trans (Nat.add_le_add_left hmul base) h

/-- An access whose first bit lies in a region of whole words ends at most one word behind it. -/
theorem packedSpans_within {first stop : Nat} (hfirst : r.bytes ∣ first) (hstop : r.bytes ∣ stop)
    (h1 : 8 * first ≤ bitAddress) (h2 : bitAddress < 8 * stop) {s : Span}
    (hs : s ∈ packedSpans r avx nbitAligned n bitAddress base) :
    base + first ≤ s.first ∧ s.stop ≤ base + (stop + r.bytes) := by
  obtain ⟨f, rfl⟩ := hfirst
  obtain ⟨e, rfl⟩ := hstop
  rw [← Nat.mul_assoc, ← bits_eq_bytes] at h1 h2
  have hword : f ≤ bitAddress / r.bits ∧ bitAddress / r.bits + 1 ≤ e :=
    ⟨(Nat.le_div_iff_mul_le r.bits_pos).mpr (Nat.mul_comm f _ ▸ h1), Nat.div_lt_of_lt_mul h2⟩
  have hf := Nat.mul_le_mul_left r.bytes hword.1
  have he := Nat.mul_le_mul_left r.bytes hword.2
  rw [Nat.mul_succ] at he
  have hbits := bits_eq_bytes r
  unfold packedSpans wordSpan at hs
  split at hs
  · rw [List.mem_singleton.mp hs]
    simp only [Nat.mul_succ]
    omega
  split at hs
  · rw [List.mem_singleton.mp hs]
    rw [hbits, Nat.mul_assoc] at h1 h2
    simp only
    omega
  · rcases List.mem_cons.mp hs with rfl | hs
    · simp only [Nat.mul_succ]
      omega
    · rw [List.mem_singleton.mp hs]
      simp only [Nat.mul_succ]
      omega

theorem packedStop_mono {bitAddress' : Nat} (h : bitAddress ≤ bitAddress') :
    packedStop r avx nbitAligned n bitAddress base ≤ packedStop r avx nbitAligned n bitAddress' base := by
  have hword := Nat.div_le_div_right (c := r.bits) h
  have hbyte := Nat.div_le_div_right (c := 8) h
  have h1 := Nat.mul_le_mul_left r.bytes (Nat.add_le_add_right hword 1)
  have h2 := Nat.mul_le_mul_left r.bytes (Nat.add_le_add_right hword 2)
  unfold packedStop
  split
  · exact Nat.add_le_add_left h1 base
  split
  · omega
  · exact Nat.add_le_add_left h2 base

theorem packedStop_le :
    8 * packedStop r avx nbitAligned n bitAddress base ≤ 8 * base + bitAddress + 2 * r.bits := by
  have hpos := r.bytes_pos
  have hword : 8 * (r.bytes * (bitAddress / r.bits)) ≤ bitAddress := by
    rw [← Nat.mul_assoc, ← bits_eq_bytes]
    exact Nat.mul_div_le ..
  have hbits := bits_eq_bytes r
  unfold packedStop
  rw [Nat.mul_add, Nat.mul_add]
  split
  · omega
  split <;> omega

end

end PartitionedFilters

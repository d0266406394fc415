import PartitionedFilters.MortonBlockSound
import Mathlib.Tactic.IntervalCases
import Mathlib.Tactic.Ring

/-!
# The parameters of the cuckoo filters

`CuckooFilterParameter` computes the layout of a block from `k`, the
associativity and two ratios in percent. For the parameters that the header
declares, counters, overflow-tracking bits and slots share the 512 bits of a
block without an underflow.
-/

namespace PartitionedFilters.Cuckoo

variable {r : RegisterSize}

structure CuckooFilterParameter where
  associativity : Nat
  bucketsPerBlock : Nat
  otaSize : Nat
  deriving DecidableEq, Repr

namespace CuckooFilterParameter

inductive Variant where
  | Standard
  | Morton
  | CuckooOpt
  | MortonOpt
  deriving DecidableEq, Repr

def requireK (k : Nat) : Except String Unit := if k < 1 ∨ 32 < k then .error "k not supported!" else .ok ()

def optimalAssociativity (k : Nat) (variant : Variant) (associativity : Nat) : Except String Nat := do
  requireK k
  match variant with
  | .CuckooOpt => return if k ≤ 4 then 8 else if k ≤ 8 then 4 else if k ≤ 15 then 3 else 2
  | .MortonOpt => return if k ≤ 3 then 7 else 3
  | _ => return associativity

def counterSize (associativity : Nat) : Nat := getNumberOfBits 64 (associativity + 1)

def mortonBucketsPerBlock (k associativity compressionRatio otaRatio : Nat) : Nat :=
  512 * 100 / (associativity * compressionRatio * k + counterSize associativity * 100 + otaRatio)

def optimalBucketsPerBlock (k : Nat) (variant : Variant) (associativity compressionRatio otaRatio : Nat) :
    Except String Nat := do
  requireK k
  match variant with
  | .Morton => return mortonBucketsPerBlock k associativity compressionRatio otaRatio
  | .MortonOpt =>
    return if k ≤ 2 then 64 else if k ≤ 3 then 56 else if k ≤ 8 then 64 else if k ≤ 9 then 48 else if k ≤ 13 then 32
      else if k ≤ 14 then 23 else if k ≤ 15 then 21 else if k ≤ 17 then 22 else if k ≤ 20 then 16
      else if k ≤ 21 then 12 else if k ≤ 24 then 12 else if k ≤ 25 then 14 else if k ≤ 26 then 8
      else if k ≤ 27 then 11 else if k ≤ 28 then 12 else if k ≤ 29 then 8 else if k ≤ 30 then 12
      else if k ≤ 31 then 8 else 12
  | _ => return 0

/-- `512 - a - b` of `size_t`. -/
def sub512 (a b : Nat) : Nat := (2 ^ 64 + 512 - a - b) % 2 ^ 64

def mortonOtaSize (k associativity bucketsPerBlock otaRatio : Nat) : Nat :=
  let slotsPerBlock := sub512 (bucketsPerBlock * counterSize associativity) (bucketsPerBlock * otaRatio / 100) / k
  if otaRatio = 0 then 0 else sub512 (slotsPerBlock * k) (bucketsPerBlock * counterSize associativity)

def optimalOtaSize (k : Nat) (variant : Variant) (associativity bucketsPerBlock otaRatio : Nat) :
    Except String Nat := do
  requireK k
  match variant with
  | .Morton => return mortonOtaSize k associativity bucketsPerBlock otaRatio
  | .MortonOpt =>
    return [32, 16, 8, 16, 8, 8, 8, 8, 8, 8, 8, 4, 4, 4, 4, 4,
      8, 8, 4, 0, 4, 4, 4, 8, 8, 2, 4, 12, 2, 8, 0, 8].getD (k - 1) 0
  | _ => return 0

def new (k : Nat) (variant : Variant) (associativity compressionRatio otaRatio : Nat) :
    Except String CuckooFilterParameter := do
  let associativity ← optimalAssociativity k variant associativity
  let bucketsPerBlock ← optimalBucketsPerBlock k variant associativity compressionRatio otaRatio
  let otaSize ← optimalOtaSize k variant associativity bucketsPerBlock otaRatio
  return ⟨associativity, bucketsPerBlock, otaSize⟩

/-- The Morton filters of the header, with every ratio between those that it names. -/
inductive Declared : Variant → (associativity compressionRatio otaRatio : Nat) → Prop
  | Morton {a c o : Nat} : a ∈ [2, 3, 7, 15] → 5 ≤ c → c ≤ 95 → o ≤ 50 → Declared .Morton a c o
  | MortonOpt : Declared .MortonOpt 0 0 0

/-- No difference in the layout of a block is negative, and a slot fits. -/
structure Fits (k otaRatio : Nat) (p : CuckooFilterParameter) : Prop where
  rough : p.bucketsPerBlock * counterSize p.associativity + p.bucketsPerBlock * otaRatio / 100 ≤ 512
  counters : p.bucketsPerBlock * counterSize p.associativity + p.otaSize ≤ 512
  buckets : 1 ≤ p.bucketsPerBlock
  slots : k ≤ 512 - p.bucketsPerBlock * counterSize p.associativity - p.otaSize

/-- What the buckets of a block take, in hundredths of a bit. -/
theorem mortonBucketsPerBlock_mul_le (k a c o : Nat) :
    mortonBucketsPerBlock k a c o * (a * c) * k + 100 * (mortonBucketsPerBlock k a c o * counterSize a) +
      mortonBucketsPerBlock k a c o * o ≤ 51200 := by
  calc mortonBucketsPerBlock k a c o * (a * c) * k + 100 * (mortonBucketsPerBlock k a c o * counterSize a) +
        mortonBucketsPerBlock k a c o * o
      = mortonBucketsPerBlock k a c o * (a * c * k + counterSize a * 100 + o) := by ring
    _ ≤ 51200 := Nat.div_mul_le_self (512 * 100) (a * c * k + counterSize a * 100 + o)

theorem sub512_eq {a b : Nat} (h : a + b ≤ 512) : sub512 a b = 512 - a - b := by
  unfold sub512
  omega

section
variable {k a c o : Nat} (hk : 1 ≤ k) (hk32 : k ≤ 32) (ha : a ∈ [2, 3, 7, 15]) (hc : 5 ≤ c)
  (hc95 : c ≤ 95) (ho : o ≤ 50)
include hk hk32 ha hc hc95 ho

omit hk in
theorem hundred_le_mortonBucketsPerBlock : 100 ≤ mortonBucketsPerBlock k a c o * (a * c) := by
  have hcs : 1 ≤ counterSize a ∧ counterSize a ≤ 4 := by
    simp only [List.mem_cons, List.not_mem_nil, or_false] at ha
    rcases ha with rfl | rfl | rfl | rfl <;> decide
  have ha2 : 2 ≤ a ∧ a ≤ 15 := by
    simp only [List.mem_cons, List.not_mem_nil, or_false] at ha
    omega
  have hac : 2 * 5 ≤ a * c := Nat.mul_le_mul ha2.1 hc
  have hac' : a * c ≤ 15 * 95 := Nat.mul_le_mul ha2.2 hc95
  have hk' : a * c * k ≤ a * c * 32 := Nat.mul_le_mul_left _ hk32
  rcases Nat.lt_or_ge (a * c) 100 with hsmall | hlarge
  · have hb : 14 ≤ mortonBucketsPerBlock k a c o := by
      unfold mortonBucketsPerBlock
      rw [Nat.le_div_iff_mul_le (by omega)]
      omega
    calc 100 ≤ 14 * (2 * 5) := by decide
      _ ≤ mortonBucketsPerBlock k a c o * (a * c) := Nat.mul_le_mul hb hac
  · have hb : 1 ≤ mortonBucketsPerBlock k a c o := by
      unfold mortonBucketsPerBlock
      rw [Nat.le_div_iff_mul_le (by omega)]
      omega
    calc 100 ≤ 1 * (a * c) := by omega
      _ ≤ mortonBucketsPerBlock k a c o * (a * c) := Nat.mul_le_mul_right _ hb

theorem fits_Morton :
    Fits k o ⟨a, mortonBucketsPerBlock k a c o, mortonOtaSize k a (mortonBucketsPerBlock k a c o) o⟩ := by
  have hle := mortonBucketsPerBlock_mul_le k a c o
  have h100 := hundred_le_mortonBucketsPerBlock hk32 ha hc hc95 ho
  have hslot := Nat.mul_le_mul_right k h100
  have hb : 1 ≤ mortonBucketsPerBlock k a c o := Nat.pos_of_ne_zero fun h0 => by
    rw [h0, Nat.zero_mul] at h100
    omega
  unfold mortonOtaSize
  generalize mortonBucketsPerBlock k a c o = b at *
  generalize hX : b * counterSize a = X at *
  have hrough : X + b * o / 100 + k ≤ 512 := by omega
  rw [sub512_eq (by omega)]
  generalize hS : (512 - X - b * o / 100) / k = S at *
  have hdiv := Nat.div_mul_le_self (512 - X - b * o / 100) k
  have hone : 1 * k ≤ S * k := Nat.mul_le_mul_right k (hS ▸ (Nat.one_le_div_iff (by omega)).mpr (by omega))
  rw [hS] at hdiv
  rw [Nat.one_mul] at hone
  refine ⟨?_, ?_, hb, ?_⟩
  · simp only [hX]
    omega
  · simp only [hX]
    split
    · omega
    · rw [sub512_eq (by omega)]
      omega
  · simp only [hX]
    split
    · omega
    · rw [sub512_eq (by omega)]
      omega

end

theorem requireK_ok {k : Nat} (hk : 1 ≤ k) (hk32 : k ≤ 32) : requireK k = .ok () := if_neg (by omega)

/-- Every declared parameter set fits a block. -/
theorem Declared.fits {variant : Variant} {a c o k : Nat} (h : Declared variant a c o) (hk : 1 ≤ k)
    (hk32 : k ≤ 32) :
    ∃ p, new k variant a c o = .ok p ∧ p.associativity ∈ [2, 3, 7, 15] ∧ Fits k o p := by
  have hreq := requireK_ok hk hk32
  cases h with
  | Morton ha hc hc95 ho =>
    refine ⟨_, ?_, ha, fits_Morton hk hk32 ha hc hc95 ho⟩
    simp only [new, optimalAssociativity, optimalBucketsPerBlock, optimalOtaSize, hreq]
    rfl
  | MortonOpt => interval_cases k <;> exact ⟨_, rfl, by decide, by decide, by decide, by decide, by decide⟩

end CuckooFilterParameter

/-! ## Configurations -/

/-- The parameters of the configuration are those of a Morton filter of the header. -/
def Config.Declared (c : Config r) : Prop :=
  1 ≤ c.k ∧ c.k ≤ 32 ∧ ∃ variant a ratio ota, CuckooFilterParameter.Declared variant a ratio ota ∧
    CuckooFilterParameter.new c.k variant a ratio ota = .ok ⟨c.associativity, c.bucketsPerBlock, c.otaSize⟩

namespace Config.Declared
variable {c : Config r} (h : c.Declared)
include h

theorem exists_fits : c.associativity ∈ [2, 3, 7, 15] ∧
    ∃ ota, CuckooFilterParameter.Fits c.k ota ⟨c.associativity, c.bucketsPerBlock, c.otaSize⟩ := by
  obtain ⟨hk, hk32, variant, a, ratio, ota, hd, hnew⟩ := h
  obtain ⟨p, hp, ha, hfits⟩ := hd.fits hk hk32
  obtain rfl : p = _ := Except.ok.inj (hp.symm.trans hnew)
  exact ⟨ha, ota, hfits⟩

theorem params : Morton.Params c := by
  obtain ⟨ha, ota, hfits⟩ := h.exists_fits
  have hbits := Morton.bits_ge r
  have hpow : 2 ^ 32 ≤ 2 ^ r.bits := Nat.pow_le_pow_right (by decide) hbits
  have hrange : 0 < c.associativity ∧ c.associativity < 2 ^ 4 := by
    simp only [List.mem_cons, List.not_mem_nil, or_false] at ha
    omega
  have hcs := Morton.counterSize_le hrange.1 (by decide) hrange.2
  exact ⟨h.1, Nat.le_trans h.2.1 hbits, hrange.1, by omega, by omega, hfits.buckets, hfits.counters⟩

theorem slots_pos : 1 ≤ c.slotsPerBlock := by
  obtain ⟨-, ota, hfits⟩ := h.exists_fits
  rw [h.params.slotsPerBlock_eq]
  exact (Nat.one_le_div_iff h.1).mpr hfits.slots

theorem counterToLoad_pos : 1 ≤ c.counterToLoad := by
  obtain ⟨ha, ota, hfits⟩ := h.exists_fits
  have hbits := Morton.bits_ge r
  have hlt : c.associativity < 2 ^ 4 := by
    simp only [List.mem_cons, List.not_mem_nil, or_false] at ha
    omega
  have hcs := Morton.counterSize_le h.params.assoc_pos (by decide) hlt
  exact Morton.counterToLoad_pos hfits.buckets (Morton.counterSize_pos c) (by omega)

end Config.Declared

end PartitionedFilters.Cuckoo

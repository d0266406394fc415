import PartitionedFilters.Peeling
import PartitionedFilters.Xor
import PartitionedFilters.AddressSound
import Mathlib.Data.Fintype.Basic
import Mathlib.Data.List.NodupEquivFin

/-!
# The set as a hypergraph

A hash is an edge and the slots of a partition are its vertices. When no offset
leaves `T`, the array of `XorSet` holds the degree of every vertex and the
combined hashes of its edges.
-/

namespace PartitionedFilters

theorem RegisterSize.wrap_of_lt {r : RegisterSize} {x : Nat} (h : x < 2 ^ r.bits) : r.wrap x = x :=
  Nat.mod_eq_of_lt h

namespace Xor

open Function (update)
open Peeling (deg label Peels)

variable {r : RegisterSize}

/-! ## Vertices -/

theorem xorRotate_rotateRight (set : Fin 3) (hash : r.T) : xorRotate set (hash.rotateRight (rf set)) = hash := by
  apply BitVec.eq_of_getLsbD_eq
  intro i hi
  have hmod := Nat.mod_lt (rf set) r.bits_pos
  rw [xorRotate, BitVec.getLsbD_rotateLeft, BitVec.getLsbD_rotateRight, BitVec.getLsbD_rotateRight]
  by_cases hlow : i < rf set % r.bits
  · simp [hlow, show ¬ r.bits - rf set % r.bits + i < r.bits - rf set % r.bits by omega,
      show r.bits - rf set % r.bits + i < r.bits by omega]
  · simp [hlow, hi, show i - rf set % r.bits < r.bits - rf set % r.bits by omega,
      show rf set % r.bits + (i - rf set % r.bits) = i by omega]

def nSlots (c : Config r) (e : AddresserEntry r) : Nat := nSets c.variant * e.size.toNat

/-- A table that every offset of a set fits in, two cells a slot. -/
structure Sized (c : Config r) (e : AddresserEntry r) : Prop where
  new : ∃ h, e = .new c.mode h
  pos : 0 < e.size.toNat
  fits : 2 * nSlots c e < 2 ^ r.bits

def Config.vertex (c : Config r) (e : AddresserEntry r) (set : Fin 3) (hash : r.T) : Nat :=
  (xorSegment c.variant hash).toNat * e.size.toNat + (set * e.size.toNat + c.address e set hash)

def Incident (c : Config r) (e : AddresserEntry r) (hash : r.T) (s : Nat) : Prop := ∃ set, c.vertex e set hash = s

instance (c : Config r) (e : AddresserEntry r) (hash : r.T) (s : Nat) : Decidable (Incident c e hash s) :=
  inferInstanceAs (Decidable (∃ set, c.vertex e set hash = s))

theorem incident_iff (c : Config r) (e : AddresserEntry r) (hash : r.T) (s : Nat) :
    Incident c e hash s ↔ s = c.vertex e 0 hash ∨ s = c.vertex e 1 hash ∨ s = c.vertex e 2 hash := by
  unfold Incident
  rw [Fin.exists_fin_succ, Fin.exists_fin_two]
  simp only [eq_comm]
  rfl

theorem incident_vertex {c : Config r} {e : AddresserEntry r} (j : Fin 3) (h : r.T) :
    Incident c e h (c.vertex e j h) :=
  ⟨j, rfl⟩

theorem xorSegment_lt (variant : Variant) (hash : r.T) : (xorSegment variant hash).toNat + 3 ≤ nSets variant := by
  cases variant with
  | Standard => simp [xorSegment, nSets]
  | Fuse =>
    have h : (xorSegment .Fuse hash).toNat < 2 ^ 7 := by
      rw [xorSegment, BitVec.toNat_ushiftRight, Nat.shiftRight_eq_div_pow]
      apply Nat.div_lt_of_lt_mul
      rw [← Nat.pow_add, show r.bits - 7 + 7 = r.bits by cases r <;> rfl]
      exact BitVec.isLt _
    exact Nat.add_le_add_right (Nat.le_of_lt_succ h) 3

variable {c : Config r} {e : AddresserEntry r}

theorem Config.address_lt (he : ∃ h, e = .new c.mode h) (hpos : 0 < e.size.toNat) (set : Fin 3) (hash : r.T) :
    c.address e set hash < e.size.toNat := by
  obtain ⟨h, rfl⟩ := he
  refine AddresserEntry.computeAddress_lt c.mode h (fun h0 => ?_) ?_
  · rw [h0] at hpos
    exact Nat.lt_irrefl _ hpos
  · rw [toNat_extractAddressBits]
    exact Nat.mod_lt _ (by decide)

theorem Config.vertex_lt {set : Fin 3} {hash : r.T} (haddr : c.address e set hash < e.size.toNat) :
    c.vertex e set hash < nSlots c e := by
  have hset : (set : Nat) ≤ 2 := Nat.le_of_lt_succ set.isLt
  calc c.vertex e set hash
      < (xorSegment c.variant hash).toNat * e.size.toNat + (set * e.size.toNat + e.size.toNat) :=
        Nat.add_lt_add_left (Nat.add_lt_add_left haddr _) _
    _ = ((xorSegment c.variant hash).toNat + (set + 1)) * e.size.toNat := by
        rw [Nat.add_mul, Nat.add_mul, Nat.one_mul]
    _ ≤ nSets c.variant * e.size.toNat := Nat.mul_le_mul_right _ (by have := xorSegment_lt c.variant hash; omega)

namespace Sized
variable (hz : Sized c e)
include hz

theorem address_lt (set : Fin 3) (hash : r.T) : c.address e set hash < e.size.toNat :=
  Config.address_lt hz.new hz.pos set hash

theorem vertex_lt (set : Fin 3) (hash : r.T) : c.vertex e set hash < nSlots c e :=
  Config.vertex_lt (hz.address_lt set hash)

theorem segment_eq (hash : r.T) : c.segment e hash = (xorSegment c.variant hash).toNat * e.size.toNat := by
  have h := hz.vertex_lt 0 hash
  have hfits := hz.fits
  unfold Config.vertex at h
  exact RegisterSize.wrap_of_lt (by omega)

theorem vertex_div (set : Fin 3) (hash : r.T) :
    c.vertex e set hash / e.size.toNat = (xorSegment c.variant hash).toNat + set := by
  unfold Config.vertex
  rw [← Nat.add_assoc, ← Nat.add_mul, Nat.mul_comm, Nat.mul_add_div hz.pos,
    Nat.div_eq_of_lt (hz.address_lt set hash), Nat.add_zero]

theorem vertex_inj {set set' : Fin 3} {hash : r.T} (h : c.vertex e set hash = c.vertex e set' hash) :
    set = set' := by
  have hdiv := congrArg (· / e.size.toNat) h
  simp only [hz.vertex_div] at hdiv
  exact Fin.ext (Nat.add_left_cancel hdiv)

/-- In the variant `Standard` the sets have no slot in common. -/
theorem set_eq_of_vertex_eq (hv : c.variant = .Standard) {set set' : Fin 3} {hash hash' : r.T}
    (h : c.vertex e set hash = c.vertex e set' hash') : set = set' := by
  have hdiv := congrArg (· / e.size.toNat) h
  have hseg : ∀ x : r.T, (xorSegment c.variant x).toNat = 0 := fun x => by rw [hv]; rfl
  simp only [hz.vertex_div, hseg, Nat.zero_add] at hdiv
  exact Fin.ext hdiv

end Sized

/-! ## The cells of a set -/

namespace XorSet
variable {x : XorSet r} {s s' : Nat} {v : r.T}

structure For (e : AddresserEntry r) (x : XorSet r) : Prop where
  entry : x.entry = e
  begins : ∀ j, x.begins j = j * e.size.toNat

theorem for_new (hz : Sized c e) (seed : r.T) : For e (.new e seed) := by
  refine ⟨rfl, fun j => RegisterSize.wrap_of_lt ?_⟩
  have h := hz.vertex_lt j 0
  have := hz.fits
  unfold Config.vertex at h
  omega

theorem For.setHash (h : For e x) : For e (x.setHash s v) := ⟨h.entry, h.begins⟩

theorem For.setCounter (h : For e x) : For e (x.setCounter s v) := ⟨h.entry, h.begins⟩

theorem For.slot (h : For e x) (hz : Sized c e) (set : Fin 3) (hash : r.T) :
    x.slot c set hash = c.vertex e set hash := by
  have hlt := hz.vertex_lt set hash
  have hfits := hz.fits
  unfold Config.vertex at hlt
  unfold XorSet.slot Config.vertex
  rw [h.entry, h.begins, hz.segment_eq, RegisterSize.wrap_of_lt (x := _ + c.address e set hash) (by omega),
    RegisterSize.wrap_of_lt (by omega)]

theorem hashAt_eq (hs : 2 * s + 1 < 2 ^ r.bits) : x.hashAt s = x.set (2 * s) := by
  rw [hashAt, RegisterSize.wrap_of_lt (by omega), Nat.mul_comm]

theorem counterAt_eq (hs : 2 * s + 1 < 2 ^ r.bits) : x.counterAt s = x.set (2 * s + 1) := by
  rw [counterAt, RegisterSize.wrap_of_lt (x := s * 2) (by omega), RegisterSize.wrap_of_lt (by omega), Nat.mul_comm]

@[simp] theorem set_setHash : (x.setHash s v).set = update x.set (r.wrap (s * 2)) v := rfl

@[simp] theorem set_setCounter : (x.setCounter s v).set = update x.set (r.wrap (r.wrap (s * 2) + 1)) v := rfl

section
variable (hs : 2 * s + 1 < 2 ^ r.bits) (hs' : 2 * s' + 1 < 2 ^ r.bits)
include hs hs'

theorem hashAt_setHash : (x.setHash s v).hashAt s' = if s' = s then v else x.hashAt s' := by
  rw [hashAt_eq hs', hashAt_eq hs', set_setHash, RegisterSize.wrap_of_lt (by omega), Function.update_apply]
  exact if_congr (by omega) rfl rfl

theorem counterAt_setHash : (x.setHash s v).counterAt s' = x.counterAt s' := by
  rw [counterAt_eq hs', counterAt_eq hs', set_setHash, RegisterSize.wrap_of_lt (by omega), Function.update_apply,
    if_neg (by omega)]

theorem hashAt_setCounter : (x.setCounter s v).hashAt s' = x.hashAt s' := by
  rw [hashAt_eq hs', hashAt_eq hs', set_setCounter, RegisterSize.wrap_of_lt (x := s * 2) (by omega),
    RegisterSize.wrap_of_lt (by omega), Function.update_apply, if_neg (by omega)]

theorem counterAt_setCounter : (x.setCounter s v).counterAt s' = if s' = s then v else x.counterAt s' := by
  rw [counterAt_eq hs', counterAt_eq hs', set_setCounter, RegisterSize.wrap_of_lt (x := s * 2) (by omega),
    RegisterSize.wrap_of_lt (by omega), Function.update_apply]
  exact if_congr (by omega) rfl rfl

end

end XorSet

theorem Sized.index_lt (hz : Sized c e) {s : Nat} (hs : s < nSlots c e) : 2 * s + 1 < 2 ^ r.bits := by
  have := hz.fits
  omega

/-! ## Filling -/

def combined (c : Config r) (e : AddresserEntry r) (R : Multiset r.T) (s : Nat) : r.T :=
  label (Incident c e) (fun x y : r.T => x ^^^ y) 0#r.bits id R s

theorem combined_cons (h : r.T) (R : Multiset r.T) (s : Nat) :
    combined c e (h ::ₘ R) s = if Incident c e h s then h ^^^ combined c e R s else combined c e R s :=
  Peeling.label_cons h R s

theorem combined_erase {h : r.T} {R : Multiset r.T} (hR : h ∈ R) (s : Nat) :
    combined c e (R.erase h) s = if Incident c e h s then combined c e R s ^^^ h else combined c e R s := by
  have := combined_cons (c := c) (e := e) h (R.erase h) s
  rw [Multiset.cons_erase hR] at this
  rw [this]
  split
  · rw [BitVec.xor_comm, ← BitVec.xor_assoc, BitVec.xor_self, BitVec.zero_xor]
  · rfl

theorem exists_combined_of_deg_one {R : Multiset r.T} {s : Nat} (h : deg (Incident c e) R s = 1) :
    combined c e R s ∈ R ∧ Incident c e (combined c e R s) s := by
  obtain ⟨hash, hR, hs, heq⟩ := Peeling.exists_label_of_deg_one (fun x y : r.T => x ^^^ y) 0#r.bits id h
  have : combined c e R s = hash := heq.trans (BitVec.xor_zero)
  rw [this]
  exact ⟨hR, hs⟩

namespace XorSet

/-- Slot `s` holds the degree and the combined hashes of `R`. -/
structure Exact (c : Config r) (e : AddresserEntry r) (x : XorSet r) (R : Multiset r.T) (s : Nat) : Prop where
  counter : x.counterAt s = BitVec.ofNat r.bits (deg (Incident c e) R s)
  hash : x.hashAt s = combined c e R s

variable {x : XorSet r} {s : Nat}

theorem For.add (h : For e x) (set : Fin 3) (hash : r.T) : For e (x.add c set hash) := h.setHash.setCounter

theorem For.add_apply (hx : For e x) (hz : Sized c e) (set : Fin 3) (hash : r.T) (hs : s < nSlots c e) :
    (x.add c set hash).hashAt s = (if s = c.vertex e set hash then x.hashAt s ^^^ hash else x.hashAt s) ∧
      (x.add c set hash).counterAt s = if s = c.vertex e set hash then x.counterAt s + 1 else x.counterAt s := by
  have hv := hz.index_lt (hz.vertex_lt set hash)
  have hi := hz.index_lt hs
  unfold XorSet.add
  simp only [hx.slot hz]
  rw [hashAt_setCounter hv hi, hashAt_setHash hv hi, counterAt_setCounter hv hi, counterAt_setHash hv hi,
    counterAt_setHash hv hv]
  refine ⟨?_, ?_⟩
  · split
    · rename_i h; rw [h]
    · rfl
  · split
    · rename_i h; rw [h]
    · rfl

theorem Exact.add3 (hx : For e x) (hz : Sized c e) {R : Multiset r.T} (hs : s < nSlots c e) (h : Exact c e x R s)
    (hash : r.T) : Exact c e (((x.add c 0 hash).add c 1 hash).add c 2 hash) (hash ::ₘ R) s := by
  have h01 : c.vertex e 0 hash ≠ c.vertex e 1 hash := fun h => absurd (hz.vertex_inj h) (by decide)
  have h02 : c.vertex e 0 hash ≠ c.vertex e 2 hash := fun h => absurd (hz.vertex_inj h) (by decide)
  have h12 : c.vertex e 1 hash ≠ c.vertex e 2 hash := fun h => absurd (hz.vertex_inj h) (by decide)
  have e0 := hx.add_apply hz 0 hash hs
  have hx1 : For e (x.add c 0 hash) := hx.add 0 hash
  have e1 := hx1.add_apply hz 1 hash hs
  have hx2 : For e ((x.add c 0 hash).add c 1 hash) := hx1.add 1 hash
  have e2 := hx2.add_apply hz 2 hash hs
  constructor
  · rw [e2.2, e1.2, e0.2, h.counter, Peeling.deg_cons, BitVec.ofNat_add]
    simp only [incident_iff]
    by_cases hs0 : s = c.vertex e 0 hash
    · rw [hs0]; simp [h01, h02]
    · by_cases hs1 : s = c.vertex e 1 hash
      · rw [hs1]; simp [h01.symm, h12]
      · by_cases hs2 : s = c.vertex e 2 hash
        · rw [hs2]; simp [h02.symm, h12.symm]
        · simp [hs0, hs1, hs2]
  · rw [e2.1, e1.1, e0.1, h.hash, combined_cons]
    simp only [incident_iff]
    by_cases hs0 : s = c.vertex e 0 hash
    · rw [hs0]; simp [h01, h02, BitVec.xor_comm]
    · by_cases hs1 : s = c.vertex e 1 hash
      · rw [hs1]; simp [h01.symm, h12, BitVec.xor_comm]
      · by_cases hs2 : s = c.vertex e 2 hash
        · rw [hs2]; simp [h02.symm, h12.symm, BitVec.xor_comm]
        · simp [hs0, hs1, hs2]

theorem exact_foldl (hz : Sized c e) (l : List r.T) : ∀ {x : XorSet r} {R : Multiset r.T}, For e x →
    (∀ s < nSlots c e, Exact c e x R s) →
    For e (l.foldl (fun x h => ((x.add c 0 h).add c 1 h).add c 2 h) x) ∧
      ∀ s < nSlots c e, Exact c e (l.foldl (fun x h => ((x.add c 0 h).add c 1 h).add c 2 h) x) (↑l + R) s := by
  induction l with
  | nil => exact fun {x R} hx h => ⟨hx, fun s hs => by rw [Multiset.coe_nil, Multiset.zero_add]; exact h s hs⟩
  | cons a l ih =>
    intro x R hx h
    rw [List.foldl_cons, ← Multiset.cons_coe, Multiset.cons_add, ← Multiset.add_cons]
    exact ih (((hx.add 0 a).add 1 a).add 2 a) fun s hs => (h s hs).add3 hx hz hs a

/-- After `fill` every slot describes the hashes of the partition. -/
theorem fill_spec (hz : Sized c e) (seed : r.T) (offset histogram : Nat) (values : Nat → r.T) :
    For e ((XorSet.new e seed).fill c offset histogram values) ∧ ∀ s < nSlots c e,
      Exact c e ((XorSet.new e seed).fill c offset histogram values)
        ↑(hashes c seed offset histogram values) s := by
  have h := exact_foldl hz (hashes c seed offset histogram values) (x := .new e seed) (R := 0) (for_new hz seed)
    fun s _ => ⟨rfl, rfl⟩
  rw [Multiset.add_zero] at h
  exact h

end XorSet

/-! ## Bounds -/

theorem ofNat_inj {w m n : Nat} (hm : m < 2 ^ w) (hn : n < 2 ^ w) :
    BitVec.ofNat w m = BitVec.ofNat w n ↔ m = n := by
  constructor
  · intro h
    have := congrArg BitVec.toNat h
    rwa [BitVec.toNat_ofNat, BitVec.toNat_ofNat, Nat.mod_eq_of_lt hm, Nat.mod_eq_of_lt hn] at this
  · rintro rfl
    rfl

theorem deg_lt_of_card_lt {R : Multiset r.T} (hR : Multiset.card R < 2 ^ r.bits) (s : Nat) :
    deg (Incident c e) R s < 2 ^ r.bits :=
  Nat.lt_of_le_of_lt (Peeling.deg_le_card R s) hR

theorem XorSet.Exact.counter_eq_zero {x : XorSet r} {R : Multiset r.T} {s : Nat} (h : x.Exact c e R s)
    (hR : Multiset.card R < 2 ^ r.bits) : x.counterAt s = 0 ↔ deg (Incident c e) R s = 0 := by
  rw [h.counter]
  exact ofNat_inj (deg_lt_of_card_lt hR s) (Nat.two_pow_pos _)

theorem one_lt_two_pow_bits (r : RegisterSize) : 1 < 2 ^ r.bits := Nat.one_lt_two_pow (Nat.ne_of_gt r.bits_pos)

theorem ofNat_succ_sub_one (w n : Nat) : BitVec.ofNat w (n + 1) - 1 = BitVec.ofNat w n := by
  rw [BitVec.ofNat_add]
  exact BitVec.add_sub_cancel _ _

theorem length_le_of_nodup {l : List Nat} (h : l.Nodup) {a n : Nat} (hl : ∀ x ∈ l, a ≤ x ∧ x < a + n) :
    l.length ≤ n := by
  have hsub : l ⊆ List.range' a n := fun x hx => List.mem_range'_1.mpr (hl x hx)
  calc l.length ≤ (List.range' a n).length := (h.subperm hsub).length_le
    _ = n := List.length_range'

/-- The cells behind those of the first list hold the second one. -/
theorem map_range'_append {α : Type*} {f : Nat → α} {b : Nat} {l new : List α}
    (h : ∀ i < (l ++ new).length, (l ++ new)[i]? = some (f (b + i))) :
    (List.range' (b + l.length) new.length).map f = new := by
  apply List.ext_getElem?
  intro i
  rw [List.getElem?_map]
  rcases Nat.lt_or_ge i new.length with hi | hi
  · have hcell := h (l.length + i) (by rw [List.length_append]; omega)
    rw [List.getElem?_append_right (Nat.le_add_right _ _), Nat.add_sub_cancel_left] at hcell
    rw [List.getElem?_range' hi, hcell, Nat.one_mul, Nat.add_assoc]
    rfl
  · rw [List.getElem?_eq_none hi, List.getElem?_eq_none (by rwa [List.length_range'])]
    rfl

theorem length_log_le (hz : Sized c e) {R R' : Multiset r.T} {log : List (r.T × Nat)}
    (h : Peels (Incident c e) R log R') : log.length ≤ nSlots c e := by
  have := length_le_of_nodup h.nodup (a := 0) (n := nSlots c e) fun s hs => by
    obtain ⟨a, ha, rfl⟩ := List.mem_map.mp hs
    obtain ⟨j, hj⟩ := h.inc_of_mem a ha
    rw [← hj, Nat.zero_add]
    exact ⟨Nat.zero_le _, hz.vertex_lt j a.1⟩
  rwa [List.length_map] at this

end Xor

end PartitionedFilters

import PartitionedFilters.XorFilter
import PartitionedFilters.XorStandardSound

/-!
# The layout of the Xor filter's container

The slots of the partitions follow each other, with one register between packed
fingerprints. Which bit positions fit into `T` is decided by the start of the last
fingerprint that a hash has.
-/

namespace PartitionedFilters.Xor

open Function (update)

variable {r : RegisterSize} {c : Config r}

/-- The slots of a partition and, between packed fingerprints, one register. -/
def regionSize (c : Config r) (e : AddresserEntry r) : Nat :=
  nSlots c e + if c.byteAddressed then 0 else r.bits / 8

def regionStart (c : Config r) (entries : Nat → AddresserEntry r) : Nat → Nat
  | 0 => 0
  | i + 1 => regionStart c entries i + regionSize c (entries i)

def slotsEnd (c : Config r) (entries : Nat → AddresserEntry r) (n : Nat) : Nat :=
  regionStart c entries n - if c.byteAddressed then 0 else r.bits / 8

theorem regionStart_le_slotsEnd (c : Config r) (entries : Nat → AddresserEntry r) {i n : Nat} (h : i < n) :
    regionStart c entries i + nSlots c (entries i) ≤ slotsEnd c entries n := by
  unfold slotsEnd
  induction n with
  | zero => exact absurd h (Nat.not_lt_zero i)
  | succ n ih =>
    rw [regionStart]
    unfold regionSize
    rcases Nat.lt_succ_iff_lt_or_eq.mp h with h | rfl
    · have := ih h
      omega
    · omega

theorem regionStart_le (c : Config r) (entries : Nat → AddresserEntry r) {i n : Nat} (h : i < n) :
    regionStart c entries i + nSlots c (entries i) ≤ regionStart c entries n :=
  Nat.le_trans (regionStart_le_slotsEnd c entries h) (Nat.sub_le _ _)

def entryOf (c : Config r) (histogram : Nat) : AddresserEntry r := .new c.mode (nBlocks c histogram)

namespace Filter

def firstSlot (c : Config r) (histogram : Nat → Nat) (i : Nat) : Nat :=
  regionStart c (fun i => entryOf c (histogram i)) i

def lastSlot (c : Config r) (n : Nat) (histogram : Nat → Nat) : Nat :=
  slotsEnd c (fun i => entryOf c (histogram i)) n

end Filter

open Filter (firstSlot lastSlot)

namespace XorContainer

theorem layout_succ (c : Config r) (entries : Nat → AddresserEntry r) (n : Nat) :
    layout c entries (n + 1) = layoutStep c entries (layout c entries n) n := by
  unfold layout
  rw [List.range_succ, List.foldl_append]
  rfl

theorem layout_congr (c : Config r) {entries entries' : Nat → AddresserEntry r} {n : Nat}
    (h : ∀ i < n, entries i = entries' i) : layout c entries n = layout c entries' n := by
  induction n with
  | zero => rfl
  | succ n ih =>
    rw [layout_succ, layout_succ, ih fun i hi => h i (Nat.lt_succ_of_lt hi)]
    unfold layoutStep
    rw [h n (Nat.lt_succ_self n)]

section
variable {c : Config r} {entries : Nat → AddresserEntry r} {s : (Fin 3 → Nat → Nat) × Nat} {i : Nat}
  (hfit : s.2 + regionSize c (entries i) < 2 ^ r.bits)
include hfit

theorem sets_lt_of_region :
    s.2 + (entries i).size.toNat + (entries i).size.toNat + (entries i).size.toNat < 2 ^ r.bits := by
  have hsets : (entries i).size.toNat + (entries i).size.toNat + (entries i).size.toNat ≤ nSlots c (entries i) := by
    unfold nSlots nSets
    cases c.variant <;> simp only [fuseSegments] <;> omega
  rw [regionSize] at hfit
  omega

theorem layoutStep_begin (j : Fin 3) :
    (layoutStep c entries s i).1 j = update (s.1 j) (c.cell i) (s.2 + j * (entries i).size.toNat) := by
  have hsets := sets_lt_of_region hfit
  unfold layoutStep
  simp only
  rw [RegisterSize.wrap_of_lt (x := s.2 + (entries i).size.toNat) (by omega),
    RegisterSize.wrap_of_lt (x := s.2 + (entries i).size.toNat + (entries i).size.toNat) (by omega)]
  congr 1
  rcases (⟨by decide, by decide, by decide⟩ : Turn 0 1 2).all j with rfl | rfl | rfl
  · simp
  · simp
  · simp only [Fin.val_two]
    omega

theorem layoutStep_end : (layoutStep c entries s i).2 = s.2 + regionSize c (entries i) := by
  have hsets := sets_lt_of_region hfit
  have hregion : regionSize c (entries i) = nSlots c (entries i) + if c.byteAddressed then 0 else r.bits / 8 := rfl
  -- the end of the slots, before the register between packed fingerprints
  have hlast : ∀ {last : Nat}, last = s.2 + nSlots c (entries i) →
      (if c.byteAddressed then last else r.wrap (last + r.bits / 8)) = s.2 + regionSize c (entries i) := by
    rintro last rfl
    rw [hregion] at hfit ⊢
    split
    · omega
    · rename_i hb
      rw [if_neg hb, ← Nat.add_assoc] at hfit
      rw [RegisterSize.wrap_of_lt hfit, Nat.add_assoc]
  unfold layoutStep
  simp only
  rw [RegisterSize.wrap_of_lt (x := s.2 + (entries i).size.toNat) (by omega),
    RegisterSize.wrap_of_lt (x := s.2 + (entries i).size.toNat + (entries i).size.toNat) (by omega),
    RegisterSize.wrap_of_lt hsets]
  refine hlast ?_
  unfold nSlots
  cases hv : c.variant with
  | Standard =>
    change s.2 + (entries i).size.toNat + (entries i).size.toNat + (entries i).size.toNat =
      s.2 + 3 * (entries i).size.toNat
    omega
  | Fuse =>
    have hslots : nSlots c (entries i) = (fuseSegments + 2) * (entries i).size.toNat := by
      unfold nSlots
      rw [hv]
      rfl
    simp only [nSets, fuseSegments] at hslots ⊢
    rw [RegisterSize.wrap_of_lt (by omega)]
    omega

end

theorem layout_eq (c : Config r) (entries : Nat → AddresserEntry r) {n : Nat}
    (hn : c.partitioning = .Disabled → n ≤ 1) (hfit : regionStart c entries n < 2 ^ r.bits) :
    (layout c entries n).2 = regionStart c entries n ∧
      ∀ i < n, ∀ j, (layout c entries n).1 j i = regionStart c entries i + j * (entries i).size.toNat := by
  induction n with
  | zero => exact ⟨rfl, fun i hi => absurd hi (Nat.not_lt_zero i)⟩
  | succ n ih =>
    rw [regionStart] at hfit ⊢
    obtain ⟨hend, hbegin⟩ := ih (fun h => Nat.le_of_succ_le (hn h)) (by omega)
    have hcell : c.cell n = n := by
      unfold Config.cell
      cases hp : c.partitioning with
      | Enabled => rfl
      | Disabled => have := hn hp; show 0 = n; omega
    rw [← hend] at hfit ⊢
    rw [layout_succ]
    refine ⟨layoutStep_end hfit, fun i hi j => ?_⟩
    rw [layoutStep_begin hfit, hcell]
    rcases Nat.lt_succ_iff_lt_or_eq.mp hi with hlt | rfl
    · rw [Function.update_of_ne (Nat.ne_of_lt hlt)]
      exact hbegin i hlt j
    · rw [Function.update_self, hend]

end XorContainer

theorem regionStart_congr (entries entries' : Nat → AddresserEntry r) {n : Nat}
    (h : ∀ i < n, entries i = entries' i) :
    regionStart c entries n = regionStart c entries' n := by
  induction n with
  | zero => rfl
  | succ n ih => rw [regionStart, regionStart, ih fun i hi => h i (Nat.lt_succ_of_lt hi), h n (Nat.lt_succ_self n)]

/-! ## Addresses -/

variable {n : Nat} {histogram : Nat → Nat}

def addressOf (c : Config r) (x : XorContainer r) (i : Nat) (set : Fin 3) (hash : r.T) : Nat :=
  r.wrap (c.segment (x.entries i) hash +
    XorContainer.computeAddress c (x.entries i) set hash (x.offsets set (c.cell i)))

theorem cell_eq (hn : c.partitioning = .Disabled → n ≤ 1) {i : Nat} (hi : i < n) : c.cell i = i := by
  unfold Config.cell
  cases hp : c.partitioning with
  | Enabled => rfl
  | Disabled =>
    have := hn hp
    show 0 = i
    omega

section
variable (htotal : firstSlot c histogram n < 2 ^ r.bits) {i : Nat} (hi : i < n)
  (hpos : 0 < (entryOf c (histogram i)).size.toNat)
include hi hpos

theorem vertex_lt_lastSlot (set : Fin 3) (hash : r.T) :
    firstSlot c histogram i + c.vertex (entryOf c (histogram i)) set hash < lastSlot c n histogram :=
  Nat.lt_of_lt_of_le
    (Nat.add_lt_add_left (Config.vertex_lt (Config.address_lt ⟨_, rfl⟩ hpos set hash)) _)
    (regionStart_le_slotsEnd c (fun i => entryOf c (histogram i)) hi)

include htotal

theorem addressOf_eq_vertex (hn : c.partitioning = .Disabled → n ≤ 1) (set : Fin 3) (hash : r.T) :
    addressOf c (.new c n histogram) i set hash =
      firstSlot c histogram i + c.vertex (entryOf c (histogram i)) set hash := by
  have hlt : firstSlot c histogram i + c.vertex (entryOf c (histogram i)) set hash < 2 ^ r.bits :=
    Nat.lt_of_lt_of_le (vertex_lt_lastSlot hi hpos set hash) (Nat.le_trans (Nat.sub_le _ _) (Nat.le_of_lt htotal))
  have hoffset : (XorContainer.new c n histogram).offsets set (c.cell i) =
      firstSlot c histogram i + set * (entryOf c (histogram i)).size.toNat := by
    rw [cell_eq hn hi]
    exact (XorContainer.layout_eq c _ hn htotal).2 i hi set
  unfold addressOf XorContainer.computeAddress Config.segment
  rw [hoffset]
  unfold Config.vertex at hlt ⊢
  show r.wrap (r.wrap (_ * (entryOf c (histogram i)).size.toNat) +
      r.wrap (_ + c.address (entryOf c (histogram i)) set hash)) = _
  rw [RegisterSize.wrap_of_lt (x := _ * _) (by omega),
    RegisterSize.wrap_of_lt (x := _ + c.address _ set hash) (by omega), RegisterSize.wrap_of_lt (by omega)]
  omega

end

theorem addressOf_congr {histogram' : Nat → Nat} (h : ∀ i < n, histogram i = histogram' i) {i : Nat} (hi : i < n)
    (set : Fin 3) (hash : r.T) :
    addressOf c (.new c n histogram) i set hash = addressOf c (.new c n histogram') i set hash := by
  have hlayout : XorContainer.layout c (fun i => entryOf c (histogram i)) n =
      XorContainer.layout c (fun i => entryOf c (histogram' i)) n :=
    XorContainer.layout_congr c fun i hi => by rw [h i hi]
  have hoffset : (XorContainer.new c n histogram).offsets = (XorContainer.new c n histogram').offsets :=
    congrArg Prod.fst hlayout
  have hentry : (XorContainer.new c n histogram).entries i = (XorContainer.new c n histogram').entries i :=
    congrArg (entryOf c) (h i hi)
  unfold addressOf
  rw [hoffset, hentry]

/-- In the variant `Standard` the last slot of a partition belongs to some hash. -/
theorem exists_vertex_last (hv : c.variant = .Standard) {h : r.T}
    (hpos : 0 < (AddresserEntry.new c.mode h).size.toNat)
    (h32 : (AddresserEntry.new c.mode h).size.toNat < 2 ^ 32) :
    ∃ hash, c.vertex (.new c.mode h) 2 hash + 1 = nSlots c (.new c.mode h) := by
  obtain ⟨x, hx, hlast⟩ := AddresserEntry.exists_computeAddress_last c.mode h (fun h0 => by
    rw [h0] at hpos
    exact Nat.lt_irrefl _ hpos) h32
  obtain ⟨hash, hrot⟩ : ∃ hash : r.T, xorRotate 2 hash = x := ⟨x.rotateRight (rf 2), xorRotate_rotateRight 2 x⟩
  have hextract : extractAddressBits x = x :=
    BitVec.eq_of_toNat_eq (by rw [toNat_extractAddressBits, Nat.mod_eq_of_lt hx])
  refine ⟨hash, ?_⟩
  rw [Standard.vertex_Standard hv, Config.address, hrot, hextract, nSlots, hv]
  show (2 : Nat) * _ + _ + 1 = 3 * _
  omega

theorem lastSlot_add (hn : 0 < n) (c : Config r) (histogram : Nat → Nat) :
    lastSlot c n histogram + (if c.byteAddressed then 0 else r.bits / 8) = firstSlot c histogram n := by
  obtain ⟨n, rfl⟩ := Nat.exists_eq_succ_of_ne_zero (Nat.ne_of_gt hn)
  exact Nat.sub_add_cancel (Nat.le_trans (Nat.le_add_left _ _) (Nat.le_add_left _ _))

theorem exists_vertex_lastSlot (hv : c.variant = .Standard) (hn : 0 < n)
    (hpos : 0 < (entryOf c (histogram (n - 1))).size.toNat)
    (h32 : (entryOf c (histogram (n - 1))).size.toNat < 2 ^ 32) :
    ∃ hash, firstSlot c histogram (n - 1) + c.vertex (entryOf c (histogram (n - 1))) 2 hash + 1 =
      lastSlot c n histogram := by
  obtain ⟨hash, hlast⟩ := exists_vertex_last hv hpos h32
  have hadd := lastSlot_add hn c histogram
  have hregion : firstSlot c histogram n = firstSlot c histogram (n - 1) +
      (nSlots c (entryOf c (histogram (n - 1))) + if c.byteAddressed then 0 else r.bits / 8) := by
    obtain ⟨n, rfl⟩ := Nat.exists_eq_succ_of_ne_zero (Nat.ne_of_gt hn)
    rfl
  refine ⟨hash, ?_⟩
  unfold entryOf at hregion ⊢
  omega

/-! ## Positions -/

/-- The position of the last fingerprint fits. In the variant `Fuse` it may belong to no hash. -/
def PositionsFit (c : Config r) (avx : Bool) (n : Nat) (histogram : Nat → Nat) : Prop :=
  (avx = false ∧ c.byteAddressed = true) ∨
    if c.variant = .Standard ∧
        ∀ i < n, 0 < (entryOf c (histogram i)).size.toNat ∧ (entryOf c (histogram i)).size.toNat < 2 ^ 32 then
      n = 0 ∨ (lastSlot c n histogram - 1) * c.k < 2 ^ r.bits
    else ∀ i < n, ∀ set hash, addressOf c (.new c n histogram) i set hash * c.k < 2 ^ r.bits

theorem PositionsFit.lt {avx : Bool} (h : PositionsFit c avx n histogram)
    (hbyte : ¬(avx = false ∧ c.byteAddressed = true)) (hn : c.partitioning = .Disabled → n ≤ 1)
    (htotal : firstSlot c histogram n < 2 ^ r.bits) {i : Nat} (hi : i < n)
    (set : Fin 3) (hash : r.T) : addressOf c (.new c n histogram) i set hash * c.k < 2 ^ r.bits := by
  have hfit := h.resolve_left hbyte
  split at hfit
  · rename_i hcase
    have hpos := (hcase.2 i hi).1
    have hlt := vertex_lt_lastSlot hi hpos set hash
    rw [addressOf_eq_vertex htotal hi hpos hn]
    exact Nat.lt_of_le_of_lt (Nat.mul_le_mul_right _ (Nat.le_sub_one_of_lt hlt)) (hfit.resolve_left (by omega))
  · exact hfit i hi set hash

theorem PositionsFit.congr {avx : Bool} {histogram' : Nat → Nat} (heq : ∀ i < n, histogram i = histogram' i)
    (h : PositionsFit c avx n histogram) : PositionsFit c avx n histogram' := by
  have hlast : lastSlot c n histogram = lastSlot c n histogram' := by
    unfold lastSlot slotsEnd
    rw [regionStart_congr _ (fun i => entryOf c (histogram' i)) fun i hi => congrArg (entryOf c) (heq i hi)]
  unfold PositionsFit at h ⊢
  refine h.imp_right fun h => ?_
  split at h
  · rename_i hcase
    rw [if_pos ⟨hcase.1, fun i hi => heq i hi ▸ hcase.2 i hi⟩, ← hlast]
    exact h
  · rename_i hcase
    rw [if_neg fun hcase' => hcase ⟨hcase'.1, fun i hi => (heq i hi).symm ▸ hcase'.2 i hi⟩]
    exact fun i hi set hash => addressOf_congr heq hi set hash ▸ h i hi set hash

/-- The tables and their layout fit into `T`. -/
def LayoutFits (c : Config r) (n : Nat) (histogram : Nat → Nat) : Prop :=
  (∀ i < n, 0 < (entryOf c (histogram i)).size.toNat ∧ 2 * nSlots c (entryOf c (histogram i)) < 2 ^ r.bits) ∧
    firstSlot c histogram n < 2 ^ r.bits ∧ PositionsFit c false n histogram

theorem LayoutFits.congr {histogram' : Nat → Nat} (h : ∀ i < n, histogram i = histogram' i)
    (hf : LayoutFits c n histogram) : LayoutFits c n histogram' := by
  obtain ⟨hsize, htotal, hposition⟩ := hf
  refine ⟨fun i hi => by rw [← h i hi]; exact hsize i hi, ?_, hposition.congr h⟩
  unfold firstSlot at htotal ⊢
  rwa [← regionStart_congr _ _ fun i hi => congrArg (entryOf c) (h i hi)]

end PartitionedFilters.Xor

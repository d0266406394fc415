import PartitionedFilters.AddressMortonSound
import PartitionedFilters.AddressSimd

/-!
# The entry points of an addresser agree

In the modes other than `Morton` all copies compute the same value. In the mode
`Morton` the gathering copy and the vectors have the sign of the wrap-around the
other way.
-/

namespace PartitionedFilters

variable {r : RegisterSize} {n : Nat}

/-- The address of the mode `Morton` before the size is added or subtracted. -/
def mortonAlternate (address signature : r.T) : r.T :=
  address + mortonOffset signature * (-1 + (address &&& 1) <<< 1)

theorem T_add_eq_sub_iff (x s : r.T) : x + s = x - s ↔ s + s = 0 := by
  rw [eq_sub_iff_add_eq, add_assoc, add_eq_left]

theorem sign_of_odd {address : r.T} (h : address &&& 1 = 1) (s : r.T) :
    s * (-1 + (if address &&& 1 = 1 then (1 : r.T) else 0) <<< 1) = s := by
  rw [if_pos h, one_shiftLeft, T_mul_one]

theorem sign_of_even {address : r.T} (h : address &&& 1 ≠ 1) (s : r.T) :
    s * (-1 + (if address &&& 1 = 1 then (1 : r.T) else 0) <<< 1) = -s := by
  rw [if_neg h, zero_shiftLeft, T_mul_neg_one]

theorem mul_truth (x : r.T) (b : Bool) : x * BitVec.ofNat r.bits b.toNat = if b then x else 0 := by
  cases b
  · exact BitVec.mul_zero
  · exact T_mul_one x

namespace AddresserEntry

/-- The alternative address of the mode `Morton`, case by case. -/
theorem computeAlternativeAddress_Morton (e : AddresserEntry r) (address signature : r.T) :
    e.computeAlternativeAddress .Morton address signature =
      if e.size.ule (mortonAlternate address signature) then
        if address &&& 1 = 1 then mortonAlternate address signature - e.size
        else mortonAlternate address signature + e.size
      else mortonAlternate address signature := by
  show mortonAlternate address signature - e.size * (-1 + (if address &&& 1 = 1 then (1 : r.T) else 0) <<< 1) *
    BitVec.ofNat r.bits (e.size.ule (mortonAlternate address signature)).toNat = _
  rw [mul_truth]
  split
  · by_cases h : address &&& 1 = 1
    · rw [sign_of_odd h, if_pos h]
    · rw [sign_of_even h, if_neg h, sub_neg_eq_add]
  · exact sub_zero _

end AddresserEntry

namespace Addresser

variable (ad : Addresser r)

theorem computeAlternativeAddressGather_Morton (index address signature : r.T) :
    computeAlternativeAddressGather .Morton ad index address signature =
      if (ad.broadcast index.toNat).size.ule (mortonAlternate address signature) then
        if address &&& 1 = 1 then mortonAlternate address signature + (ad.broadcast index.toNat).size
        else mortonAlternate address signature - (ad.broadcast index.toNat).size
      else mortonAlternate address signature := by
  show mortonAlternate address signature + (ad.broadcast index.toNat).size *
    (-1 + (if address &&& 1 = 1 then (1 : r.T) else 0) <<< 1) *
      BitVec.ofNat r.bits ((ad.broadcast index.toNat).size.ule (mortonAlternate address signature)).toNat = _
  rw [mul_truth]
  split
  · by_cases h : address &&& 1 = 1
    · rw [sign_of_odd h, if_pos h]
    · rw [sign_of_even h, if_neg h, sub_eq_add_neg]
  · exact add_zero _

/-- The scalar copies agree where the size is not needed, or has the same effect with either sign. -/
theorem gather_eq_vertical_iff (index address signature : r.T) :
    computeAlternativeAddressGather .Morton ad index address signature =
      computeAlternativeAddressVertical .Morton ad index.toNat address signature ↔
      (mortonAlternate address signature).toNat < (ad.broadcast index.toNat).size.toNat ∨
        (ad.broadcast index.toNat).size + (ad.broadcast index.toNat).size = 0 := by
  rw [computeAlternativeAddressGather_Morton, computeAlternativeAddressVertical,
    AddresserEntry.computeAlternativeAddress_Morton]
  by_cases hlt : (mortonAlternate address signature).toNat < (ad.broadcast index.toNat).size.toNat
  · have hule : ¬(ad.broadcast index.toNat).size.ule (mortonAlternate address signature) = true := by
      simpa [BitVec.ule_eq_decide] using hlt
    rw [if_neg hule, if_neg hule]
    exact iff_of_true rfl (.inl hlt)
  · have hule : (ad.broadcast index.toNat).size.ule (mortonAlternate address signature) = true := by
      simpa [BitVec.ule_eq_decide] using hlt
    rw [if_pos hule, if_pos hule, or_iff_right hlt]
    split
    · exact T_add_eq_sub_iff _ _
    · exact eq_comm.trans (T_add_eq_sub_iff _ _)

/-! ## Lanes -/

namespace Simd

variable {atLeast : Lanes r n → Lanes r n → LaneMask n} {e : Fin n → AddresserEntry r}

theorem computeAddress_lane (mode : AddressingMode) (addresses : Lanes r n) (l : Fin n) :
    computeAddress mode e addresses l = (e l).computeAddress mode (addresses l) := by
  cases mode <;> rfl

theorem addMask_ult (u s : Lanes r n) (q : LaneMask n) (l : Fin n) :
    Lanes.addMask u s q l = u l + s l * BitVec.ofNat r.bits (q l).toNat := by
  rw [Lanes.addMask, mul_truth]
  split
  · rfl
  · exact (add_zero _).symm

theorem computeAlternativeAddress_lane {mode : AddressingMode} (hmode : mode ≠ .Morton)
    (address signature : Lanes r n) (l : Fin n) : computeAlternativeAddress atLeast mode e address signature l =
      (e l).computeAlternativeAddress mode (address l) (signature l) := by
  cases mode with
  | PowerOfTwo => rfl
  | Vacuum => rfl
  | Magic =>
    simp only [computeAlternativeAddress, addMask_ult]
    rfl
  | Lemire =>
    simp only [computeAlternativeAddress, addMask_ult]
    rfl
  | Morton => exact absurd rfl hmode

/-- Lane `l` does not need the size, or the size has the same effect with either sign. -/
def Straight (e : Fin n → AddresserEntry r) (address signature : Lanes r n) (l : Fin n) : Prop :=
  (mortonAlternate (address l) (signature l)).toNat < (e l).size.toNat ∨
    (e l).size + (e l).size = 0 ∧ (address l &&& 1 = 1 ∨ l.val = 0 ∧ ∀ l', ¬address l' &&& 1 = 1)

theorem computeAlternativeAddress_Morton_iff (hat : ∀ u v l, atLeast u v l = (v l).ule (u l))
    (address signature : Lanes r n) {l : Fin n} (hsize : (e l).size ≠ 0) :
    computeAlternativeAddress atLeast .Morton e address signature l =
      (e l).computeAlternativeAddress .Morton (address l) (signature l) ↔ Straight e address signature l := by
  have hall : ((List.finRange n).all fun l' => !(address l' &&& 1 == 1)) = true ↔ ∀ l', ¬address l' &&& 1 = 1 := by
    simp
  have hlane : computeAlternativeAddress atLeast .Morton e address signature l =
      let alternate := mortonAlternate (address l) (signature l)
      let first :=
        if (address l &&& 1 == 1 && (e l).size.ule alternate) = true then alternate + (e l).size else alternate
      if (l.val == 0 && ((List.finRange n).all fun l' => !(address l' &&& 1 == 1)) && (e l).size.ule first) = true
      then first + (e l).size * -1 else first := by
    simp only [computeAlternativeAddress, Lanes.addMask, hat]
    rfl
  rw [hlane, AddresserEntry.computeAlternativeAddress_Morton, Straight]
  generalize mortonAlternate (address l) (signature l) = alternate
  generalize (e l).size = size at hsize ⊢
  simp only
  by_cases hlt : alternate.toNat < size.toNat
  · have hule : size.ule alternate = false := by simpa [BitVec.ule_eq_decide] using hlt
    simp [hule, hlt]
  · have hule : size.ule alternate = true := by simpa [BitVec.ule_eq_decide] using hlt
    rw [or_iff_right hlt, hule]
    by_cases hodd : address l &&& 1 = 1
    · have hnone : ¬((List.finRange n).all fun l' => !(address l' &&& 1 == 1)) = true := fun h => hall.mp h l hodd
      simp only [hodd, beq_self_eq_true, Bool.and_self, if_true, true_or, and_true, hnone,
        Bool.and_false, Bool.false_and]
      exact T_add_eq_sub_iff _ _
    · have hfirst : (address l &&& 1 == 1) = false := beq_eq_false_iff_ne.mpr hodd
      simp only [hfirst, hule, Bool.and_true, if_true, hodd, false_or, if_false, Bool.false_eq_true]
      by_cases hkept : l.val = 0 ∧ ∀ l', ¬address l' &&& 1 = 1
      · rw [if_pos (by rw [hall.mpr hkept.2, hkept.1]; rfl), T_mul_neg_one, ← sub_eq_add_neg]
        exact (eq_comm.trans (T_add_eq_sub_iff _ _)).trans (and_iff_left hkept).symm
      · rw [if_neg (by simpa using hkept)]
        exact iff_of_false (fun h => hsize (add_eq_left.mp h.symm)) fun h => hkept h.2

theorem gather_eq_some {index : Lanes r n} (hindex : ∀ l, (index l).toNat < 2 ^ (r.bits - 1)) (mask : LaneMask n) :
    gather ad index mask = some fun l => if mask l then ad.broadcast (index l).toNat else { size := 0 } :=
  if_neg fun ⟨l, _, hl⟩ => Nat.not_lt.mpr hl (hindex l)

theorem index_lt_of_gather {index : Lanes r n} {mask : LaneMask n} (h : gather ad index mask = some e) {l : Fin n}
    (hl : mask l = true) : (index l).toNat < 2 ^ (r.bits - 1) := by
  by_contra hge
  rw [gather, if_pos ⟨l, hl, Nat.le_of_not_lt hge⟩] at h
  exact absurd h (by simp)

end Simd

/-! ## All entry points -/

/-- All versions of both functions agree, where lane `l` works on the partition `index l`. -/
structure EntryPointsAgree (atLeast : Lanes r n → Lanes r n → LaneMask n) (mode : AddressingMode) (ad : Addresser r)
    (index addresses address signature : Lanes r n) : Prop where
  scalarAddress : ∀ l,
    computeAddressGather mode ad (index l) (addresses l) =
      computeAddressVertical mode ad (index l).toNat (addresses l) ∧
    computeAddressHorizontal mode ad (index l).toNat (addresses l) =
      computeAddressVertical mode ad (index l).toNat (addresses l)
  scalarAlternative : ∀ l,
    computeAlternativeAddressGather mode ad (index l) (address l) (signature l) =
      computeAlternativeAddressVertical mode ad (index l).toNat (address l) (signature l) ∧
    computeAlternativeAddressHorizontal mode ad (index l).toNat (address l) (signature l) =
      computeAlternativeAddressVertical mode ad (index l).toNat (address l) (signature l)
  gather : ∀ mask, ∃ e, Simd.gather ad index mask = some e ∧ ∀ l, mask l = true →
    Simd.computeAddress mode e addresses l = computeAddressVertical mode ad (index l).toNat (addresses l) ∧
    Simd.computeAlternativeAddress atLeast mode e address signature l =
      computeAlternativeAddressVertical mode ad (index l).toNat (address l) (signature l)
  vertical : ∀ i, (∀ l, (index l).toNat = i) → ∀ l,
    Simd.computeAddress mode (Simd.broadcast ad i) addresses l = computeAddressVertical mode ad i (addresses l) ∧
    Simd.computeAlternativeAddress atLeast mode (Simd.broadcast ad i) address signature l =
      computeAlternativeAddressVertical mode ad i (address l) (signature l)
  horizontal : ∀ i, n ∣ i → (∀ l, (index l).toNat = i + l) → ∃ e, Simd.load ad i = some e ∧ ∀ l,
    Simd.computeAddress mode e addresses l = computeAddressVertical mode ad (i + l) (addresses l) ∧
    Simd.computeAlternativeAddress atLeast mode e address signature l =
      computeAlternativeAddressVertical mode ad (i + l) (address l) (signature l)

section
variable {atLeast : Lanes r n → Lanes r n → LaneMask n} {mode : AddressingMode} {ad : Addresser r}
  {index addresses address signature : Lanes r n}

theorem agree_of_alternative (hindex : ∀ l, (index l).toNat < 2 ^ (r.bits - 1))
    (hscalar : ∀ l, computeAlternativeAddressGather mode ad (index l) (address l) (signature l) =
      computeAlternativeAddressVertical mode ad (index l).toNat (address l) (signature l))
    (hlanes : ∀ (e : Fin n → AddresserEntry r) l, e l = ad.broadcast (index l).toNat →
      Simd.computeAlternativeAddress atLeast mode e address signature l =
        computeAlternativeAddressVertical mode ad (index l).toNat (address l) (signature l)) :
    EntryPointsAgree atLeast mode ad index addresses address signature where
  scalarAddress l := ⟨rfl, congrArg (fun e => e.computeAddress mode (addresses l)) (load_eq_broadcast ad _)⟩
  scalarAlternative l := ⟨hscalar l,
    congrArg (fun e => e.computeAlternativeAddress mode (address l) (signature l)) (load_eq_broadcast ad _)⟩
  gather mask := by
    refine ⟨_, Simd.gather_eq_some ad hindex mask, fun l hl => ⟨?_, hlanes _ l (if_pos hl)⟩⟩
    rw [Simd.computeAddress_lane, if_pos hl]
    rfl
  vertical i hi l := by
    rw [Simd.computeAddress_lane, ← hi l]
    exact ⟨rfl, hlanes _ l rfl⟩
  horizontal i haligned hi := by
    refine ⟨fun l => ad.broadcast (i + l), if_pos haligned, fun l => ?_⟩
    rw [Simd.computeAddress_lane, ← hi l]
    exact ⟨rfl, hlanes _ l (congrArg ad.broadcast (hi l).symm)⟩

/-- All versions agree, except for wrapped addresses of the mode `Morton` and gathers behind the signed indices. -/
theorem entry_points_agree_iff (hat : ∀ u v l, atLeast u v l = (v l).ule (u l))
    (haddress : ∀ l, (address l).toNat < ad.getSize (index l).toNat) :
    EntryPointsAgree atLeast mode ad index addresses address signature ↔
      (∀ l, (index l).toNat < 2 ^ (r.bits - 1)) ∧
        (mode = .Morton → ∀ l, Simd.Straight (fun l => ad.broadcast (index l).toNat) address signature l) := by
  have hsize : ∀ l, (ad.broadcast (index l).toNat).size ≠ 0 := by
    intro l h
    have hlt := haddress l
    rw [getSize, h] at hlt
    exact Nat.not_lt_zero _ hlt
  constructor
  · intro h
    obtain ⟨e, he, hall⟩ := h.gather fun _ => true
    have hindex : ∀ l, (index l).toNat < 2 ^ (r.bits - 1) := fun l => Simd.index_lt_of_gather ad he rfl
    refine ⟨hindex, ?_⟩
    rintro rfl l
    rw [Simd.gather_eq_some ad hindex] at he
    obtain rfl := Option.some.inj he
    exact (Simd.computeAlternativeAddress_Morton_iff hat address signature (hsize l)).mp (hall l rfl).2
  · rintro ⟨hindex, hstraight⟩
    by_cases hmode : mode = .Morton
    · subst hmode
      refine agree_of_alternative hindex (fun l => ?_) fun e l he => ?_
      · refine (gather_eq_vertical_iff ad (index l) (address l) (signature l)).mpr ?_
        exact (hstraight rfl l).imp_right And.left
      · have hs := hstraight rfl l
        refine ((Simd.computeAlternativeAddress_Morton_iff hat address signature (he ▸ hsize l)).mpr ?_).trans ?_
        · rwa [Simd.Straight, he]
        · rw [he]
          rfl
    · refine agree_of_alternative hindex (fun l => ?_) fun e l he => ?_
      · cases mode with
        | Morton => exact absurd rfl hmode
        | _ => rfl
      · rw [Simd.computeAlternativeAddress_lane hmode, he]
        rfl

/-- Eight partitions of eight buckets in the mode `Vacuum`, one in each lane. -/
theorem entry_points_agree_lanes : EntryPointsAgree (n := 8) (fun u v l => (v l).ule (u l)) .Vacuum
    (new .Vacuum (List.replicate 8 (8 : RegisterSize._32bit.T))) (fun l => BitVec.ofNat 32 l)
      (fun _ => 7) (fun _ => 5)
    (fun _ => 3) :=
  (entry_points_agree_iff (fun _ _ _ => rfl) (by decide +kernel)).mpr ⟨by decide, nofun⟩

/-- Fingerprint 0 leads from bucket 0 of four to bucket 3; the gathering version returns `2 ^ 32 - 5`. -/
theorem gather_adds_size :
    computeAlternativeAddressVertical .Morton (new .Morton [(4 : RegisterSize._32bit.T)]) 0 0 0 = 3 ∧
    computeAlternativeAddressGather .Morton (new .Morton [(4 : RegisterSize._32bit.T)]) 0 0 0 = 0xfffffffb ∧
    ¬EntryPointsAgree (n := 1) (fun u v l => (v l).ule (u l)) .Morton (new .Morton [(4 : RegisterSize._32bit.T)])
      (fun _ => 0) (fun _ => 0) (fun _ => 0) fun _ => 0 := by
  refine ⟨by decide, by decide, fun h => ?_⟩
  exact absurd (h.scalarAlternative 0).1 (by decide)

end

/-! ## The mode `Magic` -/

/-- Every request finds a cheap divisor, and every version of the address is the remainder by it. -/
theorem magic_modulo {histogram : List r.T} {i : Nat} (hi : i < histogram.length)
    (h32 : histogram[i].toNat < 2 ^ 32) :
    ∃ d, histogram[i].toNat ≤ d ∧ d < 2 ^ 32 ∧ LibdivideU32.cheapGen histogram[i].toNat = some (.internalGen d) ∧
      (LibdivideU32.internalGen d).magic ≠ 0 ∧ (LibdivideU32.internalGen d).more &&& LibdivideU32.addMarker = 0 ∧
      (LibdivideU32.internalGen d).recover = d ∧
      getSize (new .Magic histogram) i = d ∧
      (∀ x : r.T, x.toNat < 2 ^ 32 →
        (computeAddressVertical .Magic (new .Magic histogram) i x).toNat = x.toNat % d ∧
        (computeAddressHorizontal .Magic (new .Magic histogram) i x).toNat = x.toNat % d ∧
        ∀ index : r.T, index.toNat = i →
          (computeAddressGather .Magic (new .Magic histogram) index x).toNat = x.toNat % d) ∧
      ∀ (n : Nat) (e : Fin n → AddresserEntry r) (x : Lanes r n) (l : Fin n), e l =
        (new .Magic histogram).broadcast i → (x l).toNat < 2 ^ 32 → (Simd.computeAddress .Magic e x l).toNat =
          (x l).toNat % d := by
  obtain ⟨d, s, e, hgen, hle, hd, hc⟩ := LibdivideU32.cheapGen_cheap h32
  have hmagic : (LibdivideU32.internalGen d).magic ≠ 0 := Nat.ne_of_gt (Nat.lt_trans (by decide) hc.lt_magic)
  have hmark : ∀ s < 32, s &&& LibdivideU32.addMarker = 0 := by decide
  have hbits : 2 ^ 32 ≤ 2 ^ r.bits := Nat.pow_le_pow_right (by decide) (by cases r <;> decide)
  have hsize : (AddresserEntry.new .Magic histogram[i]).size.toNat = d := by
    rw [AddresserEntry.new, AddresserEntry.new?, Nat.mod_eq_of_lt h32, hgen]
    show (BitVec.ofNat r.bits (LibdivideU32.internalGen d).recover).toNat = d
    rw [hc.recover_eq hd, BitVec.toNat_ofNat, Nat.mod_eq_of_lt (Nat.lt_of_lt_of_le hd hbits)]
  have haddress : ∀ x : r.T, x.toNat < 2 ^ 32 →
      (((new .Magic histogram).broadcast i).computeAddress .Magic x).toNat = x.toNat % d := fun x hx => by
    rw [broadcast_new _ hi, AddresserEntry.computeAddress_Magic _ hx, hsize]
  refine ⟨d, hle, hd, hgen, hmagic, hc.more ▸ hmark s hc.shift, hc.recover_eq hd, ?_,
    fun x hx => ⟨haddress x hx, ?_, ?_⟩, ?_⟩
  · rw [getSize, broadcast_new _ hi, hsize]
  · rw [computeAddressHorizontal, load_eq_broadcast, haddress x hx]
  · rintro index rfl
    exact haddress x hx
  · intro n e x l he hx
    rw [Simd.computeAddress_lane, he, haddress _ hx]

/-- Seven buckets, for which a larger divisor is taken. -/
theorem magic_modulo_seven : ∃ d, 7 ≤ d ∧ getSize (new .Magic [(7 : RegisterSize._32bit.T)]) 0 = d ∧
    (computeAddressVertical .Magic (new .Magic [(7 : RegisterSize._32bit.T)]) 0 100).toNat = 100 % d := by
  obtain ⟨d, hle, -, -, -, -, -, hsize, haddress, -⟩ :=
    magic_modulo (by decide : 0 < [(7 : RegisterSize._32bit.T)].length) (by decide)
  exact ⟨d, hle, hsize, (haddress 100 (by decide)).1⟩

end Addresser

end PartitionedFilters

import PartitionedFilters.BloomUnion
import PartitionedFilters.CountSound
import PartitionedFilters.CuckooPositions
import PartitionedFilters.CuckooLanes
import PartitionedFilters.CuckooSimdSound
import PartitionedFilters.MortonSimdSound
import PartitionedFilters.XorBounds

/-!
# What the filters count

The containers of the Bloom, the cuckoo and the Xor filter as `count` uses them,
with one lane or with several.
-/

namespace PartitionedFilters

open PartitionSet

variable {r : RegisterSize}

/-- A container whose lanes do not depend on each other; `contains` of a value asks the first lane. -/
def Counter.ofLanes {n : Nat} [NeZero n] (contains : Nat → Lanes r n → LaneMask n → LaneMask n)
    (masked : ∀ index values mask l, mask l = false → contains index values mask l = false)
    (lane : ∀ index (values values' : Lanes r n) (mask mask' : LaneMask n) l l', values l = values' l' →
      mask l = mask' l' → contains index values mask l = contains index values' mask' l') : Counter r n :=
  { contains := fun index value => contains index (fun _ => value) (fun l => l == 0) 0
    countVector := fun index values mask => popcountMask (contains index values mask)
    countVector_eq := fun index values mask => List.countP_congr fun l _ => by
      cases hm : mask l with
      | false => simp [masked index values mask l hm]
      | true =>
        rw [lane index values (fun _ => values l) mask (fun l => l == 0) l 0 rfl (by simp [hm]), Bool.true_and] }

namespace Bloom

def counter (c : Config r) (h : c.Admitted) (x : BloomContainer r) (m : Mem) : Counter r (c.simd.nElements r) :=
  match hv : c.vectorization with
  | .Horizontal => .ofLanes (fun index values mask => Simd.containsHorizontal c x m mask index values)
    (fun index values mask l hl => by rw [Simd.containsHorizontal_apply, hl, Bool.false_and])
    (fun index values values' mask mask' l l' hvalue hmask => by
      rw [Simd.containsHorizontal_apply, Simd.containsHorizontal_apply, hvalue, hmask])
  | .Vertical =>
    { contains := fun index value =>
      (Simd.containsVertical c x m index (fun _ => value) (fun l => l == 0)).getLsbD 0
      countVector := Simd.countVertical c x m
      countVector_eq := fun index values mask => by
        obtain ⟨⟨e, f, hd⟩, hn⟩ := Simd.dims_of_admitted h hv
        have hn' : c.simd.nElements r = 2 ^ f * 2 ^ e := by rw [← hn, hd.lanes, hd.perLane]
        rw [Simd.countVertical_eq hd x m index values mask hv hn']
        refine List.countP_congr fun l _ => ?_
        have hlane := Simd.containsVertical_apply hd x m index (fun _ => values l) (fun l => l == 0) hv hn' 0
        rw [Fin.val_zero, beq_self_eq_true, Bool.true_and] at hlane
        rw [hlane] }

end Bloom

namespace Cuckoo

def containsLanes (v : Variant) (simd : SIMD) (divide : Nat → r.T → r.T) (c : Config r) (x : CuckooContainer r)
    (m : Mem) (index : Nat) (values : Lanes r (simd.nElements r)) (mask : LaneMask (simd.nElements r)) :
    LaneMask (simd.nElements r) :=
  match v with
  | .Standard =>
    if simd = .Scalar then fun l => mask l && Standard.contains c x (values l) index m
    else Standard.Simd.contains c x values index mask m
  | .Morton =>
    if simd = .Scalar then fun l => mask l && Morton.contains c x (values l) index m
    else Morton.Simd.contains c x divide values index mask m

def seeded (seeds : Option (Nat → r.T)) (index : Nat) (value : r.T) : r.T :=
  match seeds with
  | none => value
  | some seeds => value ^^^ seeds index

section
variable {v : Variant} {simd : SIMD} {divide : Nat → r.T → r.T} {c : Config r} {x : CuckooContainer r} {m : Mem}

theorem containsLanes_masked {index : Nat} {values : Lanes r (simd.nElements r)}
    {mask : LaneMask (simd.nElements r)} {l : Fin (simd.nElements r)} (hl : mask l = false) :
    containsLanes v simd divide c x m index values mask l = false := by
  unfold containsLanes
  cases v with
  | Standard =>
    simp only
    split
    · simp only [hl, Bool.false_and]
    · simp only [Standard.Simd.contains, hl, Bool.false_and]
  | Morton =>
    simp only
    split
    · simp only [hl, Bool.false_and]
    · simp only [Morton.Simd.contains, hl, Bool.false_and]

theorem containsLanes_lane (h : v = .Standard → c.k * c.associativity ≤ r.bits) {index : Nat}
    {values values' : Lanes r (simd.nElements r)} {mask mask' : LaneMask (simd.nElements r)}
    {l l' : Fin (simd.nElements r)} (hvalue : values l = values' l') (hmask : mask l = mask' l') :
    containsLanes v simd divide c x m index values mask l =
      containsLanes v simd divide c x m index values' mask' l' := by
  have hn := Morton.nElements_mul_bits simd r
  unfold containsLanes
  cases v with
  | Standard =>
    simp only
    split
    · simp only [hvalue, hmask]
    · exact Standard.Simd.contains_lane hn (h rfl) hvalue hmask index
  | Morton =>
    simp only
    split
    · simp only [hvalue, hmask]
    · exact Morton.Simd.contains_lane hn hvalue hmask divide index

end

def counter (v : Variant) (simd : SIMD) (divide : Nat → r.T → r.T) (c : Config r)
    (h : v = .Standard → c.k * c.associativity ≤ r.bits) (seeds : Option (Nat → r.T))
    (x : CuckooContainer r) (m : Mem) :
    Counter r (simd.nElements r) :=
  .ofLanes (fun index values mask =>
    containsLanes v simd divide c x m index (fun l => seeded seeds index (values l)) mask)
    (fun _ _ _ _ hl => containsLanes_masked hl)
    (fun _ _ _ _ _ _ _ hvalue hmask => containsLanes_lane h (by rw [hvalue]) hmask)

end Cuckoo

namespace Xor

def counter (simd : SIMD) (c : Config r) (x : XorContainer r) : Counter r (simd.nElements r) :=
  .ofLanes (fun index values mask =>
      if simd = .Scalar then fun l => mask l && x.contains c (values l) index
      else XorContainer.Simd.contains c x values index mask)
    (fun index values mask l hl => by
      split
      · simp only [hl, Bool.false_and]
      · simp only [XorContainer.Simd.contains, hl, Bool.false_and])
    (fun index values values' mask mask' l l' hvalue hmask => by
      split
      · simp only [hvalue, hmask]
      · simp only [XorContainer.Simd.contains, XorContainer.getFingerprints, Lanes.gatheruBits, hvalue, hmask])

end Xor

/-! ## All filters -/

inductive FilterContainer (r : RegisterSize)
  | bloom (c : Bloom.Config r) (admitted : c.Admitted) (x : Bloom.BloomContainer r) (filter : Mem)
  | cuckoo (v : Cuckoo.Variant) (simd : SIMD) (divide : Nat → r.T → r.T) (c : Cuckoo.Config r)
    (admitted : v = .Standard → c.k * c.associativity ≤ r.bits) (seeds : Option (Nat → r.T))
      (x : Cuckoo.CuckooContainer r)
    (filter : Mem)
  | xor (simd : SIMD) (c : Xor.Config r) (x : Xor.XorContainer r)

namespace FilterContainer

def simd : FilterContainer r → SIMD
  | bloom c .. => c.simd
  | cuckoo _ simd .. => simd
  | xor simd .. => simd

def partitioning : FilterContainer r → Partitioning
  | bloom c .. => c.partitioning
  | cuckoo _ _ _ c .. => c.partitioning
  | xor _ c _ => c.partitioning

def counter : (f : FilterContainer r) → Counter r (f.simd.nElements r)
  | bloom c admitted x filter => Bloom.counter c admitted x filter
  | cuckoo v simd divide c admitted seeds x filter => Cuckoo.counter v simd divide c admitted seeds x filter
  | xor simd c x => Xor.counter simd c x

/-- The filters whose counting loop loads one vector ahead. -/
def pipelined : FilterContainer r → Bool
  | bloom c .. => c.avx && decide (r = ._32bit) && c.variant == .Blocked && decide (64 < c.blockSize.bits)
  | cuckoo .. => false
  | xor .. => false

end FilterContainer

/-! ## The batches that every filter counts right -/

namespace Bloom

def wordBlock (r : RegisterSize) : BlockSize :=
  match r with
  | ._32bit => ._32bit
  | ._64bit => ._64bit

theorem bits_wordBlock (r : RegisterSize) : (wordBlock r).bits = r.bits := by cases r <;> rfl

/-- One bit of one word for each value, which tells a set of values from the others. -/
def selectConfig (simd : SIMD) (partitioning : Partitioning) (found : r.T → Bool) : Config r :=
  { variant := .Sectorized, vectorization := .Horizontal, blockSize := wordBlock r,
    groups := ._1group, k := 1, simd,
    partitioning, mode := .Lemire, hash := fun value => if found value then 0 else -1, rehash :=
    fun _ hash _ => hash }

section
variable (simd : SIMD) (partitioning : Partitioning) (found : r.T → Bool)

theorem nSectors_select : (selectConfig simd partitioning found).nSectors = 1 := by
  rw [Config.nSectors, selectConfig, bits_wordBlock, Nat.div_self r.bits_pos]

theorem kPerSector_select : (selectConfig simd partitioning found).kPerSector = 1 := by
  rw [Config.kPerSector, nSectors_select]
  exact Nat.div_one 1

theorem fillMask_select (value : r.T) :
    (fillMask (selectConfig simd partitioning found) value 1
      ⟨(selectConfig simd partitioning found).hash value, r.bits - addressBits, 0⟩).1 =
      [if found value then 0 else r.bits - 1] := by
  have hrefill : ∀ h :
      r.T, ((⟨h, r.bits - addressBits, 0⟩ : HashWindow r).refill (selectConfig simd partitioning found)
      value (wordBits r)).window 0 (wordBits r) = extractBits h (r.bits - 32) (wordBits r) := by
    intro h
    unfold HashWindow.refill
    cases r
    · rw [if_pos (show RegisterSize._32bit.bits - addressBits < wordBits ._32bit by decide)]
      rfl
    · rw [if_neg (show ¬RegisterSize._64bit.bits - addressBits < wordBits ._64bit by decide)]
      rfl
  have hbit : ∀ b : Bool, (extractBits (if b then (0 : r.T) else -1) (r.bits - 32) (wordBits r)).toNat =
      if b then 0 else r.bits - 1 := by
    cases r <;> decide
  rw [← hbit, ← hrefill]
  rfl

theorem steps_select (x : BloomContainer r) (i : Nat) (value : r.T) :
    ∃ s, steps (selectConfig simd partitioning found) x i value = [s] ∧
    s.bits = [if found value then 0 else r.bits - 1] := by
  unfold steps
  rw [show (selectConfig simd partitioning found).vectorization = .Horizontal from rfl,
    show (selectConfig simd partitioning found).variant = .Sectorized from rfl]
  simp only
  have hlast : ¬(0 < 1 ∧ 1 < (selectConfig simd partitioning found).k) := fun h => Nat.lt_irrefl 1 h.2
  rw [sectorizedSteps, kPerSector_select]
  simp only [if_neg hlast]
  exact ⟨_, rfl, fillMask_select ..⟩

theorem admitted_select : (selectConfig simd partitioning found).Admitted := by
  refine ⟨nofun, fun _ => Nat.mod_eq_zero_of_dvd ?_, fun _ h => ?_, fun _ h => ?_, nofun, nofun⟩
  · rw [nSectors_select]
    exact Nat.one_dvd _
  · cases r
    · rfl
    · cases h
  · cases r
    · cases h
    · rfl

def selectContainer (n : Nat) : BloomContainer r := .new (selectConfig simd partitioning found) 100 n fun _ => 1

theorem size_select (n i : Nat) : ((selectContainer simd partitioning found n).entries i).size = 1 := by
  change BitVec.ofNat r.bits ((1 : r.T).toNat * 1 * 100 % 2 ^ 64 / 100 / (wordBlock r).bits + 1) = 1
  cases r <;> decide

theorem start_select (n i : Nat) : start (selectContainer simd partitioning found n) i = i := by
  induction i with
  | zero => rfl
  | succ i ih =>
    have hone : (1 : r.T).toNat = 1 := BitVec.toNat_one r.bits_pos
    rw [start, ih, size_select, hone]

theorem noWrap_select {n : Nat} (hw : n ≤ 2 ^ (r.bits - 1)) (hb : n * r.bits < 2 ^ 64) :
    NoWrap (selectConfig simd partitioning found) (selectContainer simd partitioning found n)
      ((selectConfig simd partitioning found).nParts n) := by
  have hparts : (selectConfig simd partitioning found).nParts n ≤ 2 ^ (r.bits - 1) ∧
      (selectConfig simd partitioning found).nParts n * r.bits < 2 ^ 64 := by
    cases partitioning with
    | Enabled => exact ⟨hw, hb⟩
    | Disabled =>
      change 1 ≤ 2 ^ (r.bits - 1) ∧ 1 * r.bits < 2 ^ 64
      cases r <;> decide
  have hhalf : 2 ^ (r.bits - 1) < 2 ^ r.bits := Nat.pow_lt_pow_right (by decide) (Nat.sub_lt r.bits_pos Nat.one_pos)
  refine ⟨?_, ?_, ?_⟩
  · rw [start_select]
    omega
  · rw [start_select, nSectors_select, Nat.mul_one]
    split
    · exact hparts.1
    · omega
  · rw [start_select, selectConfig, bits_wordBlock]
    exact hparts.2

theorem regular_select (n : Nat) :
    Regular (selectConfig simd partitioning found) (selectContainer simd partitioning found n)
    ((selectConfig simd partitioning found).nParts n) := by
  refine ⟨fun i _ => ?_, ?_, nofun, nofun⟩
  · rw [size_select]
    cases r <;> decide
  · rw [selectConfig, bits_wordBlock]

theorem pattern_select {n : Nat} (hw : n ≤ 2 ^ (r.bits - 1)) (hb : n * r.bits < 2 ^ 64) {i : Nat}
    (hi : i < (selectConfig simd partitioning found).nParts n) (value : r.T) (q : Nat) :
    pattern (selectConfig simd partitioning found) (selectContainer simd partitioning found n) i value q ↔
      q = r.bits * i + if found value then 0 else r.bits - 1 := by
  obtain ⟨s, hs, hbits⟩ := steps_select simd partitioning found (selectContainer simd partitioning found n) i value
  have hconfined :
      StepConfined (selectConfig simd partitioning found) (selectContainer simd partitioning found n) i s :=
    (steps_confined rfl rfl (noWrap_select simd partitioning found hw hb) (admitted_select simd partitioning found)
      (regular_select simd partitioning found n) hi value).1 s (hs ▸ List.mem_singleton_self s)
  have hown := hconfined.own
  have hfirst := hconfined.first
  have hlast := hconfined.last
  rw [start_select, start_select] at hown
  have hblock : s.block.toNat = i := by omega
  rw [hblock, selectConfig, bits_wordBlock] at hfirst hlast
  have hword : wordBit (selectContainer simd partitioning found n) s.word = r.bits * i := by
    change (8 * (0 : Nat) + r.bits * s.word : Int).toNat = r.bits * i
    have : (r.bits : Int) * s.word = r.bits * i := by omega
    omega
  simp only [pattern, hs, List.mem_singleton, exists_eq_left, wordPattern, hbits, hword]

def addEach (inside : Nat → Bool) (n : Nat) (values : Nat → r.T) :
    List (Operation (selectConfig simd partitioning found)) :=
  ((List.range ((selectConfig simd partitioning found).nParts n)).filter inside).map fun i =>
    .insert i (fun _ => values i) (fun l => l == 0)

variable {simd partitioning found}

/-- Only the first lane of a value inserted alone is active. -/
theorem eq_zero_of_active {l : Fin (simd.nElements r)}
    (hl : Active (selectConfig simd partitioning found) (fun l => l == 0 : LaneMask (simd.nElements r)) l) :
    l.val = 0 := by
  cases havx : (selectConfig simd partitioning found).avx with
  | true => simpa [Active, havx] using hl
  | false =>
    have hone := nElements_of_not_avx havx
    exact Nat.lt_one_iff.mp (hone ▸ l.isLt)

theorem mem_addEach {inside : Nat → Bool} {n : Nat} {values : Nat → r.T}
    {op : Operation (selectConfig simd partitioning found)} :
    op ∈ addEach simd partitioning found inside n values ↔
      ∃ i < (selectConfig simd partitioning found).nParts n,
        inside i = true ∧ op = .insert i (fun _ => values i) (fun l => l == 0) := by
  simp only [addEach, List.mem_map, List.mem_filter, List.mem_range, and_assoc, eq_comm]

/-- A value found sets the first bit of its block, any other value the last bit. -/
theorem eq_and_found_of_bit {i j : Nat} {value : r.T}
    (h : r.bits * i + (if found value then 0 else r.bits - 1) = r.bits * j + 0) : i = j ∧ found value = true := by
  have hwidth : 1 < r.bits := by cases r <;> decide
  have hlt : (if found value = true then 0 else r.bits - 1) < r.bits := by split <;> omega
  have hdiv := congrArg (· / r.bits) h
  have hmod := congrArg (· % r.bits) h
  simp only [Nat.mul_add_div r.bits_pos, Nat.mul_add_mod, Nat.div_eq_of_lt hlt, Nat.mod_eq_of_lt hlt,
    Nat.add_zero, Nat.mul_div_cancel_left _ r.bits_pos, Nat.mul_mod_right] at hdiv hmod
  refine ⟨hdiv, ?_⟩
  by_contra hnot
  rw [if_neg hnot] at hmod
  omega

variable (simd partitioning found)

/-- A filter that finds a set of values in the partitions that got one of them. -/
theorem exists_select (isa : InstructionSet) {n : Nat} (hw : n ≤ 2 ^ (r.bits - 1)) (hb : n * r.bits < 2 ^ 64)
    (inside : Nat → Bool) (values : Nat → r.T)
    (hvalues : ∀ i < (selectConfig simd partitioning found).nParts n, inside i = true → found (values i) = true) :
    ∃ m, (addEach simd partitioning found inside n values).foldlM
        (Operation.apply _ (selectContainer simd partitioning found n) isa) Mem.zero = some m ∧
      ∀ i < (selectConfig simd partitioning found).nParts n, ∀ value,
        contains (selectConfig simd partitioning found) (selectContainer simd partitioning found n) i value m =
          (inside i && found value) := by
  have hadmitted := admitted_select simd partitioning found
  have hregular := regular_select simd partitioning found n
  have hnowrap := noWrap_select simd partitioning found hw hb
  have hpattern := fun {i} hi => pattern_select simd partitioning found hw hb (i := i) hi
  have hvalid : ∀ op ∈ addEach simd partitioning found inside n values,
      op.Valid ((selectConfig simd partitioning found).nParts n) := by
    intro op hop
    obtain ⟨i, hi, -, rfl⟩ := mem_addEach.mp hop
    intro l hl
    rw [eq_zero_of_active hl]
    exact hi
  have hfits : ∀ op ∈ addEach simd partitioning found inside n values, op.Fits isa := by
    intro op hop
    obtain ⟨i, -, -, rfl⟩ := mem_addEach.mp hop
    trivial
  obtain ⟨m, hm, hunion⟩ := exists_run hadmitted hnowrap hregular hvalid hfits
  refine ⟨m, hm, fun i hi value => ?_⟩
  have hbits :
      ∀ s ∈ steps (selectConfig simd partitioning found) (selectContainer simd partitioning found n) i value,
      ∀ b ∈ s.bits, b < r.bits := (sound_of_noWrap hadmitted hnowrap hregular).bits i hi value
  rw [Bool.eq_iff_iff, contains_iff hbits, Bool.and_eq_true]
  constructor
  · intro h
    obtain ⟨op, hop, value', j, hinserts, hq⟩ := (hunion _).mp (h _ ((hpattern hi value _).mpr rfl))
    obtain ⟨j', hj', hin, rfl⟩ := mem_addEach.mp hop
    obtain ⟨l, hl, rfl, hj⟩ := hinserts
    obtain rfl : j' = j := by
      change j' + l.val = j at hj
      rw [← hj, eq_zero_of_active hl, Nat.add_zero]
    have hq := (hpattern hj' _ _).mp hq
    rw [if_pos (hvalues j' hj' hin)] at hq
    obtain ⟨rfl, hfound⟩ := eq_and_found_of_bit hq
    exact ⟨hin, hfound⟩
  · rintro ⟨hin, hfound⟩ q hq
    refine (hunion q).mpr ⟨_, mem_addEach.mpr ⟨i, hi, hin, rfl⟩, values i, i,
      ⟨0, by simp [Active], rfl, Nat.add_zero i⟩, ?_⟩
    have hq := (hpattern hi value q).mp hq
    rw [if_pos hfound] at hq
    exact (hpattern hi _ q).mpr (by rw [if_pos (hvalues i hi hin), hq])

end
end Bloom

section
variable {m nTasks : Nat} (hm : m < 64) {v : List r.T} {simd : SIMD} {isa : InstructionSet} {caller : Extent}
  {partitioning : Partitioning} (he : partitioning = .Enabled → Fits r (2 ^ m) [])

include he in
theorem nParts_le : nParts partitioning (2 ^ m) ≤ 2 ^ (r.bits - 1) ∧
    nParts partitioning (2 ^ m) * r.bits < 2 ^ 64 := by
  cases partitioning with
  | Disabled =>
    change 1 ≤ 2 ^ (r.bits - 1) ∧ 1 * r.bits < 2 ^ 64
    cases r <;> decide
  | Enabled =>
    obtain ⟨hlength, hbytes⟩ := he rfl
    have hstart := mul_le_start (r := r) (count (r := r) (2 ^ m) []) (2 ^ m)
    have hcells := Nat.mul_le_mul_left r.bytes hstart
    change 2 ^ m ≤ 2 ^ (r.bits - 1) ∧ 2 ^ m * r.bits < 2 ^ 64
    cases r with
    | _32bit =>
      change 64 * 2 ^ m ≤ _ at hstart
      change _ < 2 ^ 32 at hlength
      change 2 ^ m ≤ 2 ^ 31 ∧ 2 ^ m * 32 < 2 ^ 64
      omega
    | _64bit =>
      rw [show RegisterSize._64bit.bytes = 8 from rfl] at hbytes hcells
      rw [show CacheLineBuffer.nTuplesPerCacheLineBuffer ._64bit = 32 from rfl] at hcells
      change 2 ^ m ≤ 2 ^ 63 ∧ 2 ^ m * 64 < 2 ^ 64
      omega

include he in
/-- Bloom filters to which values were added find any set of values. -/
theorem allAgree_of_agrees (h : ∀ f : FilterContainer r, f.simd = simd → f.partitioning = partitioning →
      f.counter.Agrees isa f.pipelined caller partitioning (2 ^ m) nTasks v) :
    AllAgree simd isa false caller partitioning (2 ^ m) nTasks v := by
  intro inside found hinside
  obtain ⟨hw, hb⟩ := nParts_le he
  have hparts : (Bloom.selectConfig simd partitioning found).nParts (nParts partitioning (2 ^ m)) =
      nParts partitioning (2 ^ m) := by
    cases partitioning <;> rfl
  have hvalues : ∀ i, ∃ x, i < nParts partitioning (2 ^ m) → inside i = true → found x = true := by
    intro i
    by_cases hi : i < nParts partitioning (2 ^ m) ∧ inside i = true
    · obtain ⟨x, -, hx⟩ := hinside i hi.1 hi.2
      exact ⟨x, fun _ _ => hx⟩
    · exact ⟨0, fun h h' => absurd ⟨h, h'⟩ hi⟩
  obtain ⟨values, hvalues⟩ := Classical.skolem.mp hvalues
  obtain ⟨filter, -, hcontains⟩ := Bloom.exists_select simd partitioning found isa hw hb inside values
    (by rw [hparts]; exact hvalues)
  let f : FilterContainer r :=
    .bloom (Bloom.selectConfig simd partitioning found) (Bloom.admitted_select simd partitioning found)
    (Bloom.selectContainer simd partitioning found (nParts partitioning (2 ^ m))) filter
  have hpipelined : f.pipelined = false := by simp [f, FilterContainer.pipelined, Bloom.selectConfig]
  refine ⟨f.counter, fun i hi x => ?_, hpipelined ▸ h f rfl rfl⟩
  have hlookup := Bloom.Simd.containsHorizontal_apply (Bloom.selectConfig simd partitioning found)
    (Bloom.selectContainer simd partitioning found (nParts partitioning (2 ^ m))) filter i
    (fun _ : Fin (simd.nElements r) => x) (fun l => l == 0) 0
  rw [beq_self_eq_true, Bool.true_and, hcontains i (by rw [hparts]; exact hi) x] at hlookup
  exact hlookup

/-- Counting finds what `contains` finds, for every filter, if and only if no length wraps, a batch that
is partitioned by tasks has one, and the vectors of a batch that is not partitioned can be loaded. -/
theorem batch_count_iff (hm : m < 64) (hq : nTasks < 2 ^ 64) (hv : r.bytes * v.length < 2 ^ 64)
    (he : partitioning = .Enabled → Fits r (2 ^ m) [])
    (hcaller : partitioning = .Disabled → caller.address + r.bytes * v.length ≤ caller.limit) :
    (∀ f : FilterContainer r, f.simd = simd → f.partitioning = partitioning →
      f.counter.Agrees isa f.pipelined caller partitioning (2 ^ m) nTasks v) ↔
      Countable simd isa caller partitioning (2 ^ m) nTasks v := by
  constructor
  · intro h
    have hlength : v.length < 2 ^ 64 := Nat.lt_of_le_of_lt (Nat.le_mul_of_pos_left _ r.bytes_pos) hv
    exact countable_of_agrees hm hlength he hcaller (allAgree_of_agrees he h)
  · rintro h f rfl -
    exact f.counter.agrees_of_countable hm hv hq h f.pipelined

end

theorem batch_count_iff_two :
    ((∀ f : FilterContainer ._32bit, f.simd = .AVX2 → f.partitioning = .Enabled →
      f.counter.Agrees ⟨true, false⟩ f.pipelined ⟨4, 16⟩ .Enabled (2 ^ 1) 2 [3, 2, 5]) ↔
      Countable .AVX2 ⟨true, false⟩ ⟨4, 16⟩ .Enabled (2 ^ 1) 2 ([3, 2, 5] : List RegisterSize._32bit.T)) ∧
    ((∀ f : FilterContainer ._32bit, f.simd = .AVX2 → f.partitioning = .Disabled →
      f.counter.Agrees ⟨true, false⟩ f.pipelined ⟨4, 64⟩ .Disabled (2 ^ 0) 0 [3, 2, 5]) ↔
      Countable .AVX2 ⟨true, false⟩ ⟨4, 64⟩ .Disabled (2 ^ 0) 0 ([3, 2, 5] : List RegisterSize._32bit.T)) ∧
    Countable .AVX2 ⟨true, false⟩ ⟨4, 16⟩ .Enabled (2 ^ 1) 2 ([3, 2, 5] : List RegisterSize._32bit.T) ∧
    ¬Countable .AVX2 ⟨true, false⟩ ⟨4, 64⟩ .Disabled (2 ^ 0) 0 ([3, 2, 5] : List RegisterSize._32bit.T) :=
  ⟨batch_count_iff (by decide) (by decide) (by decide) (fun _ => by decide +kernel) nofun,
    batch_count_iff (by decide) (by decide) (by decide) nofun fun _ => by decide, by
      decide +kernel, by decide +kernel⟩

def zeroFilter : FilterContainer ._32bit :=
  .cuckoo .Standard .Scalar (fun _ => id) Cuckoo.Standard.Simd.wordConfig (fun _ => by decide) none
    Cuckoo.Standard.Simd.wordContainer
    (Cuckoo.Standard.insert Cuckoo.Standard.Simd.wordConfig Cuckoo.Standard.Simd.wordContainer 0 0
      (fun _ => 0) Mem.zero).2

section
variable {simd : SIMD} (f : Counter r (simd.nElements r))

theorem count_wrapped {n : Nat} {v : List r.T} (hv : v.length % 2 ^ r.bits = 0) (isa : InstructionSet)
    (pipelined : Bool) {p : PartitionSet r} (hp : Batch n v .Disabled p) (values : Pointer r) :
    f.count isa values pipelined p = some 0 := by
  cases hp
  have hhistogram : ∀ i, (initDisabled v).histogram i = 0 := fun _ => hv
  obtain ⟨c, hc⟩ : ∃ c, f.count isa values pipelined (initDisabled v) = some c :=
    f.count_isSome (fun i _ => .inl (hhistogram i)) pipelined
  rw [hc, f.eq_of_count hc]
  simp [hhistogram]

theorem lookups_replicate {n : Nat} (f : Counter r n) {x : r.T} (hx : f.contains 0 x = true)
    (nPartitions length : Nat) :
    f.lookups .Disabled nPartitions (List.replicate length x) = length := by
  rw [Counter.lookups, List.countP_replicate]
  exact if_pos hx

theorem not_agrees_replicate {x : r.T} (hx : f.contains 0 x = true) {length : Nat}
    (hlength : length % 2 ^ r.bits = 0) (hne : length ≠ 0) (isa : InstructionSet) (pipelined : Bool)
    (caller : Extent) (n nTasks : Nat) :
    ¬f.Agrees isa pipelined caller .Disabled n nTasks (List.replicate length x) := by
  intro h
  have hcount := h.1 _ .disabled ⟨caller, PartitionSet.read .Disabled _ fun _ => 0⟩ ⟨nofun, fun _ => rfl, _, rfl⟩
  rw [lookups_replicate f hx,
    count_wrapped (n := n) f (by rw [List.length_replicate, hlength]) isa pipelined .disabled] at hcount
  exact hne (Option.some.inj hcount).symm

end

/-- `2 ^ 32` values that are all in the filter are counted as none, wherever they are. -/
theorem count_replicate :
    (Cuckoo.Standard.insert Cuckoo.Standard.Simd.wordConfig Cuckoo.Standard.Simd.wordContainer 0 0 (fun _ => 0)
      Mem.zero).1 = true ∧
    (∀ isa p values, Batch 1 (List.replicate (2 ^ 32) 0) .Disabled p →
      zeroFilter.counter.count isa values false p = some 0) ∧
    zeroFilter.counter.lookups .Disabled 1 (List.replicate (2 ^ 32) 0) = 2 ^ 32 ∧
    ∀ isa caller, ¬zeroFilter.counter.Agrees isa zeroFilter.pipelined caller .Disabled 1 0
      (List.replicate (2 ^ 32) 0) := by
  have hcontains : zeroFilter.counter.contains 0 0 = true := by decide +kernel
  refine ⟨by decide +kernel, fun isa p values hp => count_wrapped _ ?_ isa false hp values,
    lookups_replicate _ hcontains 1 _,
    fun isa caller => not_agrees_replicate _ hcontains (by decide) (by decide) isa _ caller 1 0⟩
  rw [List.length_replicate]
  decide

end PartitionedFilters

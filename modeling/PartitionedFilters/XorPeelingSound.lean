import PartitionedFilters.XorFilterSound

/-!
# The peeling is complete and stays in its buffers

`Xor::Variant::Standard` and `Fuse` peel the same hypergraph in different orders.
Both leave its 2-core, whatever the order, and queue a slot only when its degree
drops to one.
-/

namespace PartitionedFilters.Xor

open Peeling (IsTwoCore deg)

variable {r : RegisterSize} {c : Config r} {e : AddresserEntry r}

/-! ## Buffers -/

theorem inBuffer_allocated {n cells : Nat} (hle : n ≤ cells) (hfit : cells * (r.bits / 8) + 64 ≤ 2 ^ 64) :
    InBuffer r n (allocatedBytes r cells) := by
  have hmul := Nat.mul_le_mul_right (r.bits / 8) hle
  unfold InBuffer allocatedBytes
  rw [Nat.mod_eq_of_lt (by omega), valign_eq hfit]
  omega

theorem lastOffset_Standard (hfit : 3 * e.size.toNat < 2 ^ r.bits) :
    r.wrap (r.wrap (r.wrap e.size.toNat + e.size.toNat) + e.size.toNat) = 3 * e.size.toNat := by
  have h1 : r.wrap e.size.toNat = e.size.toNat := RegisterSize.wrap_of_lt (by omega)
  have h2 : r.wrap (e.size.toNat + e.size.toNat) = e.size.toNat + e.size.toNat := RegisterSize.wrap_of_lt (by omega)
  rw [h1, h2, RegisterSize.wrap_of_lt (by omega)]
  omega

theorem XorSet.lastOffset_eq (hz : Sized c e) : XorSet.lastOffset c.variant e = nSlots c e := by
  have hfits := hz.fits
  unfold XorSet.lastOffset nSlots
  cases hv : c.variant with
  | Standard =>
    rw [nSlots, hv] at hfits
    rw [lastOffset_Standard (show 3 * e.size.toNat < _ by simp only [nSets] at hfits; omega)]
    rfl
  | Fuse =>
    rw [nSlots, hv] at hfits
    simp only [nSets, fuseSegments] at hfits ⊢
    rw [lastOffset_Standard (by omega), RegisterSize.wrap_of_lt (by omega)]
    omega

/-! ## What the peeling shall do -/

namespace Standard

/-- The states of queue and stack after the first queues were filled and after every entry. -/
def trace (c : Config r) (x : XorSet r) : List (Peel r × Peel r) := (State.start c x).trace c (2 ^ r.bits + 1)

structure Complete (c : Config r) (e : AddresserEntry r) (R₀ : Multiset r.T) (histogram : Nat) (x : XorSet r) :
    Prop where
  size : (buildStack c x).size = histogram ↔ IsTwoCore (Incident c e) R₀ 0
  pushedOnce : (((trace c x).flatMap fun s => s.1.pushed s.2 : List r.T) : Multiset r.T) ≤ R₀
  queuedOnce : ((XorQueue.new e).queued c x (State.start c x).queue ++
    (trace c x).flatMap fun s => s.1.queue.queued c s.2.set s.2.queue).Nodup
  queues : ∀ q ∈ (State.start c x).queue :: (trace c x).map (fun s => s.2.queue), ∀ j,
    q.ends j ≤ (j + 1) * e.size.toNat ∧ InBuffer r (q.ends j) (XorQueue.nBytes e) ∧
      (Loop.countUp r.bits 1 (q.ends j)).Ends (q.begins j)
  stack : ∀ s ∈ trace c x, InBuffer r s.2.run (XorStack.nBytes r histogram)
  ends : ∃ t, (State.loop c).ExitsAt t (State.start c x) ∧
    ((State.loop c).body^[t] (State.start c x)).stack = buildStack c x

end Standard

namespace Fuse

def trace (c : Config r) (x : XorSet r) : List (Peel r × Peel r) := (Peel.start c x).trace c (2 ^ r.bits) 0

structure Complete (c : Config r) (e : AddresserEntry r) (R₀ : Multiset r.T) (histogram : Nat) (x : XorSet r) :
    Prop where
  size : (buildStack c x).size = histogram ↔ IsTwoCore (Incident c e) R₀ 0
  pushedOnce : (((trace c x).flatMap fun s => s.1.stack.pushed s.2.stack : List r.T) : Multiset r.T) ≤ R₀
  queuedOnce : (({ ends := 0, queue := fun _ => 0 } : XorQueue r).appended (Peel.start c x).queue ++
    (trace c x).flatMap fun s => s.1.queue.appended s.2.queue).Nodup
  queue : ∀ q ∈ (Peel.start c x).queue :: (trace c x).map (fun s => s.2.queue),
    InBuffer r q.ends (XorQueue.nBytes e)
  stack : ∀ s ∈ trace c x, InBuffer r s.2.stack.endOffset (XorStack.nBytes r histogram)
  ends : ∃ t, (Peel.loop c).ExitsAt t (0, Peel.start c x) ∧
    ((Peel.loop c).body^[t] (0, Peel.start c x)).2.stack = buildStack c x

end Fuse

/-- The hashes of a partition are added, queued and peeled. -/
structure PeelsCompletely (c : Config r) (e : AddresserEntry r) (seed : r.T) (offset histogram : Nat)
    (values : Nat → r.T) : Prop where
  cells : ∀ x : XorSet r, x = (XorSet.new e seed).fill c offset histogram values → ∀ set hash,
    InBuffer r (2 * x.slot c set hash + 2) (XorSet.nBytes c.variant e)
  fillEnds : (Loop.countUp r.bits 1 (r.wrap (offset + histogram))).Ends offset
  scanEnds : ∀ x : XorSet r, x = (XorSet.new e seed).fill c offset histogram values → ∀ set,
    (Loop.countUp r.bits 2 (r.wrap (r.wrap (x.begins set * 2) + r.wrap (x.size c * 2)))).Ends
      (r.wrap (x.begins set * 2))
  standard : c.variant = .Standard → Standard.Complete c e (XorSet.hashes c seed offset histogram values) histogram
    ((XorSet.new e seed).fill c offset histogram values)
  fuse : c.variant = .Fuse → Fuse.Complete c e (XorSet.hashes c seed offset histogram values) histogram
    ((XorSet.new e seed).fill c offset histogram values)

def stackCells : Variant → Nat
  | .Standard => 1
  | .Fuse => 2

/-- No offset leaves `T` and no size leaves `size_t`. -/
structure PeelFits (c : Config r) (e : AddresserEntry r) (offset histogram : Nat) : Prop where
  sized : Sized c e
  keys : offset + histogram < 2 ^ r.bits
  stack : c.variant = .Fuse → 2 * histogram < 2 ^ r.bits
  setBytes : 2 * nSlots c e * (r.bits / 8) + 64 ≤ 2 ^ 64
  stackBytes : stackCells c.variant * histogram * (r.bits / 8) + 64 ≤ 2 ^ 64

/-! ## The buffers suffice -/

theorem Sized.nSlots_Standard (hz : Sized c e) (hv : c.variant = .Standard) :
    nSlots c e = 3 * e.size.toNat ∧ 2 * (3 * e.size.toNat) < 2 ^ r.bits := by
  have hfits := hz.fits
  have hsets : nSlots c e = 3 * e.size.toNat := by unfold nSlots; rw [hv]; rfl
  rw [hsets] at hfits
  exact ⟨hsets, hfits⟩

theorem card_hashes (h : PeelFits c e offset histogram) (seed : r.T) (values : Nat → r.T) :
    Multiset.card (XorSet.hashes c seed offset histogram values : Multiset r.T) = histogram := by
  rw [Multiset.coe_card]
  unfold XorSet.hashes
  rw [List.length_map, List.length_range', RegisterSize.wrap_of_lt h.keys, Nat.add_sub_cancel_left]

section
variable {R₀ : Multiset r.T} {x : XorSet r} {offset histogram : Nat} (h : PeelFits c e offset histogram)
  (hR : Multiset.card R₀ = histogram) (hx : XorSet.For e x) (hexact : ∀ s < nSlots c e, x.Exact c e R₀ s)
include h hR hx hexact

theorem Standard.complete (hv : c.variant = .Standard) : Standard.Complete c e R₀ histogram x := by
  obtain ⟨hsets, hfits⟩ := h.sized.nSlots_Standard hv
  have hkeys := h.keys
  have hcard : Multiset.card R₀ < 2 ^ r.bits := by omega
  obtain ⟨segs, R', hb, hran, hends⟩ := Standard.buildStack_ran h.sized hv hcard hx hexact
  have hstart := Standard.fill_spec h.sized hv hcard hx hexact fun _ => 0
  refine ⟨?_, ?_, ?_, ?_, ?_, hends⟩
  · rw [hb.size, ← hR]
    exact hb.peels.length_eq_card_iff hb.stuck
  · unfold Standard.trace
    rw [hran.pushed, hb.peels.eq_add]
    exact Multiset.le_add_right _ _
  · exact (hran.queued _ (Standard.once_start h.sized hv hcard hx hexact)).nodup
  · intro q hq j
    have hle : q.ends j ≤ (j + 1) * e.size.toNat := by
      cases hq with
      | head => exact hstart.queue.ends_le j
      | tail _ hq =>
        obtain ⟨s, hs, rfl⟩ := List.mem_map.mp hq
        exact hran.ends s hs j
    have hlast : (j + 1) * e.size.toNat ≤ 3 * e.size.toNat := Nat.mul_le_mul_right _ j.isLt
    have hbytes := h.setBytes
    rw [hsets] at hbytes
    refine ⟨hle, ?_, Loop.countUp_ends Nat.one_pos (by omega) _⟩
    unfold Standard.XorQueue.nBytes
    rw [lastOffset_Standard (by omega)]
    refine inBuffer_allocated (by omega) ?_
    rw [Nat.mul_assoc] at hbytes
    omega
  · intro s hs
    have hrun := hran.run s hs
    have hbytes := h.stackBytes
    rw [hv, stackCells, Nat.one_mul] at hbytes
    unfold Standard.XorStack.nBytes
    rw [RegisterSize.wrap_of_lt (by omega)]
    exact inBuffer_allocated (by omega) hbytes

theorem Fuse.complete (hv : c.variant = .Fuse) : Fuse.Complete c e R₀ histogram x := by
  have hkeys := h.keys
  have hcard : Multiset.card R₀ < 2 ^ r.bits := by omega
  obtain ⟨log, R', hb, hran, hends⟩ := Fuse.buildStack_ran h.sized hv hcard hx hexact
  have hstart := Fuse.fill_spec h.sized hv hcard hx hexact fun _ => 0
  refine ⟨?_, ?_, ?_, ?_, ?_, hends⟩
  · rw [hb.size, ← hR]
    exact hb.peels.length_eq_card_iff hb.stuck
  · unfold Fuse.trace
    rw [hran.pushed, hb.peels.eq_add]
    exact Multiset.le_add_right _ _
  · exact (hran.queued _ (Fuse.once_start h.sized hv hcard hx hexact)).nodup
  · intro q hq
    have hle : q.ends ≤ nSlots c e := by
      cases hq with
      | head =>
        rw [show (Fuse.Peel.start c x).queue.ends = _ from hstart.queue.ends]
        exact hstart.inv.length_le
      | tail _ hq =>
        obtain ⟨s, hs, rfl⟩ := List.mem_map.mp hq
        exact hran.ends s hs
    have hbytes := h.setBytes
    have hfits := h.sized.fits
    have hsets : e.size.toNat * (fuseSegments + 2) = nSlots c e := by
      unfold nSlots
      rw [hv]
      exact Nat.mul_comm _ _
    unfold Fuse.XorQueue.nBytes
    rw [hsets, RegisterSize.wrap_of_lt (by omega)]
    refine inBuffer_allocated hle ?_
    rw [Nat.mul_assoc] at hbytes
    omega
  · intro s hs
    have hend := hran.endOffset s hs
    have hbytes := h.stackBytes
    rw [hv, stackCells] at hbytes
    unfold Fuse.XorStack.nBytes
    rw [RegisterSize.wrap_of_lt (by have := h.stack hv; omega)]
    exact inBuffer_allocated (by omega) (by rwa [Nat.mul_comm histogram])

end

theorem two_dvd_wrap {n : Nat} (h : 2 ∣ n) : 2 ∣ r.wrap n :=
  (Nat.dvd_mod_iff (dvd_pow_self 2 (Nat.ne_of_gt r.bits_pos))).mpr h

theorem wrap_even_add_two_le {n : Nat} (h : 2 ∣ n) : r.wrap n + 2 ≤ 2 ^ r.bits := by
  have hlt : r.wrap n < 2 ^ r.bits := Nat.mod_lt _ (Nat.two_pow_pos _)
  obtain ⟨a, ha⟩ := two_dvd_wrap (r := r) h
  obtain ⟨b, hb⟩ := dvd_pow_self 2 (Nat.ne_of_gt r.bits_pos)
  omega

/-- When nothing wraps, as many hashes are on the stack as there are keys if and only if the 2-core is empty, for
every multiset of hashes, and every buffer suffices. -/
theorem peeling_complete (h : PeelFits c e offset histogram) (seed : r.T) (values : Nat → r.T) :
    PeelsCompletely c e seed offset histogram values := by
  obtain ⟨hx, hexact⟩ := XorSet.fill_spec h.sized seed offset histogram values
  have hcard := card_hashes h seed values
  refine ⟨?_, ?_, ?_, Standard.complete h hcard hx hexact, Fuse.complete h hcard hx hexact⟩
  · rintro x rfl set hash
    have hlt := h.sized.vertex_lt set hash
    rw [hx.slot h.sized]
    unfold XorSet.nBytes
    rw [XorSet.lastOffset_eq h.sized]
    exact inBuffer_allocated (by omega) (by rw [Nat.mul_comm (nSlots c e)]; exact h.setBytes)
  · rw [RegisterSize.wrap_of_lt h.keys]
    exact Loop.countUp_ends Nat.one_pos h.keys _
  · rintro x rfl set
    exact Loop.countUp_ends Nat.two_pos (wrap_even_add_two_le (Nat.dvd_add (two_dvd_wrap ⟨_, Nat.mul_comm _ 2⟩)
      (two_dvd_wrap ⟨_, Nat.mul_comm _ 2⟩))) _

/-! ## A table of more than 2^32 slots -/

theorem peeling_complete_thousand : PeelsCompletely (Filter.bytewise .Standard) (.new .Lemire 1000) 7 10 100
    (fun i => BitVec.ofNat 32 i) :=
  peeling_complete ⟨⟨⟨1000, rfl⟩, by decide, by decide⟩, by decide,
  fun hv => absurd hv (by decide), by decide, by decide⟩ 7 _

theorem XorSet.set_add {x : XorSet r} {set : Fin 3} {hash : r.T} {s i : Nat} (hs : x.slot c set hash = s)
    (h : i ≠ r.wrap (s * 2)) (h' : i ≠ r.wrap (r.wrap (s * 2) + 1)) : (x.add c set hash).set i = x.set i := by
  subst hs
  unfold XorSet.add
  rw [XorSet.set_setCounter, Function.update_of_ne h', XorSet.set_setHash, Function.update_of_ne h]

theorem Fuse.fill_of_counters_ne {x : XorSet r}
    (h : ∀ i < (r.wrap (r.wrap (x.begins 0 * 2) + r.wrap (x.size c * 2)) -
    r.wrap (x.begins 0 * 2)) / 2, x.set (r.wrap (r.wrap (x.begins 0 * 2) + 2 * i + 1)) ≠ 1) :
    (Fuse.XorQueue.fill c x).ends = 0 := by
  unfold Fuse.XorQueue.fill
  rw [List.foldl_ext _ (fun q _ => q) _ fun q i hi => if_neg (h i (List.mem_range.mp hi))]
  simp

theorem Fuse.peel_of_ends_eq_zero {p : Fuse.Peel r} (h : p.queue.ends = 0) (fuel b : Nat) :
    Fuse.Peel.peel c fuel b p = p := by
  cases fuel with
  | zero => rfl
  | succ fuel => exact if_neg (by omega)

theorem Fuse.size_buildStack_of_ends_eq_zero {x : XorSet r} (h : (Fuse.XorQueue.fill c x).ends = 0) :
    (Fuse.buildStack c x).size = 0 := by
  have hpeel := Fuse.peel_of_ends_eq_zero (c := c) (p := Fuse.Peel.start c x) h (2 ^ r.bits) 0
  rw [show Fuse.buildStack c x = _ from congrArg Fuse.Peel.stack hpeel]
  exact Nat.zero_div 2

theorem isTwoCore_singleton (c : Config r) (e : AddresserEntry r) (h : r.T) : IsTwoCore (Incident c e) {h} 0 := by
  have hdeg : deg (Incident c e) {h} (c.vertex e 0 h) = 1 := by
    rw [← Multiset.cons_zero, Peeling.deg_cons, Peeling.deg_zero, if_pos (incident_vertex 0 h)]
  have hpeels : Peeling.Peels (Incident c e) {h} [(h, c.vertex e 0 h)] (({h} : Multiset r.T).erase h) :=
    .cons (Multiset.mem_singleton_self h) (incident_vertex 0 h) hdeg (.nil _)
  rw [← Multiset.cons_zero, Multiset.erase_cons_head] at hpeels
  exact hpeels.isTwoCore fun s => by
    rw [Peeling.deg_zero]
    exact Nat.zero_ne_one

def wideSet : XorSet ._32bit := .new (.new .Lemire 0x2000000) 0

def wideHash : RegisterSize._32bit.T := 0x514e28b7#32

theorem wide_fill : wideSet.fill (Filter.bytewise .Fuse) 0 1 (fun _ => 1) =
    ((wideSet.add (Filter.bytewise .Fuse) 0 wideHash).add (Filter.bytewise .Fuse) 1 wideHash).add
    (Filter.bytewise .Fuse) 2
      wideHash := by
  have hhash : XorSet.hashes (Filter.bytewise .Fuse) wideSet.seed 0 1 (fun _ => 1) = [wideHash] := by decide +kernel
  unfold XorSet.fill
  rw [hhash]
  rfl

/-- The counters are looked for below the cell 2^27, where none of the three is. -/
theorem wide_counter {i : Nat} (hi : i < 2 ^ 27) :
    (wideSet.fill (Filter.bytewise .Fuse) 0 1 fun _ => 1).set i = 0 := by
  rw [wide_fill, XorSet.set_add (s := 3262203322) (by decide +kernel) _ _,
    XorSet.set_add (s := 3224228947) (by decide +kernel) _ _,
    XorSet.set_add (s := 3198327889) (by decide +kernel) _ _]
  · rfl
  all_goals
    simp only [RegisterSize.wrap, RegisterSize.bits]
    omega

theorem not_peeling_complete_wide :
    ¬PeelsCompletely (Filter.bytewise .Fuse) (.new .Lemire 0x2000000) 0 0 1 fun _ => 1 := by
  intro h
  have hsize := (h.fuse rfl).size
  have hends :
      (Fuse.XorQueue.fill (Filter.bytewise .Fuse) (wideSet.fill (Filter.bytewise .Fuse) 0 1 fun _ => 1)).ends =
        0 := by
    have hbegin : (wideSet.fill (Filter.bytewise .Fuse) 0 1 fun _ => 1).begins 0 = 0 := by
      rw [wide_fill]
      rfl
    have hslots : (wideSet.fill (Filter.bytewise .Fuse) 0 1 fun _ => 1).size (Filter.bytewise .Fuse) = 2 ^ 26 := by
      rw [wide_fill]
      decide +kernel
    refine Fuse.fill_of_counters_ne fun i hi => ?_
    rw [hbegin, hslots] at hi
    rw [hbegin, wide_counter]
    · decide
    · simp only [RegisterSize.wrap, RegisterSize.bits] at hi ⊢
      omega
  have hstack :
      (Fuse.buildStack (Filter.bytewise .Fuse) (wideSet.fill (Filter.bytewise .Fuse) 0 1 fun _ => 1)).size = 0 :=
    Fuse.size_buildStack_of_ends_eq_zero hends
  have hcore : IsTwoCore (Incident (Filter.bytewise .Fuse) (.new .Lemire 0x2000000))
      ↑(XorSet.hashes (Filter.bytewise .Fuse) 0 0 1 fun _ => 1) 0 := by
    have hhash : XorSet.hashes (Filter.bytewise .Fuse) 0 0 1 (fun _ => 1) = [wideHash] := by decide +kernel
    rw [hhash]
    exact isTwoCore_singleton _ _ _
  exact absurd (hstack.symm.trans (hsize.mpr hcore)) (by decide)

end PartitionedFilters.Xor

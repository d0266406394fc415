import PartitionedFilters.XorPeeling
import PartitionedFilters.XorSetSound

/-!
# Peeling in the variant `Fuse`

One queue of slots grows while it is read. All three counters of an edge are
decremented, so every slot stays exact, and a slot is queued at most once: its
degree drops to one at most once.
-/

namespace PartitionedFilters.Xor.Fuse

open Function (update)
open Peeling (deg Once Peels)

variable {r : RegisterSize} {c : Config r} {e : AddresserEntry r}

/-! ## Queue and stack -/

structure XorQueue.Holds (q : XorQueue r) (l : List Nat) : Prop where
  ends : q.ends = l.length
  cells : ∀ i, i < l.length → l[i]? = some (q.queue i).toNat

theorem XorQueue.Holds.push {q : XorQueue r} {l : List Nat} (h : q.Holds l) {s : Nat} (hs : s < 2 ^ r.bits)
    (hlen : l.length + 1 < 2 ^ r.bits) : (q.push s).Holds (l ++ [s]) := by
  constructor
  · show r.wrap (q.ends + 1) = _
    rw [h.ends, RegisterSize.wrap_of_lt hlen, List.length_append, List.length_singleton]
  · intro i hi
    show _ = some (update q.queue q.ends (BitVec.ofNat r.bits s) i).toNat
    rw [List.length_append, List.length_singleton] at hi
    rcases Nat.lt_or_ge i l.length with hi' | hi'
    · rw [List.getElem?_append_left hi', Function.update_of_ne (by rw [h.ends]; omega)]
      exact h.cells i hi'
    · obtain rfl : i = l.length := by omega
      rw [List.getElem?_concat_length, h.ends, Function.update_self, BitVec.toNat_ofNat, Nat.mod_eq_of_lt hs]

structure XorStack.Holds (s : XorStack r) (log : List (r.T × Nat)) : Prop where
  endOffset : s.endOffset = 2 * log.length
  cells : ∀ i, i < log.length → log[i]? = some (s.stack (2 * i), (s.stack (2 * i + 1)).toNat)

theorem Peel.push_stack {p : Peel r} {log : List (r.T × Nat)} (h : p.stack.Holds log) (v : r.T) {s : Nat}
    (hs : s < 2 ^ r.bits) (hlen : 2 * (log.length + 1) < 2 ^ r.bits) :
    (p.push v s).stack.Holds (log ++ [(v, s)]) := by
  have hend : r.wrap (p.stack.endOffset + 1) = 2 * log.length + 1 := by
    rw [h.endOffset, RegisterSize.wrap_of_lt (by omega)]
  constructor
  · show r.wrap (r.wrap (p.stack.endOffset + 1) + 1) = _
    rw [hend, RegisterSize.wrap_of_lt (by omega), List.length_append, List.length_singleton]
    omega
  · intro i hi
    show _ = some (update (update p.stack.stack p.stack.endOffset v) (r.wrap (p.stack.endOffset + 1))
      (BitVec.ofNat r.bits s) (2 * i), (update (update p.stack.stack p.stack.endOffset v)
      (r.wrap (p.stack.endOffset + 1)) (BitVec.ofNat r.bits s) (2 * i + 1)).toNat)
    rw [hend, h.endOffset]
    rw [List.length_append, List.length_singleton] at hi
    rcases Nat.lt_or_ge i log.length with hi' | hi'
    · rw [List.getElem?_append_left hi', Function.update_of_ne (by omega), Function.update_of_ne (by omega),
        Function.update_of_ne (by omega), Function.update_of_ne (by omega)]
      exact h.cells i hi'
    · obtain rfl : i = log.length := by omega
      rw [List.getElem?_concat_length, Function.update_of_ne (by omega), Function.update_self, Function.update_self,
        BitVec.toNat_ofNat, Nat.mod_eq_of_lt hs]

/-! ## The invariant -/

/-- `R` is left of the edges `R₀`, `log` is on the stack, and of the queue `done` was read and `todo` was not. -/
structure Inv (c : Config r) (e : AddresserEntry r) (R₀ R : Multiset r.T) (log : List (r.T × Nat)) (x : XorSet r)
    (done todo : List Nat) : Prop where
  layout : XorSet.For e x
  peels : Peels (Incident c e) R₀ log R
  exact : ∀ s < nSlots c e, x.Exact c e R s
  nodup : (done ++ todo).Nodup
  bound : ∀ s ∈ done ++ todo, s < nSlots c e
  single : ∀ s ∈ done ++ todo, deg (Incident c e) R s ≤ 1
  queued : ∀ s, deg (Incident c e) R s = 1 → s ∈ todo

section
variable {R₀ R : Multiset r.T} {log : List (r.T × Nat)} {x : XorSet r} {done todo : List Nat}

theorem Inv.card_lt (h : Inv c e R₀ R log x done todo) (hR : Multiset.card R₀ < 2 ^ r.bits) :
    Multiset.card R < 2 ^ r.bits :=
  Nat.lt_of_le_of_lt (Multiset.card_le_card h.peels.le) hR

theorem Inv.length_le (h : Inv c e R₀ R log x done todo) : (done ++ todo).length ≤ nSlots c e :=
  length_le_of_nodup h.nodup fun s hs => ⟨Nat.zero_le s, Nat.zero_add _ ▸ h.bound s hs⟩

theorem Inv.skip {s : Nat} {t : List Nat} (h : Inv c e R₀ R log x done (s :: t)) (hs : deg (Incident c e) R s ≠ 1) :
    Inv c e R₀ R log x (done ++ [s]) t := by
  have hassoc : done ++ [s] ++ t = done ++ s :: t := List.append_cons done s t ▸ rfl
  refine ⟨h.layout, h.peels, h.exact, hassoc ▸ h.nodup, hassoc ▸ h.bound, hassoc ▸ h.single, fun s' hs' => ?_⟩
  have hmem := h.queued s' hs'
  cases hmem with
  | head => exact absurd hs' hs
  | tail _ hmem => exact hmem

def queuedSlots (c : Config r) (e : AddresserEntry r) (R : Multiset r.T) (h : r.T) : List Nat :=
  [c.vertex e 0 h, c.vertex e 1 h, c.vertex e 2 h].filter fun s => deg (Incident c e) R s = 1

theorem mem_queuedSlots {h : r.T} {s : Nat} :
    s ∈ queuedSlots c e R h ↔ Incident c e h s ∧ deg (Incident c e) R s = 1 := by
  unfold queuedSlots
  rw [List.mem_filter, decide_eq_true_eq, incident_iff]
  simp only [List.mem_cons, List.not_mem_nil, or_false]

theorem nodup_vertices (hz : Sized c e) (h : r.T) : [c.vertex e 0 h, c.vertex e 1 h, c.vertex e 2 h].Nodup := by
  have h01 : c.vertex e 0 h ≠ c.vertex e 1 h := fun h => absurd (hz.vertex_inj h) (by decide)
  have h02 : c.vertex e 0 h ≠ c.vertex e 2 h := fun h => absurd (hz.vertex_inj h) (by decide)
  have h12 : c.vertex e 1 h ≠ c.vertex e 2 h := fun h => absurd (hz.vertex_inj h) (by decide)
  simp [h01, h02, h12]

theorem Inv.peel (hz : Sized c e) {s : Nat} {t : List Nat} (h : Inv c e R₀ R log x done (s :: t)) {v : r.T}
    (hR : v ∈ R) (hinc : Incident c e v s) (hs : deg (Incident c e) R s = 1) {x' : XorSet r} (hx : XorSet.For e x')
    (hx' : ∀ s < nSlots c e, x'.Exact c e (R.erase v) s) :
    Inv c e R₀ (R.erase v) (log ++ [(v, s)]) x' (done ++ [s]) (t ++ queuedSlots c e (R.erase v) v) := by
  have hassoc : done ++ [s] ++ (t ++ queuedSlots c e (R.erase v) v) =
      (done ++ s :: t) ++ queuedSlots c e (R.erase v) v := by simp
  have hdeg := fun s => Peeling.deg_erase (Incident c e) hR s
  refine ⟨hx, h.peels.snoc hR hinc hs, hx', ?_, ?_, ?_, ?_⟩
  · rw [hassoc, List.nodup_append']
    refine ⟨h.nodup, (nodup_vertices hz v).filter _, fun a ha ha' => ?_⟩
    -- a slot queued now had two edges
    obtain ⟨hi, h1⟩ := mem_queuedSlots.mp ha'
    have h2 := h.single a ha
    have h3 := hdeg a
    rw [h1, if_pos hi] at h3
    omega
  · rw [hassoc]
    intro a ha
    rcases List.mem_append.mp ha with ha | ha
    · exact h.bound a ha
    · obtain ⟨⟨j, rfl⟩, -⟩ := mem_queuedSlots.mp ha
      exact hz.vertex_lt j v
  · rw [hassoc]
    intro a ha
    rcases List.mem_append.mp ha with ha | ha
    · exact Nat.le_trans (Peeling.deg_mono (Multiset.erase_le v R) a) (h.single a ha)
    · exact Nat.le_of_eq (mem_queuedSlots.mp ha).2
  · intro a ha
    by_cases hi : Incident c e v a
    · exact List.mem_append_right _ (mem_queuedSlots.mpr ⟨hi, ha⟩)
    · have h3 := hdeg a
      rw [ha, if_neg hi] at h3
      have hmem := h.queued a h3
      cases hmem with
      | head => exact absurd hinc hi
      | tail _ hmem => exact List.mem_append_left _ hmem

/-! ## One entry -/

theorem removed_entry (hz : Sized c e) (hexact : ∀ s < nSlots c e, x.Exact c e R s) {v : r.T}
    (hR : v ∈ R) {s0 s1 s2 : Nat} (hs0 : c.vertex e 0 v = s0) (hs1 : c.vertex e 1 v = s1)
    (hs2 : c.vertex e 2 v = s2) {h0 h1 h2 c0 c1 c2 : r.T} (hh0 : x.hashAt s0 ^^^ v = h0)
    (hh1 : x.hashAt s1 ^^^ v = h1) (hh2 : x.hashAt s2 ^^^ v = h2)
    (hc0 : x.counterAt s0 - 1 = c0) (hc1 : x.counterAt s1 - 1 = c1) (hc2 : x.counterAt s2 - 1 = c2) :
    ∀ s < nSlots c e,
    ((((((x.setHash s0 h0).setHash s1 h1).setHash s2 h2).setCounter s0 c0).setCounter s1 c1).setCounter
      s2 c2).Exact c e (R.erase v) s := by
  intro s hs
  have hi0 := hz.index_lt (hz.vertex_lt 0 v)
  have hi1 := hz.index_lt (hz.vertex_lt 1 v)
  have hi2 := hz.index_lt (hz.vertex_lt 2 v)
  rw [hs0] at hi0
  rw [hs1] at hi1
  rw [hs2] at hi2
  have hi := hz.index_lt hs
  have hex := hexact s hs
  have hdeg := Peeling.deg_erase (Incident c e) hR s
  have hcomb := combined_erase (c := c) (e := e) hR s
  have hinc : Incident c e v s ↔ s = s0 ∨ s = s1 ∨ s = s2 := by rw [incident_iff, hs0, hs1, hs2]
  constructor
  · rw [XorSet.counterAt_setCounter hi2 hi, XorSet.counterAt_setCounter hi1 hi, XorSet.counterAt_setCounter hi0 hi,
      XorSet.counterAt_setHash hi2 hi, XorSet.counterAt_setHash hi1 hi, XorSet.counterAt_setHash hi0 hi]
    by_cases he2 : s = s2
    · rw [if_pos (hinc.mpr (.inr (.inr he2)))] at hdeg
      rw [if_pos he2, ← hc2, ← he2, hex.counter, hdeg, ofNat_succ_sub_one]
    · by_cases he1 : s = s1
      · rw [if_pos (hinc.mpr (.inr (.inl he1)))] at hdeg
        rw [if_neg he2, if_pos he1, ← hc1, ← he1, hex.counter, hdeg, ofNat_succ_sub_one]
      · by_cases he0 : s = s0
        · rw [if_pos (hinc.mpr (.inl he0))] at hdeg
          rw [if_neg he2, if_neg he1, if_pos he0, ← hc0, ← he0, hex.counter, hdeg, ofNat_succ_sub_one]
        · rw [if_neg (by simp [hinc, he0, he1, he2])] at hdeg
          rw [if_neg he2, if_neg he1, if_neg he0, hex.counter, hdeg, Nat.add_zero]
  · rw [XorSet.hashAt_setCounter hi2 hi, XorSet.hashAt_setCounter hi1 hi, XorSet.hashAt_setCounter hi0 hi,
      XorSet.hashAt_setHash hi2 hi, XorSet.hashAt_setHash hi1 hi, XorSet.hashAt_setHash hi0 hi, hcomb]
    by_cases he2 : s = s2
    · rw [if_pos he2, if_pos (hinc.mpr (.inr (.inr he2))), ← hh2, ← he2, hex.hash]
    · by_cases he1 : s = s1
      · rw [if_neg he2, if_pos he1, if_pos (hinc.mpr (.inr (.inl he1))), ← hh1, ← he1, hex.hash]
      · by_cases he0 : s = s0
        · rw [if_neg he2, if_neg he1, if_pos he0, if_pos (hinc.mpr (.inl he0)), ← hh0, ← he0, hex.hash]
        · rw [if_neg he2, if_neg he1, if_neg he0, if_neg (by simp [hinc, he0, he1, he2]), hex.hash]

/-- The queue after the slots of `l` that pass `P` were pushed. -/
theorem XorQueue.Holds.push_filter {q : XorQueue r} {l : List Nat} (h : q.Holds l) (P : Nat → Prop)
    [DecidablePred P] (m : List Nat) (hm : ∀ s ∈ m, s < 2 ^ r.bits) (hlen : (l ++ m.filter P).length < 2 ^ r.bits) :
    (m.foldl (fun q s => if P s then q.push s else q) q).Holds (l ++ m.filter P) := by
  induction m generalizing q l with
  | nil => rw [List.filter_nil, List.append_nil]; exact h
  | cons s m ih =>
    rw [List.foldl_cons]
    by_cases hs : P s
    · rw [List.filter_cons_of_pos (by simpa using hs), List.append_cons] at hlen ⊢
      rw [if_pos hs]
      refine ih (h.push (hm s List.mem_cons_self) ?_) (fun a ha => hm a (List.mem_cons_of_mem s ha)) hlen
      rw [List.length_append, List.length_append] at hlen
      exact Nat.lt_of_le_of_lt (Nat.le_add_right _ _) hlen
    · rw [List.filter_cons_of_neg (by simpa using hs)] at hlen ⊢
      rw [if_neg hs]
      exact ih h (fun a ha => hm a (List.mem_cons_of_mem s ha)) hlen

theorem Peel.entry_of_ne {p : Peel r} {i : Nat} (h : p.set.counterAt (p.queue.queue i).toNat ≠ 1) :
    p.entry c i = p :=
  if_neg h

theorem Peel.getAddress_vertex (hz : Sized c e) (j : Fin 3) (v : r.T) :
    Peel.getAddress r (c.vertex e j v) = c.vertex e j v := by
  have hlt := hz.vertex_lt j v
  have hfits := hz.fits
  rw [Peel.getAddress, RegisterSize.wrap_of_lt (by omega), Nat.mul_div_cancel _ Nat.two_pos]

theorem Peel.entry_of_one (hz : Sized c e) {p : Peel r} {i : Nat} (hx : XorSet.For e p.set) {s : Nat}
    (hi : (p.queue.queue i).toNat = s) (hs : p.set.counterAt s = 1) {v : r.T} (hv : p.set.hashAt s = v)
    {s0 s1 s2 : Nat} (hs0 : c.vertex e 0 v = s0) (hs1 : c.vertex e 1 v = s1) (hs2 : c.vertex e 2 v = s2) :
    p.entry c i =
      { set := (((((p.set.setHash s0 (p.set.hashAt s0 ^^^ v)).setHash s1 (p.set.hashAt s1 ^^^ v)).setHash s2
          (p.set.hashAt s2 ^^^ v)).setCounter s0 (p.set.counterAt s0 - 1)).setCounter s1
          (p.set.counterAt s1 - 1)).setCounter s2 (p.set.counterAt s2 - 1),
        queue := [s0, s1, s2].foldl (fun q a => if p.set.counterAt a - 1 = 1 then q.push a else q) p.queue,
        stack := (p.push v s).stack } := by
  subst hi hv hs0 hs1 hs2
  unfold Peel.entry
  simp only [hs, if_true, hx.slot hz, Peel.getAddress_vertex hz, Peel.push, List.foldl_cons, List.foldl_nil]

structure Peel.Inv (c : Config r) (e : AddresserEntry r) (R₀ R : Multiset r.T) (log : List (r.T × Nat)) (p : Peel r)
    (done todo : List Nat) : Prop where
  inv : Fuse.Inv c e R₀ R log p.set done todo
  queue : p.queue.Holds (done ++ todo)
  stack : p.stack.Holds log

/-! ## What a part of a run adds -/

theorem XorQueue.Holds.appended {q q' : XorQueue r} {l new : List Nat} (h : q.Holds l) (h' : q'.Holds (l ++ new)) :
    q.appended q' = new := by
  have hlen : q'.ends - q.ends = new.length := by
    rw [h'.ends, h.ends, List.length_append]
    omega
  unfold XorQueue.appended
  rw [hlen, h.ends, ← Nat.zero_add l.length]
  refine map_range'_append fun i hi => ?_
  rw [Nat.zero_add]
  exact h'.cells i hi

theorem XorStack.Holds.pushed {s s' : XorStack r} {l : List (r.T × Nat)} (h : s.Holds log)
    (h' : s'.Holds (log ++ l)) :
    s.pushed s' = l.map Prod.fst := by
  have hlen : s'.endOffset / 2 - s.endOffset / 2 = (l.map Prod.fst).length := by
    rw [h'.endOffset, h.endOffset, List.length_append, List.length_map]
    omega
  unfold XorStack.pushed
  rw [hlen, h.endOffset, Nat.mul_div_cancel_left _ (by decide), ← Nat.zero_add log.length,
    ← List.length_map Prod.fst]
  refine map_range'_append fun i hi => ?_
  rw [← List.map_append, List.length_map] at hi
  rw [← List.map_append, List.getElem?_map, h'.cells i hi, Nat.zero_add]
  rfl

/-- The entries `tr` put the hashes of `l` on the stack, queue slots whose degree drops to one, and stay within a
queue of the slots and a stack of `n` hashes. -/
structure Ran (c : Config r) (e : AddresserEntry r) (n : Nat) (R R' : Multiset r.T) (l : List (r.T × Nat))
    (tr : List (Peel r × Peel r)) : Prop where
  pushed : (tr.flatMap fun s => s.1.stack.pushed s.2.stack) = l.map Prod.fst
  queued : ∀ H, Once (Incident c e) R H →
    Once (Incident c e) R' (H ++ tr.flatMap fun s => s.1.queue.appended s.2.queue)
  ends : ∀ s ∈ tr, s.2.queue.ends ≤ nSlots c e
  endOffset : ∀ s ∈ tr, s.2.stack.endOffset ≤ 2 * n

theorem Ran.nil (c : Config r) (e : AddresserEntry r) (n : Nat) (R : Multiset r.T) : Ran c e n R R [] [] where
  pushed := rfl
  queued H h := by
    rw [List.flatMap_nil, List.append_nil]
    exact h
  ends _ hs := absurd hs List.not_mem_nil
  endOffset _ hs := absurd hs List.not_mem_nil

theorem Ran.append {n : Nat} {R' R'' : Multiset r.T} {l l' : List (r.T × Nat)} {tr tr' : List (Peel r × Peel r)}
    (h : Ran c e n R R' l tr) (h' : Ran c e n R' R'' l' tr') : Ran c e n R R'' (l ++ l') (tr ++ tr') where
  pushed := by rw [List.flatMap_append, h.pushed, h'.pushed, List.map_append]
  queued H hH := by
    rw [List.flatMap_append, ← List.append_assoc]
    exact h'.queued _ (h.queued H hH)
  ends s hs := (List.mem_append.mp hs).elim (h.ends s) (h'.ends s)
  endOffset s hs := (List.mem_append.mp hs).elim (h.endOffset s) (h'.endOffset s)

theorem Ran.single {R' : Multiset r.T} {l : List (r.T × Nat)} {p p' : Peel r} {done' todo' : List Nat}
    (h : p.Inv c e R₀ R log done todo) (h' : p'.Inv c e R₀ R' (log ++ l) done' todo') (new : List Nat)
    (hqueue : done' ++ todo' = (done ++ todo) ++ new)
    (hnew : ∀ H, Once (Incident c e) R H → Once (Incident c e) R' (H ++ new)) :
    Ran c e (Multiset.card R₀) R R' l [(p, p')] where
  pushed := by
    rw [List.flatMap_singleton]
    exact h.stack.pushed h'.stack
  queued H hH := by
    rw [List.flatMap_singleton, h.queue.appended (hqueue ▸ h'.queue)]
    exact hnew H hH
  ends s hs := by
    obtain rfl := List.mem_singleton.mp hs
    rw [h'.queue.ends]
    exact h'.inv.length_le
  endOffset s hs := by
    obtain rfl := List.mem_singleton.mp hs
    rw [h'.stack.endOffset, h'.inv.peels.card]
    exact Nat.mul_le_mul_left 2 (Nat.le_add_right _ _)

theorem once_queuedSlots (hz : Sized c e) {v : r.T} (hR : v ∈ R) (H : List Nat) (h : Once (Incident c e) R H) :
    Once (Incident c e) (R.erase v) (H ++ queuedSlots c e (R.erase v) v) := by
  refine h.append (Multiset.erase_le v R) ((nodup_vertices hz v).filter _) fun s hs => ?_
  obtain ⟨hi, h1⟩ := mem_queuedSlots.mp hs
  have hdeg := Peeling.deg_erase (Incident c e) hR s
  rw [h1, if_pos hi] at hdeg
  omega

theorem Peel.entry_spec (hz : Sized c e) (hcard : Multiset.card R₀ < 2 ^ r.bits) {p : Peel r} {s : Nat}
    {t : List Nat} (h : p.Inv c e R₀ R log done (s :: t)) :
    ∃ R' l t', (p.entry c done.length).Inv c e R₀ R' (log ++ l) (done ++ [s]) t' ∧
      Ran c e (Multiset.card R₀) R R' l [(p, p.entry c done.length)] := by
  have hfits := hz.fits
  have hs : s < nSlots c e := h.inv.bound s (List.mem_append_right _ List.mem_cons_self)
  have hread : (p.queue.queue done.length).toNat = s := by
    have := h.queue.cells done.length (by simp)
    rw [List.getElem?_append_right (Nat.le_refl _), Nat.sub_self] at this
    exact (Option.some.inj this).symm
  have hex := h.inv.exact s hs
  have hassoc : done ++ [s] ++ t = done ++ s :: t := List.append_cons done s t ▸ rfl
  have hone : p.set.counterAt s = 1 ↔ deg (Incident c e) R s = 1 := by
    rw [hex.counter]
    exact ofNat_inj (deg_lt_of_card_lt (h.inv.card_lt hcard) s) (one_lt_two_pow_bits r)
  by_cases hd : deg (Incident c e) R s = 1
  · obtain ⟨hR, hinc⟩ := exists_combined_of_deg_one hd
    rw [Peel.entry_of_one hz h.inv.layout hread (hone.mpr hd) hex.hash rfl rfl rfl]
    generalize combined c e R s = v at hR hinc
    have hnext := h.inv.peel hz hR hinc hd h.inv.layout.setHash.setHash.setHash.setCounter.setCounter.setCounter
      (removed_entry hz h.inv.exact hR rfl rfl rfl rfl rfl rfl rfl rfl rfl)
    have hlen := hnext.length_le
    have hlog := length_log_le hz hnext.peels
    rw [List.length_append, List.length_singleton] at hlog
    have hfilter : queuedSlots c e (R.erase v) v =
        [c.vertex e 0 v, c.vertex e 1 v, c.vertex e 2 v].filter fun a => p.set.counterAt a - 1 = 1 := by
      refine List.filter_congr fun a ha => decide_eq_decide.mpr ?_
      have hia : Incident c e v a := by
        rw [incident_iff]
        simpa using ha
      have hja := Peeling.deg_erase (Incident c e) hR a
      obtain ⟨j, rfl⟩ := hia
      rw [if_pos (incident_vertex j v)] at hja
      rw [(h.inv.exact _ (hz.vertex_lt j v)).counter, hja, ofNat_succ_sub_one]
      exact (ofNat_inj (deg_lt_of_card_lt (hnext.card_lt hcard) _) (one_lt_two_pow_bits r)).symm
    have hpush := h.queue.push_filter (fun a => p.set.counterAt a - 1 = 1)
      [c.vertex e 0 v, c.vertex e 1 v, c.vertex e 2 v] (fun a ha => by
        have h0 := hz.vertex_lt 0 v
        have h1 := hz.vertex_lt 1 v
        have h2 := hz.vertex_lt 2 v
        simp only [List.mem_cons, List.not_mem_nil, or_false] at ha
        omega) (by
        rw [← hfilter, ← hassoc, List.append_assoc (done ++ [s])]
        omega)
    rw [← hfilter, ← hassoc, List.append_assoc (done ++ [s])] at hpush
    refine ⟨R.erase v, [(v, s)], t ++ queuedSlots c e (R.erase v) v, ?inv,
      Ran.single h ?inv _ ?_ (once_queuedSlots hz hR)⟩
    · exact ⟨hnext, hpush, Peel.push_stack h.stack v (by omega) (by omega)⟩
    · rw [← List.append_assoc, hassoc]
  · rw [Peel.entry_of_ne (by rw [hread]; exact fun h1 => hd (hone.mp h1))]
    have hnext : p.Inv c e R₀ R (log ++ []) (done ++ [s]) t := by
      rw [List.append_nil]
      exact ⟨h.inv.skip hd, hassoc ▸ h.queue, h.stack⟩
    refine ⟨R, [], t, hnext, Ran.single h hnext [] ?_ fun H hH => ?_⟩
    · rw [hassoc, List.append_nil]
    · rw [List.append_nil]
      exact hH

/-- The loop ends: it reads every slot at most once. -/
theorem Peel.peel_spec (hz : Sized c e) (hcard : Multiset.card R₀ < 2 ^ r.bits) (fuel : Nat) :
    ∀ {p : Peel r} {R : Multiset r.T} {log : List (r.T × Nat)} {done todo : List Nat},
      p.Inv c e R₀ R log done todo → nSlots c e ≤ done.length + fuel →
      ∃ R' l done', (Peel.peel c fuel done.length p).Inv c e R₀ R' (log ++ l) done' [] ∧
        Ran c e (Multiset.card R₀) R R' l (p.trace c fuel done.length) ∧
        ∃ t, (Peel.loop c).ExitsAt t (done.length, p) ∧
          ((Peel.loop c).body^[t] (done.length, p)).2 = Peel.peel c fuel done.length p := by
  have hends : ∀ {p : Peel r} {R : Multiset r.T} {log : List (r.T × Nat)} {done todo : List Nat},
      p.Inv c e R₀ R log done todo → (done.length < p.queue.ends ↔ todo ≠ []) := by
    intro p R log done todo h
    rw [h.queue.ends, List.length_append, ← List.length_pos_iff]
    omega
  have hdone : ∀ (fuel : Nat) {p : Peel r} {R : Multiset r.T} {log : List (r.T × Nat)} {done : List Nat},
      p.Inv c e R₀ R log done [] → Peel.peel c fuel done.length p = p ∧ p.trace c fuel done.length = [] ∧
        (Peel.loop c).ExitsAt 0 (done.length, p) := by
    intro fuel p R log done h
    have hnot : ¬done.length < p.queue.ends := fun hlt => (hends h).mp hlt rfl
    have hexit : (Peel.loop c).ExitsAt 0 (done.length, p) := .zero (decide_eq_false hnot)
    cases fuel with
    | zero => exact ⟨rfl, rfl, hexit⟩
    | succ fuel => exact ⟨if_neg hnot, if_neg hnot, hexit⟩
  have hnil : ∀ {fuel : Nat} {p : Peel r} {R : Multiset r.T} {log : List (r.T × Nat)} {done : List Nat},
      p.Inv c e R₀ R log done [] →
      ∃ R' l done', (Peel.peel c fuel done.length p).Inv c e R₀ R' (log ++ l) done' [] ∧
        Ran c e (Multiset.card R₀) R R' l (p.trace c fuel done.length) ∧
        ∃ t, (Peel.loop c).ExitsAt t (done.length, p) ∧
          ((Peel.loop c).body^[t] (done.length, p)).2 = Peel.peel c fuel done.length p := by
    intro fuel p R log done h
    obtain ⟨hpeel, htrace, hexit⟩ := hdone fuel h
    rw [hpeel, htrace]
    refine ⟨R, [], done, ?_, Ran.nil .., 0, hexit, rfl⟩
    rw [List.append_nil]
    exact h
  induction fuel with
  | zero =>
    intro p R log done todo h hfuel
    cases todo with
    | nil => exact hnil h
    | cons s t =>
      have := h.inv.length_le
      rw [List.length_append, List.length_cons] at this
      omega
  | succ fuel ih =>
    intro p R log done todo h hfuel
    cases todo with
    | nil => exact hnil h
    | cons s t =>
      have hlt : done.length < p.queue.ends := (hends h).mpr (List.cons_ne_nil s t)
      have hlen : (done ++ [s]).length = done.length + 1 := by rw [List.length_append, List.length_singleton]
      have hle := h.inv.length_le
      have hfits := hz.fits
      rw [List.length_append, List.length_cons] at hle
      have hbody : (Peel.loop c).body (done.length, p) = ((done ++ [s]).length, p.entry c done.length) := by
        rw [hlen]
        exact Prod.ext (RegisterSize.wrap_of_lt (by omega)) rfl
      obtain ⟨R', l, t', h', hran⟩ := Peel.entry_spec hz hcard h
      obtain ⟨R'', l', done'', h'', hran', n, hexit, heq⟩ := ih h' (by omega)
      rw [List.append_assoc] at h''
      have hpeel :
          Peel.peel c (fuel + 1) done.length p = Peel.peel c fuel (done ++ [s]).length (p.entry c done.length) := by
        rw [hlen]
        exact if_pos hlt
      have htrace : p.trace c (fuel + 1) done.length = [(p, p.entry c done.length)] ++
          (p.entry c done.length).trace c fuel (done ++ [s]).length := by
        rw [hlen]
        exact if_pos hlt
      rw [hpeel, htrace]
      refine ⟨R'', l ++ l', done'', h'', hran.append hran', n + 1, .succ (decide_eq_true hlt) (hbody.symm ▸ hexit),
        ?_⟩
      rw [Function.iterate_succ_apply, hbody]
      exact heq

/-! ## The first queue -/

theorem fill_spec (hz : Sized c e) (hv : c.variant = .Fuse) (hcard : Multiset.card R₀ < 2 ^ r.bits)
    (hx : XorSet.For e x) (hexact : ∀ s < nSlots c e, x.Exact c e R₀ s) (stack : Nat → r.T) :
    ({ set := x, queue := XorQueue.fill c x, stack := ⟨0, stack⟩ } : Peel r).Inv c e R₀ R₀ [] []
      ((List.range (nSlots c e)).filter fun s => deg (Incident c e) R₀ s = 1) := by
  have hfits := hz.fits
  have hpos := hz.pos
  have hslots : nSlots c e = e.size.toNat * (fuseSegments + 2) := by
    unfold nSlots
    rw [hv]
    exact Nat.mul_comm _ _
  refine ⟨⟨hx, .nil _, hexact, List.nodup_range.filter _, fun s hs => ?_, fun s hs => ?_, fun s hs => ?_⟩, ?_, rfl,
    fun i hi => absurd hi (Nat.not_lt_zero i)⟩
  · exact List.mem_range.mp (List.mem_of_mem_filter hs)
  · exact Nat.le_of_eq (of_decide_eq_true (List.mem_filter.mp hs).2)
  · obtain ⟨-, j, hj⟩ := exists_combined_of_deg_one hs
    exact List.mem_filter.mpr ⟨List.mem_range.mpr (hj ▸ hz.vertex_lt j _), decide_eq_true hs⟩
  · have hbegin : r.wrap (x.begins 0 * 2) = 0 := by
      rw [hx.begins]
      simp [RegisterSize.wrap]
    have hsize : x.size c = nSlots c e := by
      unfold XorSet.size
      rw [hv, hx.entry, hslots]
      exact RegisterSize.wrap_of_lt (by omega)
    have hend : r.wrap (0 + r.wrap (x.size c * 2)) = 2 * nSlots c e := by
      rw [hsize, Nat.zero_add, RegisterSize.wrap_of_lt (by omega : nSlots c e * 2 < _),
        RegisterSize.wrap_of_lt (by omega), Nat.mul_comm]
    have hempty : XorQueue.Holds ({ ends := 0, queue := fun _ => 0 } : XorQueue r) [] :=
      ⟨rfl, fun i hi => absurd hi (Nat.not_lt_zero i)⟩
    have hlen : ((List.range (nSlots c e)).filter fun s => decide (deg (Incident c e) R₀ s = 1)).length ≤
        nSlots c e :=
      Nat.le_trans (List.length_filter_le _ _) (Nat.le_of_eq List.length_range)
    have hpush := hempty.push_filter (fun s => deg (Incident c e) R₀ s = 1) (List.range (nSlots c e))
      (fun s hs => by have := List.mem_range.mp hs; omega) (by rw [List.nil_append]; omega)
    show (XorQueue.fill c x).Holds _
    unfold XorQueue.fill
    simp only [hbegin, hend]
    rw [Nat.sub_zero, Nat.mul_div_cancel_left _ (by decide : 0 < 2)]
    refine (List.foldl_ext _ _ _ fun q s hs => ?_) ▸ hpush
    have hs' := List.mem_range.mp hs
    have hcount : x.counterAt s = x.set (r.wrap (0 + 2 * s + 1)) := by
      rw [XorSet.counterAt_eq (hz.index_lt hs'), Nat.zero_add, RegisterSize.wrap_of_lt (hz.index_lt hs')]
    rw [Nat.zero_add, Nat.mul_div_cancel_left _ (by decide : 0 < 2)]
    refine if_congr ?_ rfl rfl
    rw [Nat.zero_add] at hcount
    rw [← hcount, (hexact s hs').counter]
    exact (ofNat_inj (deg_lt_of_card_lt hcard s) (one_lt_two_pow_bits r)).symm

/-- The stack of a whole build: it peels the edges and gets stuck only at edges that cannot be peeled. -/
structure Built (c : Config r) (e : AddresserEntry r) (R₀ : Multiset r.T) (s : XorStack r) (log : List (r.T × Nat))
    (R' : Multiset r.T) : Prop where
  peels : Peels (Incident c e) R₀ log R'
  stuck : ∀ s, deg (Incident c e) R' s ≠ 1
  stack : s.Holds log
  size : s.size = log.length

theorem once_start (hz : Sized c e) (hv : c.variant = .Fuse) (hcard : Multiset.card R₀ < 2 ^ r.bits)
    (hx : XorSet.For e x) (hexact : ∀ s < nSlots c e, x.Exact c e R₀ s) :
    Once (Incident c e) R₀ (({ ends := 0, queue := fun _ => 0 } : XorQueue r).appended (Peel.start c x).queue) := by
  have h := fill_spec hz hv hcard hx hexact fun _ => 0
  have hempty : XorQueue.Holds ({ ends := 0, queue := fun _ => 0 } : XorQueue r) [] :=
    ⟨rfl, fun i hi => absurd hi (Nat.not_lt_zero i)⟩
  have happ : _ = [] ++ _ := hempty.appended h.queue
  exact happ.symm ▸ ⟨h.inv.nodup, h.inv.single⟩

theorem buildStack_ran (hz : Sized c e) (hv : c.variant = .Fuse) (hcard : Multiset.card R₀ < 2 ^ r.bits)
    (hx : XorSet.For e x) (hexact : ∀ s < nSlots c e, x.Exact c e R₀ s) :
    ∃ log R', Built c e R₀ (buildStack c x) log R' ∧
      Ran c e (Multiset.card R₀) R₀ R' log ((Peel.start c x).trace c (2 ^ r.bits) 0) ∧
      ∃ t, (Peel.loop c).ExitsAt t (0, Peel.start c x) ∧
        ((Peel.loop c).body^[t] (0, Peel.start c x)).2.stack = buildStack c x := by
  have hfits := hz.fits
  obtain ⟨R', log, done, h, hran, t, hexit, heq⟩ := Peel.peel_spec hz hcard (2 ^ r.bits)
    (fill_spec hz hv hcard hx hexact fun _ => 0) (by rw [List.length_nil]; omega)
  rw [List.nil_append] at h
  refine ⟨log, R', ⟨h.inv.peels, fun s hs => List.not_mem_nil (h.inv.queued s hs), h.stack, ?_⟩, hran, t, hexit,
    congrArg Peel.stack heq⟩
  have hend : (buildStack c x).endOffset = 2 * log.length := h.stack.endOffset
  unfold XorStack.size
  rw [hend, Nat.mul_div_cancel_left _ (by decide : 0 < 2)]

end

end PartitionedFilters.Xor.Fuse

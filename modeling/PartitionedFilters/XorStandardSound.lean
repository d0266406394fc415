import PartitionedFilters.XorPeeling
import PartitionedFilters.XorSetSound

/-!
# Peeling in the variant `Standard`

The queue of a set holds the hashes of its slots of degree one. Processing it
leaves the counters of the set as they are, so the slots that were assigned
keep a stale counter; they have no edge left and never come up again.
-/

namespace PartitionedFilters.Xor

open Function (update)
open Peeling (deg Once Peels)

variable {r : RegisterSize} {c : Config r} {e : AddresserEntry r}

/-! ## The three sets in turn -/

structure Turn (set0 set1 set2 : Fin 3) : Prop where
  ne01 : set0 ≠ set1
  ne02 : set0 ≠ set2
  ne12 : set1 ≠ set2

theorem Turn.all {set0 set1 set2 : Fin 3} (h : Turn set0 set1 set2) (j : Fin 3) :
    j = set0 ∨ j = set1 ∨ j = set2 := by
  obtain ⟨h1, h2, h3⟩ := h
  omega

namespace Standard

/-! ## The queue -/

/-- `q` holds the lists `Q`, each from the position `b` on, in the part of its set. -/
structure XorQueue.Holds (e : AddresserEntry r) (q : XorQueue r) (b : Fin 3 → Nat) (Q : Fin 3 → List r.T) :
    Prop where
  begins : ∀ j, q.begins j = j * e.size.toNat
  ends : ∀ j, q.ends j = b j + (Q j).length
  lower : ∀ j, j * e.size.toNat ≤ b j
  upper : ∀ j, b j + (Q j).length ≤ (j + 1) * e.size.toNat
  cells : ∀ j i, i < (Q j).length → (Q j)[i]? = some (q.queue (b j + i))

namespace XorQueue.Holds
variable {q : XorQueue r} {b : Fin 3 → Nat} {Q : Fin 3 → List r.T}

theorem pop (h : q.Holds e b Q) {j : Fin 3} {v : r.T} {t : List r.T} (hj : Q j = v :: t) :
    q.queue (b j) = v ∧ q.Holds e (update b j (b j + 1)) (update Q j t) := by
  have hlen : (Q j).length = t.length + 1 := by rw [hj, List.length_cons]
  refine ⟨?_, ?_⟩
  · have h0 := h.cells j 0 (by omega)
    rw [hj] at h0
    exact (Option.some.inj h0).symm
  · have hcase : ∀ i, i = j ∨ i ≠ j := fun i => eq_or_ne i j
    constructor
    · exact h.begins
    · intro i
      rcases hcase i with rfl | hi
      · rw [Function.update_self, Function.update_self, h.ends, hlen]; omega
      · rw [Function.update_of_ne hi, Function.update_of_ne hi, h.ends]
    · intro i
      rcases hcase i with rfl | hi
      · rw [Function.update_self]; exact Nat.le_succ_of_le (h.lower i)
      · rw [Function.update_of_ne hi]; exact h.lower i
    · intro i
      rcases hcase i with rfl | hi
      · rw [Function.update_self, Function.update_self]; have := h.upper i; omega
      · rw [Function.update_of_ne hi, Function.update_of_ne hi]; exact h.upper i
    · intro i k hk
      rcases hcase i with rfl | hi
      · rw [Function.update_self] at hk
        rw [Function.update_self, Function.update_self]
        have := h.cells i (k + 1) (by omega)
        rw [hj, List.getElem?_cons_succ] at this
        rw [this, Nat.add_right_comm, Nat.add_assoc]
      · rw [Function.update_of_ne hi] at hk
        rw [Function.update_of_ne hi, Function.update_of_ne hi]
        exact h.cells i k hk

theorem part_le {i j : Fin 3} (n : Nat) (h : i < j) : (i + 1 : Nat) * n ≤ j * n := Nat.mul_le_mul_right n h

theorem push (h : q.Holds e b Q) {j : Fin 3} (v : r.T) (hroom : b j + (Q j).length < (j + 1) * e.size.toNat)
    (hfit : 3 * e.size.toNat < 2 ^ r.bits) : (q.push j v).Holds e b (update Q j (Q j ++ [v])) := by
  have hj3 : (j + 1 : Nat) * e.size.toNat ≤ 3 * e.size.toNat := Nat.mul_le_mul_right _ j.isLt
  have hends : q.ends j = b j + (Q j).length := h.ends j
  constructor
  · exact h.begins
  · intro i
    show update q.ends j (r.wrap (q.ends j + 1)) i = _
    rcases eq_or_ne i j with rfl | hi
    · rw [Function.update_self, Function.update_self, hends, RegisterSize.wrap_of_lt (by omega), List.length_append]
      rfl
    · rw [Function.update_of_ne hi, Function.update_of_ne hi]; exact h.ends i
  · exact h.lower
  · intro i
    rcases eq_or_ne i j with rfl | hi
    · rw [Function.update_self, List.length_append]; exact hroom
    · rw [Function.update_of_ne hi]; exact h.upper i
  · intro i k hk
    show _ = some (update q.queue (q.ends j) v (b i + k))
    rcases eq_or_ne i j with rfl | hi
    · rw [Function.update_self] at hk ⊢
      rw [List.length_append, List.length_singleton] at hk
      rcases Nat.lt_or_ge k (Q i).length with hk' | hk'
      · rw [List.getElem?_append_left hk', Function.update_of_ne (by omega)]; exact h.cells i k hk'
      · obtain rfl : k = (Q i).length := by omega
        rw [List.getElem?_concat_length, hends, Function.update_self]
    · rw [Function.update_of_ne hi] at hk ⊢
      -- the cell lies in the part of another set
      have hne : b i + k ≠ q.ends j := by
        have h1 := h.lower i
        have h2 := h.upper i
        have h3 := h.lower j
        rcases Nat.lt_or_gt_of_ne (fun hv => hi (Fin.ext hv)) with hlt | hlt
        · have := part_le e.size.toNat hlt; omega
        · have := part_le e.size.toNat hlt; omega
      rw [Function.update_of_ne hne]
      exact h.cells i k hk

theorem clear (h : q.Holds e b Q) {j : Fin 3} (hj : Q j = []) :
    (q.clear j).Holds e (update b j (j * e.size.toNat)) Q := by
  constructor
  · exact h.begins
  · intro i
    show update q.ends j (q.begins j) i = _
    rcases eq_or_ne i j with rfl | hi
    · rw [Function.update_self, Function.update_self, hj, h.begins]; rfl
    · rw [Function.update_of_ne hi, Function.update_of_ne hi]; exact h.ends i
  · intro i
    rcases eq_or_ne i j with rfl | hi
    · rw [Function.update_self]
    · rw [Function.update_of_ne hi]; exact h.lower i
  · intro i
    rcases eq_or_ne i j with rfl | hi
    · rw [Function.update_self, hj]; exact Nat.mul_le_mul_right _ (Nat.le_succ _)
    · rw [Function.update_of_ne hi]; exact h.upper i
  · intro i k hk
    rcases eq_or_ne i j with rfl | hi
    · rw [hj] at hk; exact absurd hk (Nat.not_lt_zero k)
    · rw [Function.update_of_ne hi]; exact h.cells i k hk

end XorQueue.Holds

/-! ## The invariant -/

/-- `R` is left of the edges `R₀`, `log` was put on the stack with the slots it is assigned to, and the hashes `Q`
are queued. -/
structure Inv (c : Config r) (e : AddresserEntry r) (R₀ R : Multiset r.T) (log : List (r.T × Nat)) (x : XorSet r)
    (Q : Fin 3 → List r.T) : Prop where
  layout : XorSet.For e x
  peels : Peels (Incident c e) R₀ log R
  exact : ∀ s < nSlots c e, s ∉ log.map Prod.snd → x.Exact c e R s
  nodup : ∀ j, ((Q j).map (c.vertex e j)).Nodup
  fresh : ∀ j, ∀ h ∈ Q j, c.vertex e j h ∉ log.map Prod.snd
  single : ∀ j, ∀ h ∈ Q j,
    deg (Incident c e) R (c.vertex e j h) = 0 ∨ deg (Incident c e) R (c.vertex e j h) = 1 ∧ h ∈ R
  queued : ∀ s, deg (Incident c e) R s = 1 → ∃ j, ∃ h ∈ Q j, c.vertex e j h = s

section
variable {R₀ R : Multiset r.T} {log : List (r.T × Nat)} {x : XorSet r} {Q : Fin 3 → List r.T}

/-- In the variant `Standard` the vertex of a set names the set. -/
theorem vertex_eq_of_incident (hz : Sized c e) (hv : c.variant = .Standard) {j : Fin 3} {h h' : r.T}
    (hi : Incident c e h' (c.vertex e j h)) : c.vertex e j h' = c.vertex e j h := by
  obtain ⟨i, hi⟩ := hi
  obtain rfl := hz.set_eq_of_vertex_eq hv hi
  exact hi

theorem length_le (hz : Sized c e) (hv : c.variant = .Standard) {j : Fin 3} {l : List r.T}
    (h : (l.map (c.vertex e j)).Nodup) : l.length ≤ e.size.toNat := by
  have hseg : ∀ x : r.T, (xorSegment c.variant x).toNat = 0 := fun x => by rw [hv]; rfl
  have := length_le_of_nodup h (a := j * e.size.toNat) (n := e.size.toNat) fun s hs => by
    obtain ⟨a, -, rfl⟩ := List.mem_map.mp hs
    have := hz.address_lt j a
    unfold Config.vertex
    rw [hseg]
    omega
  rwa [List.length_map] at this

namespace Inv

theorem skip (h : Inv c e R₀ R log x Q) {j : Fin 3} {v : r.T} {t : List r.T} (hj : Q j = v :: t)
    (h0 : deg (Incident c e) R (c.vertex e j v) = 0) : Inv c e R₀ R log x (update Q j t) := by
  have hsub : ∀ i, ∀ a ∈ update Q j t i, a ∈ Q i := by
    intro i a ha
    rcases eq_or_ne i j with rfl | hi
    · rw [Function.update_self] at ha
      rw [hj]
      exact List.mem_cons_of_mem v ha
    · rwa [Function.update_of_ne hi] at ha
  refine ⟨h.layout, h.peels, h.exact, fun i => ?_, fun i a ha => h.fresh i a (hsub i a ha),
    fun i a ha => h.single i a (hsub i a ha), fun s hs => ?_⟩
  · rcases eq_or_ne i j with rfl | hi
    · have := h.nodup i
      rw [hj, List.map_cons, List.nodup_cons] at this
      rw [Function.update_self]
      exact this.2
    · rw [Function.update_of_ne hi]
      exact h.nodup i
  · obtain ⟨i, a, ha, rfl⟩ := h.queued s hs
    refine ⟨i, a, ?_, rfl⟩
    rcases eq_or_ne i j with rfl | hi
    · rw [Function.update_self]
      rw [hj] at ha
      cases ha with
      | head => rw [h0] at hs; exact absurd hs (by decide)
      | tail _ ha => exact ha
    · rwa [Function.update_of_ne hi]

end Inv

def queuedAt (c : Config r) (e : AddresserEntry r) (R : Multiset r.T) (s : Nat) : List r.T :=
  if deg (Incident c e) R s = 1 then [combined c e R s] else []

/-- The set after the edge `h` was removed from the slots other than `vertex set0 h`. -/
structure Removed (c : Config r) (e : AddresserEntry r) (set0 : Fin 3) (R : Multiset r.T) (h : r.T)
    (x x' : XorSet r) : Prop where
  layout : XorSet.For e x'
  exact : ∀ s < nSlots c e, s ≠ c.vertex e set0 h → x.Exact c e R s → x'.Exact c e (R.erase h) s

def nextQueues (c : Config r) (e : AddresserEntry r) (set0 : Fin 3) (R : Multiset r.T) (h : r.T) (t : List r.T)
    (Q : Fin 3 → List r.T) (j : Fin 3) : List r.T :=
  if j = set0 then t else Q j ++ queuedAt c e (R.erase h) (c.vertex e j h)

theorem mem_queuedAt {s : Nat} {a : r.T} :
    a ∈ queuedAt c e R s ↔ deg (Incident c e) R s = 1 ∧ a = combined c e R s := by
  unfold queuedAt
  split
  · rename_i h
    simp [h]
  · rename_i h
    simp [h]

theorem of_mem_queuedAt_erase (hz : Sized c e) (hv : c.variant = .Standard) {v : r.T} (hR : v ∈ R) {j : Fin 3}
    {a : r.T} (ha : a ∈ queuedAt c e (R.erase v) (c.vertex e j v)) :
    c.vertex e j a = c.vertex e j v ∧ a ∈ R.erase v ∧
      deg (Incident c e) (R.erase v) (c.vertex e j v) = 1 ∧ deg (Incident c e) R (c.vertex e j v) = 2 := by
  obtain ⟨hd, rfl⟩ := mem_queuedAt.mp ha
  obtain ⟨hmem, hinc⟩ := exists_combined_of_deg_one hd
  refine ⟨vertex_eq_of_incident hz hv hinc, hmem, hd, ?_⟩
  rw [Peeling.deg_erase _ hR, hd, if_pos (incident_vertex j v)]

theorem Inv.peel (hz : Sized c e) (hv : c.variant = .Standard) (h : Inv c e R₀ R log x Q) {set0 : Fin 3} {v : r.T}
    {t : List r.T} (hQ : Q set0 = v :: t) (h1 : deg (Incident c e) R (c.vertex e set0 v) = 1) (hR : v ∈ R)
    {x' : XorSet r} (hx' : Removed c e set0 R v x x') :
    Inv c e R₀ (R.erase v) (log ++ [(v, c.vertex e set0 v)]) x' (nextQueues c e set0 R v t Q) := by
  have hnot : ∀ s, s ∉ (log ++ [(v, c.vertex e set0 v)]).map Prod.snd ↔
      s ∉ log.map Prod.snd ∧ s ≠ c.vertex e set0 v := by
    intro s
    rw [List.map_append, List.mem_append, not_or, List.map_singleton, List.mem_singleton]
  have hnodup0 := h.nodup set0
  rw [hQ, List.map_cons, List.nodup_cons] at hnodup0
  have hne0 : ∀ a ∈ t, c.vertex e set0 a ≠ c.vertex e set0 v := fun a ha heq =>
    hnodup0.1 (heq ▸ List.mem_map_of_mem ha)
  -- a slot that was queued keeps its edge or loses it
  have hkeep : ∀ j, ∀ a ∈ Q j, c.vertex e j a ≠ c.vertex e set0 v →
      deg (Incident c e) (R.erase v) (c.vertex e j a) = 0 ∨
        deg (Incident c e) (R.erase v) (c.vertex e j a) = 1 ∧ a ∈ R.erase v := by
    intro j a ha hne
    have hdeg := Peeling.deg_erase (Incident c e) hR (c.vertex e j a)
    rcases h.single j a ha with h0 | ⟨h1, haR⟩
    · exact .inl (by omega)
    · by_cases hinc : Incident c e v (c.vertex e j a)
      · rw [if_pos hinc] at hdeg
        exact .inl (by omega)
      · rw [if_neg hinc] at hdeg
        have hav : a ≠ v := fun hav => hinc (hav ▸ incident_vertex j a)
        exact .inr ⟨by omega, (Multiset.mem_erase_of_ne hav).mpr haR⟩
  have hnew := fun (j : Fin 3) (a : r.T) (ha : a ∈ queuedAt c e (R.erase v) (c.vertex e j v)) =>
    of_mem_queuedAt_erase hz hv hR ha
  have hmem : ∀ j, ∀ a ∈ nextQueues c e set0 R v t Q j, c.vertex e j a ≠ c.vertex e set0 v ∧
      (a ∈ Q j ∨ j ≠ set0 ∧ a ∈ queuedAt c e (R.erase v) (c.vertex e j v)) := by
    intro j a ha
    unfold nextQueues at ha
    split at ha
    · rename_i hj
      subst hj
      exact ⟨hne0 a ha, .inl (hQ ▸ List.mem_cons_of_mem v ha)⟩
    · rename_i hj
      refine ⟨fun heq => hj (hz.set_eq_of_vertex_eq hv heq), ?_⟩
      rcases List.mem_append.mp ha with ha | ha
      · exact .inl ha
      · exact .inr ⟨hj, ha⟩
  refine ⟨hx'.layout, h.peels.snoc hR (incident_vertex set0 v) h1, ?_, ?_, ?_, ?_, ?_⟩
  · intro s hs hlog
    rw [hnot] at hlog
    exact hx'.exact s hs hlog.2 (h.exact s hs hlog.1)
  · intro j
    unfold nextQueues
    split
    · rename_i hj
      subst hj
      exact hnodup0.2
    · rw [List.map_append, List.nodup_append']
      refine ⟨h.nodup j, ?_, ?_⟩
      · unfold queuedAt
        split
        · exact List.nodup_singleton _
        · exact List.nodup_nil
      · intro s hs hs'
        obtain ⟨a, ha, rfl⟩ := List.mem_map.mp hs
        obtain ⟨b, hb, hab⟩ := List.mem_map.mp hs'
        obtain ⟨heq, -, -, h2⟩ := hnew j b hb
        rw [← heq, hab] at h2
        rcases h.single j a ha with h0 | ⟨h0, -⟩
        · omega
        · omega
  · intro j a ha
    rw [hnot]
    obtain ⟨hne, hQ' | ⟨-, hq⟩⟩ := hmem j a ha
    · exact ⟨h.fresh j a hQ', hne⟩
    · obtain ⟨heq, -, -, h2⟩ := hnew j a hq
      refine ⟨fun hlog => ?_, hne⟩
      obtain ⟨b, hb, hbs⟩ := List.mem_map.mp hlog
      have := h.peels.deg_of_mem b hb
      rw [hbs, heq] at this
      omega
  · intro j a ha
    obtain ⟨hne, hQ' | ⟨-, hq⟩⟩ := hmem j a ha
    · exact hkeep j a hQ' hne
    · obtain ⟨heq, haR, h1, -⟩ := hnew j a hq
      rw [heq]
      exact .inr ⟨h1, haR⟩
  · intro s hs
    have hdeg := Peeling.deg_erase (Incident c e) hR s
    by_cases hinc : Incident c e v s
    · obtain ⟨j, rfl⟩ := hinc
      have hj : j ≠ set0 := by
        rintro rfl
        rw [Peeling.deg_erase_of_inc hR (incident_vertex j v), h1] at hs
        exact absurd hs (by decide)
      obtain ⟨-, hinc⟩ := exists_combined_of_deg_one hs
      refine ⟨j, _, ?_, vertex_eq_of_incident hz hv hinc⟩
      unfold nextQueues queuedAt
      rw [if_neg hj, if_pos hs]
      exact List.mem_append_right _ List.mem_cons_self
    · rw [if_neg hinc, Nat.add_zero] at hdeg
      obtain ⟨j, a, ha, rfl⟩ := h.queued s (hdeg.trans hs)
      refine ⟨j, a, ?_, rfl⟩
      unfold nextQueues
      split
      · rename_i hj
        subst hj
        rw [hQ] at ha
        cases ha with
        | head => exact absurd (incident_vertex j v) hinc
        | tail _ ha => exact ha
      · exact List.mem_append_left _ ha

/-! ## One entry -/

structure Stacked (run : Nat) (stack : Nat → r.T) (log : List (r.T × Nat)) : Prop where
  run : run = log.length
  cells : ∀ i, i < log.length → log[i]?.map Prod.fst = some (stack i)

theorem Stacked.push {run : Nat} {stack : Nat → r.T} (h : Stacked run stack log) (a : r.T × Nat)
    (hfit : log.length + 1 < 2 ^ r.bits) : Stacked (r.wrap (run + 1)) (update stack run a.1) (log ++ [a]) := by
  constructor
  · rw [h.run, RegisterSize.wrap_of_lt hfit, List.length_append, List.length_singleton]
  · intro i hi
    rw [List.length_append, List.length_singleton] at hi
    rcases Nat.lt_or_ge i log.length with hi' | hi'
    · rw [List.getElem?_append_left hi', Function.update_of_ne (by rw [h.run]; omega)]
      exact h.cells i hi'
    · obtain rfl : i = log.length := by omega
      rw [List.getElem?_concat_length, h.run, Function.update_self]
      rfl

theorem Inv.card_lt (h : Inv c e R₀ R log x Q) (hR : Multiset.card R₀ < 2 ^ r.bits) :
    Multiset.card R < 2 ^ r.bits :=
  Nat.lt_of_le_of_lt (Multiset.card_le_card h.peels.le) hR

theorem XorQueue.Holds.push_if (hz : Sized c e) (hv : c.variant = .Standard) {q : XorQueue r} {b : Fin 3 → Nat}
    (h : q.Holds e b Q) {j : Fin 3} (hb : b j = j * e.size.toNat) (R : Multiset r.T) (s : Nat)
    (hnodup : ((Q j ++ queuedAt c e R s).map (c.vertex e j)).Nodup) {v : r.T} (hv' : v = combined c e R s)
    {P : Prop} [Decidable P] (hP : P ↔ deg (Incident c e) R s = 1) :
    (if P then q.push j v else q).Holds e b (update Q j (Q j ++ queuedAt c e R s)) := by
  have hfit := hz.fits
  have hsets : nSlots c e = 3 * e.size.toNat := by unfold nSlots; rw [hv]; rfl
  unfold queuedAt at hnodup ⊢
  by_cases hd : deg (Incident c e) R s = 1
  · have hlen := length_le hz hv hnodup
    rw [if_pos hd, List.length_append, List.length_singleton] at hlen
    rw [if_pos (hP.mpr hd), if_pos hd, hv']
    refine h.push _ ?_ (by omega)
    rw [hb, Nat.add_mul]
    omega
  · rw [if_neg (fun hp => hd (hP.mp hp)), if_neg hd, List.append_nil, Function.update_eq_self]
    exact h

theorem removed_entry (hz : Sized c e) (hx : XorSet.For e x) {set0 set1 set2 : Fin 3} (ht : Turn set0 set1 set2)
    {v : r.T} (hR : v ∈ R) {h1 h2 c1 c2 : r.T} (hh1 : h1 = x.hashAt (c.vertex e set1 v) ^^^ v)
    (hh2 : h2 = x.hashAt (c.vertex e set2 v) ^^^ v) (hc1 : c1 = x.counterAt (c.vertex e set1 v) - 1)
    (hc2 : c2 = x.counterAt (c.vertex e set2 v) - 1) :
    Removed c e set0 R v x ((((x.setHash (c.vertex e set1 v) h1).setHash (c.vertex e set2 v) h2).setCounter
      (c.vertex e set1 v) c1).setCounter (c.vertex e set2 v) c2) := by
  refine ⟨hx.setHash.setHash.setCounter.setCounter, fun s hs hne hex => ?_⟩
  have hi1 := hz.index_lt (hz.vertex_lt set1 v)
  have hi2 := hz.index_lt (hz.vertex_lt set2 v)
  have hi := hz.index_lt hs
  have h12 : c.vertex e set1 v ≠ c.vertex e set2 v := fun heq => ht.ne12 (hz.vertex_inj heq)
  have hinc : Incident c e v s ↔ s = c.vertex e set1 v ∨ s = c.vertex e set2 v := by
    constructor
    · rintro ⟨j, rfl⟩
      rcases ht.all j with rfl | rfl | rfl
      · exact absurd rfl hne
      · exact .inl rfl
      · exact .inr rfl
    · rintro (rfl | rfl)
      · exact incident_vertex set1 v
      · exact incident_vertex set2 v
  have hdeg := Peeling.deg_erase (Incident c e) hR s
  constructor
  · rw [XorSet.counterAt_setCounter hi2 hi, XorSet.counterAt_setCounter hi1 hi, XorSet.counterAt_setHash hi2 hi,
      XorSet.counterAt_setHash hi1 hi]
    by_cases hs2 : s = c.vertex e set2 v
    · rw [if_pos (hinc.mpr (.inr hs2))] at hdeg
      rw [if_pos hs2, hc2, ← hs2, hex.counter, hdeg, ofNat_succ_sub_one]
    · rw [if_neg hs2]
      by_cases hs1 : s = c.vertex e set1 v
      · rw [if_pos (hinc.mpr (.inl hs1))] at hdeg
        rw [if_pos hs1, hc1, ← hs1, hex.counter, hdeg, ofNat_succ_sub_one]
      · rw [if_neg (fun h => (hinc.mp h).elim hs1 hs2), Nat.add_zero] at hdeg
        rw [if_neg hs1, hex.counter, hdeg]
  · rw [XorSet.hashAt_setCounter hi2 hi, XorSet.hashAt_setCounter hi1 hi, XorSet.hashAt_setHash hi2 hi,
      XorSet.hashAt_setHash hi1 hi, combined_erase hR]
    by_cases hs2 : s = c.vertex e set2 v
    · rw [if_pos hs2, if_pos (hinc.mpr (.inr hs2)), hh2, ← hs2, hex.hash]
    · rw [if_neg hs2]
      by_cases hs1 : s = c.vertex e set1 v
      · rw [if_pos hs1, if_pos (hinc.mpr (.inl hs1)), hh1, ← hs1, hex.hash]
      · rw [if_neg hs1, if_neg (fun h => (hinc.mp h).elim hs1 hs2), hex.hash]

theorem Peel.entry_of_zero {set0 set1 set2 : Fin 3} {p : Peel r} {i : Nat}
    (h : p.set.counterAt (p.set.slot c set0 (p.queue.queue i)) = 0) : p.entry c set0 set1 set2 i = p := if_pos h

theorem Peel.entry_of_ne (hz : Sized c e) {set0 set1 set2 : Fin 3} {p : Peel r} {i : Nat} (hx : XorSet.For e p.set)
    {v : r.T} (hi : p.queue.queue i = v) (h : p.set.counterAt (c.vertex e set0 v) ≠ 0) {s1 s2 : Nat}
    {h1 h2 c1 c2 : r.T}
    (hs1 : c.vertex e set1 v = s1) (hs2 : c.vertex e set2 v = s2) (hh1 : p.set.hashAt s1 ^^^ v = h1)
    (hh2 : p.set.hashAt s2 ^^^ v = h2) (hc1 : p.set.counterAt s1 - 1 = c1) (hc2 : p.set.counterAt s2 - 1 = c2) :
    p.entry c set0 set1 set2 i =
      { set := (((p.set.setHash s1 h1).setHash s2 h2).setCounter s1 c1).setCounter s2 c2,
        queue := if c2 = 1 then (if c1 = 1 then p.queue.push set1 h1 else p.queue).push set2 h2
          else if c1 = 1 then p.queue.push set1 h1 else p.queue,
        run := r.wrap (p.run + 1), stack := update p.stack p.run v } := by
  subst hs1 hs2 hh1 hh2 hc1 hc2
  have hi1 := hz.index_lt (hz.vertex_lt set1 v)
  have hi2 := hz.index_lt (hz.vertex_lt set2 v)
  unfold Peel.entry
  simp only [hi, hx.slot hz, if_neg h, Peel.push, XorSet.counterAt_setHash hi1 hi1,
    XorSet.counterAt_setHash hi1 hi2, XorSet.counterAt_setHash hi2 hi1, XorSet.counterAt_setHash hi2 hi2]

/-! ## What a part of a run adds -/

theorem XorQueue.Holds.appended {q q' : XorQueue r} {b' : Fin 3 → Nat} {Q' : Fin 3 → List r.T}
    (h' : q'.Holds e b' Q') {j : Fin 3} {l new : List r.T} (hends : q.ends j = b' j + l.length)
    (hQ : Q' j = l ++ new) : q.appended q' j = new := by
  have hlen : q'.ends j - q.ends j = new.length := by
    rw [h'.ends, hends, hQ, List.length_append]
    omega
  unfold XorQueue.appended
  rw [hlen, hends]
  exact map_range'_append fun i hi => by
    rw [← hQ] at hi ⊢
    exact h'.cells j i hi

theorem Stacked.pushed {p p' : Peel r} (h : Stacked p.run p.stack log) {l : List (r.T × Nat)}
    (h' : Stacked p'.run p'.stack (log ++ l)) : p.pushed p' = l.map Prod.fst := by
  have hlen : p'.run - p.run = (l.map Prod.fst).length := by
    rw [h.run, h'.run, List.length_append, List.length_map]
    omega
  unfold Peel.pushed
  rw [hlen, h.run, ← Nat.zero_add log.length, ← List.length_map Prod.fst]
  refine map_range'_append fun i hi => ?_
  rw [← List.map_append, List.length_map] at hi
  rw [← List.map_append, List.getElem?_map, h'.cells i hi, Nat.zero_add]

/-- The entries `tr` put the hashes of `l` on the stack, queue slots whose degree drops to one, and stay within the
queues of the slots and a stack of `n` hashes. -/
structure Ran (c : Config r) (e : AddresserEntry r) (n : Nat) (R R' : Multiset r.T) (l : List (r.T × Nat))
    (tr : List (Peel r × Peel r)) : Prop where
  pushed : (tr.flatMap fun s => s.1.pushed s.2) = l.map Prod.fst
  queued : ∀ H, Once (Incident c e) R H →
    Once (Incident c e) R' (H ++ tr.flatMap fun s => s.1.queue.queued c s.2.set s.2.queue)
  ends : ∀ s ∈ tr, ∀ j, s.2.queue.ends j ≤ (j + 1) * e.size.toNat
  run : ∀ s ∈ tr, s.2.run ≤ n

theorem Ran.nil (c : Config r) (e : AddresserEntry r) (n : Nat) (R : Multiset r.T) : Ran c e n R R [] [] where
  pushed := rfl
  queued H h := by
    rw [List.flatMap_nil, List.append_nil]
    exact h
  ends _ hs := absurd hs List.not_mem_nil
  run _ hs := absurd hs List.not_mem_nil

theorem Ran.append {n : Nat} {R' R'' : Multiset r.T} {l l' : List (r.T × Nat)} {tr tr' : List (Peel r × Peel r)}
    (h : Ran c e n R R' l tr) (h' : Ran c e n R' R'' l' tr') : Ran c e n R R'' (l ++ l') (tr ++ tr') where
  pushed := by rw [List.flatMap_append, h.pushed, h'.pushed, List.map_append]
  queued H hH := by
    rw [List.flatMap_append, ← List.append_assoc]
    exact h'.queued _ (h.queued H hH)
  ends s hs := (List.mem_append.mp hs).elim (h.ends s) (h'.ends s)
  run s hs := (List.mem_append.mp hs).elim (h.run s) (h'.run s)

/-- What a part of the processing of the queue of `set0` adds to `log`, entry by entry in `tr`. -/
structure Entered (c : Config r) (e : AddresserEntry r) (R₀ R : Multiset r.T) (set0 : Fin 3)
    (log : List (r.T × Nat)) (Q : Fin 3 → List r.T) (b' : Fin 3 → Nat) (t : List r.T) (tr : List (Peel r × Peel r))
    (p' : Peel r) : Prop where
  ex : ∃ R' log' Q', Inv c e R₀ R' (log ++ log') p'.set Q' ∧ p'.queue.Holds e b' Q' ∧
    Stacked p'.run p'.stack (log ++ log') ∧ Q' set0 = t ∧ (∀ a ∈ log', a.2 = c.vertex e set0 a.1) ∧
    (log' = [] → ∀ j, j ≠ set0 → Q' j = Q j) ∧ Ran c e (Multiset.card R₀) R R' log' tr

theorem XorQueue.Holds.ends_le {q : XorQueue r} {b : Fin 3 → Nat} (h : q.Holds e b Q) (j : Fin 3) :
    q.ends j ≤ (j + 1) * e.size.toNat := by
  rw [h.ends]
  exact h.upper j

theorem Stacked.run_le {run : Nat} {stack : Nat → r.T} (h : Stacked run stack log)
    (hp : Peels (Incident c e) R₀ log R) :
    run ≤ Multiset.card R₀ := by
  rw [h.run, hp.card]
  exact Nat.le_add_right _ _

theorem XorQueue.appended_self (q : XorQueue r) (j : Fin 3) : q.appended q j = [] := by
  unfold XorQueue.appended
  rw [Nat.sub_self]
  rfl

theorem XorQueue.queued_self (x : XorSet r) (q : XorQueue r) : q.queued c x q = [] := by
  unfold XorQueue.queued
  simp only [XorQueue.appended_self, List.map_nil, List.flatMap_cons, List.flatMap_nil, List.append_nil]

theorem Ran.skip {n : Nat} {p : Peel r} (hends : ∀ j, p.queue.ends j ≤ (j + 1) * e.size.toNat) (hrun : p.run ≤ n) :
    Ran c e n R R [] [(p, p)] where
  pushed := by simp [Peel.pushed]
  queued H h := by
    rw [List.flatMap_singleton, XorQueue.queued_self, List.append_nil]
    exact h
  ends s hs := by
    obtain rfl := List.mem_singleton.mp hs
    exact hends
  run s hs := by
    obtain rfl := List.mem_singleton.mp hs
    exact hrun

/-- An entry whose edge is removed from the slots other than that of `set0`. -/
theorem Ran.peel (hz : Sized c e) (hv : c.variant = .Standard) {n : Nat} {p p' : Peel r} {set0 : Fin 3} {v : r.T}
    (hR : v ∈ R) (hx : XorSet.For e p'.set) (happ : ∀ j, p.queue.appended p'.queue j =
      if j = set0 then [] else queuedAt c e (R.erase v) (c.vertex e j v))
    (hpush : p.pushed p' = [(v, c.vertex e set0 v)].map Prod.fst)
    (hends : ∀ j, p'.queue.ends j ≤ (j + 1) * e.size.toNat) (hrun : p'.run ≤ n) :
    Ran c e n R (R.erase v) [(v, c.vertex e set0 v)] [(p, p')] := by
  have hmem : ∀ j, ∀ s ∈ (p.queue.appended p'.queue j).map (p'.set.slot c j), s = c.vertex e j v ∧
      deg (Incident c e) (R.erase v) s = 1 ∧ deg (Incident c e) R s = 2 := by
    intro j s hs
    obtain ⟨a, ha, rfl⟩ := List.mem_map.mp hs
    rw [happ] at ha
    split at ha
    · exact absurd ha List.not_mem_nil
    · obtain ⟨heq, -, h1, h2⟩ := of_mem_queuedAt_erase hz hv hR ha
      rw [hx.slot hz, heq]
      exact ⟨rfl, h1, h2⟩
  refine ⟨by rw [List.flatMap_singleton, hpush], fun H hH => ?_, fun s hs => ?_, fun s hs => ?_⟩
  · rw [List.flatMap_singleton]
    refine hH.append (Multiset.erase_le v R) ?_ fun s hs => ?_
    · unfold XorQueue.queued
      rw [List.nodup_flatMap]
      refine ⟨fun j _ => ?_, ?_⟩
      · rw [happ]
        unfold queuedAt
        split
        · exact List.nodup_nil
        · split
          · exact List.nodup_singleton _
          · exact List.nodup_nil
      · refine (by decide : ([0, 1, 2] : List (Fin 3)).Nodup).imp fun {i j} hij s hs hs' => hij ?_
        exact hz.vertex_inj ((hmem i s hs).1.symm.trans (hmem j s hs').1)
    · obtain ⟨j, -, hs⟩ := List.mem_flatMap.mp hs
      obtain ⟨-, h1, h2⟩ := hmem j s hs
      omega
  · obtain rfl := List.mem_singleton.mp hs
    exact hends
  · obtain rfl := List.mem_singleton.mp hs
    exact hrun

theorem Peel.entry_spec (hz : Sized c e) (hv : c.variant = .Standard) (hcard : Multiset.card R₀ < 2 ^ r.bits)
    {set0 set1 set2 : Fin 3} (ht : Turn set0 set1 set2) {p : Peel r} {b : Fin 3 → Nat} {v : r.T} {t : List r.T}
    (hinv : Inv c e R₀ R log p.set Q) (hq : p.queue.Holds e b Q) (hb : ∀ j, j ≠ set0 → b j = j * e.size.toNat)
    (hst : Stacked p.run p.stack log) (hQ : Q set0 = v :: t) :
    Entered c e R₀ R set0 log Q (update b set0 (b set0 + 1)) t [(p, p.entry c set0 set1 set2 (b set0))]
      (p.entry c set0 set1 set2 (b set0)) := by
  have hmem : v ∈ Q set0 := hQ ▸ List.mem_cons_self
  have hi0 := hz.vertex_lt set0 v
  have hex := hinv.exact _ hi0 (hinv.fresh set0 v hmem)
  have hlive : ∀ j, deg (Incident c e) R (c.vertex e j v) ≠ 0 → p.set.Exact c e R (c.vertex e j v) := by
    intro j hj
    refine hinv.exact _ (hz.vertex_lt j v) fun hlog => hj ?_
    obtain ⟨a, ha, hs⟩ := List.mem_map.mp hlog
    rw [← hs]
    exact hinv.peels.deg_of_mem a ha
  obtain ⟨hhash, hpop⟩ := hq.pop hQ
  have hzero : p.set.counterAt (c.vertex e set0 v) = 0 ↔ deg (Incident c e) R (c.vertex e set0 v) = 0 :=
    hex.counter_eq_zero (hinv.card_lt hcard)
  rcases hinv.single set0 v hmem with h0 | ⟨h1, hR⟩
  · -- the edge was removed through another slot
    rw [Peel.entry_of_zero (by rw [hhash, hinv.layout.slot hz]; exact hzero.mpr h0)]
    refine ⟨R, [], update Q set0 t, ?_, hpop, ?_, Function.update_self .., ?_,
      fun _ j hj => Function.update_of_ne hj ..,
      Ran.skip hq.ends_le (hst.run_le hinv.peels)⟩
    · rw [List.append_nil]
      exact hinv.skip hQ h0
    · rw [List.append_nil]
      exact hst
    · exact fun a ha => absurd ha List.not_mem_nil
  · have hne : p.set.counterAt (c.vertex e set0 v) ≠ 0 := fun heq => by
      rw [hzero.mp heq] at h1
      exact absurd h1 (by decide)
    have hdeg : ∀ j, deg (Incident c e) R (c.vertex e j v) ≠ 0 := fun j =>
      Nat.ne_of_gt (Peeling.deg_pos.mpr ⟨v, hR, incident_vertex j v⟩)
    have hnext := hinv.peel hz hv hQ h1 hR (removed_entry hz hinv.layout ht hR rfl rfl rfl rfl)
    have hlen := length_log_le hz hnext.peels
    rw [List.length_append, List.length_singleton] at hlen
    have hfits := hz.fits
    have hhash' : ∀ j, p.set.hashAt (c.vertex e j v) ^^^ v = combined c e (R.erase v) (c.vertex e j v) :=
      fun j => by
      rw [combined_erase hR, if_pos (incident_vertex j v), (hlive j (hdeg j)).hash]
    have hcounter : ∀ j, p.set.counterAt (c.vertex e j v) - 1 = 1 ↔
        deg (Incident c e) (R.erase v) (c.vertex e j v) = 1 := fun j => by
      have hj := Peeling.deg_erase (Incident c e) hR (c.vertex e j v)
      rw [if_pos (incident_vertex j v)] at hj
      rw [(hlive j (hdeg j)).counter, hj, ofNat_succ_sub_one]
      exact ofNat_inj (deg_lt_of_card_lt (hnext.card_lt hcard) _) (one_lt_two_pow_bits r)
    rw [Peel.entry_of_ne hz hinv.layout hhash hne rfl rfl rfl rfl rfl rfl]
    have hQ1 : nextQueues c e set0 R v t Q set1 = Q set1 ++ queuedAt c e (R.erase v) (c.vertex e set1 v) :=
      if_neg ht.ne01.symm
    have hQ2 : nextQueues c e set0 R v t Q set2 = Q set2 ++ queuedAt c e (R.erase v) (c.vertex e set2 v) :=
      if_neg ht.ne02.symm
    have hb' : ∀ j, j ≠ set0 → update b set0 (b set0 + 1) j = j * e.size.toNat := fun j hj => by
      rw [Function.update_of_ne hj]
      exact hb j hj
    have hup1 : update Q set0 t set1 = Q set1 := Function.update_of_ne ht.ne01.symm ..
    have hpush1 := hpop.push_if hz hv (hb' set1 ht.ne01.symm) (R.erase v) (c.vertex e set1 v)
      (by rw [hup1, ← hQ1]; exact hnext.nodup set1) (hhash' set1) (hcounter set1)
    rw [hup1, ← hQ1] at hpush1
    have hup2 : update (update Q set0 t) set1 (nextQueues c e set0 R v t Q set1) set2 = Q set2 := by
      rw [Function.update_of_ne ht.ne12.symm, Function.update_of_ne ht.ne02.symm]
    have hpush2 := hpush1.push_if hz hv (hb' set2 ht.ne02.symm) (R.erase v) (c.vertex e set2 v)
      (by rw [hup2, ← hQ2]; exact hnext.nodup set2) (hhash' set2) (hcounter set2)
    rw [hup2, ← hQ2] at hpush2
    have hall : update (update (update Q set0 t) set1 (nextQueues c e set0 R v t Q set1)) set2
        (nextQueues c e set0 R v t Q set2) = nextQueues c e set0 R v t Q := by
      funext j
      rcases ht.all j with rfl | rfl | rfl
      · rw [Function.update_of_ne ht.ne02, Function.update_of_ne ht.ne01, Function.update_self]
        exact (if_pos rfl).symm
      · rw [Function.update_of_ne ht.ne12, Function.update_self]
      · rw [Function.update_self]
    rw [hall] at hpush2
    have hst' := hst.push (v, c.vertex e set0 v) (by omega)
    refine ⟨R.erase v, [(v, c.vertex e set0 v)], _, hnext, hpush2, hst', if_pos rfl, ?_,
      fun h => absurd h (List.cons_ne_nil _ _),
      Ran.peel hz hv hR hnext.layout (fun j => ?_) (hst.pushed hst') hpush2.ends_le
        (hst'.run_le hnext.peels)⟩
    · intro a ha
      rw [List.mem_singleton.mp ha]
    · by_cases hj : j = set0
      · subst hj
        rw [if_pos rfl]
        refine hpush2.appended (l := t) ?_ (by rw [List.append_nil]; exact if_pos rfl)
        rw [hq.ends, hQ, Function.update_self, List.length_cons]
        omega
      · rw [if_neg hj]
        refine hpush2.appended (l := Q j) ?_ (if_neg hj)
        rw [hq.ends, Function.update_of_ne hj]

/-! ## A queue -/

theorem Peel.entries_spec (hz : Sized c e) (hv : c.variant = .Standard) (hcard : Multiset.card R₀ < 2 ^ r.bits)
    {set0 set1 set2 : Fin 3} (ht : Turn set0 set1 set2) (t : List r.T) :
    ∀ {p : Peel r} {b : Fin 3 → Nat} {R : Multiset r.T} {log : List (r.T × Nat)} {Q : Fin 3 → List r.T},
      Inv c e R₀ R log p.set Q → p.queue.Holds e b Q → (∀ j, j ≠ set0 → b j = j * e.size.toNat) →
      Stacked p.run p.stack log → Q set0 = t →
      Entered c e R₀ R set0 log Q (update b set0 (b set0 + t.length)) []
        (Loop.foldTrace (Peel.entry c set0 set1 set2) (List.range' (b set0) t.length) p)
        ((List.range' (b set0) t.length).foldl (Peel.entry c set0 set1 set2) p) := by
  induction t with
  | nil =>
    intro p b R log Q hinv hq _ hst hQ
    refine ⟨R, [], Q, ?_, ?_, ?_, hQ, fun a ha => absurd ha List.not_mem_nil, fun _ _ _ => rfl, Ran.nil ..⟩
    · rw [List.append_nil]
      exact hinv
    · rw [List.length_nil, Nat.add_zero, Function.update_eq_self]
      exact hq
    · rw [List.append_nil]
      exact hst
  | cons v t ih =>
    intro p b R log Q hinv hq hb hst hQ
    obtain ⟨R1, log1, Q1, hinv1, hq1, hst1, hQ1, hs1, he1, hran1⟩ :=
      Peel.entry_spec hz hv hcard ht hinv hq hb hst hQ
    have hb1 : ∀ j, j ≠ set0 → update b set0 (b set0 + 1) j = j * e.size.toNat := fun j hj => by
      rw [Function.update_of_ne hj]
      exact hb j hj
    obtain ⟨R2, log2, Q2, hinv2, hq2, hst2, hQ2, hs2, he2, hran2⟩ := ih hinv1 hq1 hb1 hst1 hQ1
    rw [Function.update_self] at hq2 hinv2 hst2 hran2
    rw [List.length_cons, List.range'_succ, List.foldl_cons]
    refine ⟨R2, log1 ++ log2, Q2, ?_, ?_, ?_, hQ2, ?_, ?_, hran1.append hran2⟩
    · rw [← List.append_assoc]
      exact hinv2
    · rw [Function.update_idem] at hq2
      rw [show b set0 + (t.length + 1) = b set0 + 1 + t.length by omega]
      exact hq2
    · rw [← List.append_assoc]
      exact hst2
    · intro a ha
      rcases List.mem_append.mp ha with ha | ha
      · exact hs1 a ha
      · exact hs2 a ha
    · intro hnil j hj
      obtain ⟨h1, h2⟩ := List.append_eq_nil_iff.mp hnil
      rw [he2 h2 j hj, he1 h1 j hj]

/-! ## Runs -/

def runEnds {α : Type*} (segs : List (List α)) : List Nat :=
  (List.range (segs.length + 1)).map fun i => (segs.take i).flatten.length

theorem runEnds_concat {α : Type*} (segs : List (List α)) (l : List α) :
    runEnds (segs ++ [l]) = runEnds segs ++ [segs.flatten.length + l.length] := by
  unfold runEnds
  rw [List.length_append, List.length_singleton, List.range_succ, List.map_append]
  refine congrArg₂ (· ++ ·) (List.map_congr_left fun i hi => ?_) ?_
  · rw [List.take_append_of_le_length (Nat.le_of_lt_succ (List.mem_range.mp hi))]
  · rw [List.map_singleton, List.take_of_length_le (by simp), List.flatten_append, List.length_append]
    simp

theorem getLastD_runEnds {α : Type*} (segs : List (List α)) : (runEnds segs).getLastD 0 = segs.flatten.length := by
  unfold runEnds
  rw [List.range_succ, List.map_append, List.map_singleton, List.getLastD_concat, List.take_length]

theorem headD_runEnds {α : Type*} (segs : List (List α)) : (runEnds segs).headD 0 = 0 := by
  unfold runEnds
  rw [List.range_succ_eq_map]
  rfl

/-- The invariant between the runs; run `i` has the slots of set `i` modulo three. -/
structure State.Inv (c : Config r) (e : AddresserEntry r) (R₀ R : Multiset r.T) (segs : List (List (r.T × Nat)))
    (st : State r) (Q : Fin 3 → List r.T) : Prop where
  inv : Standard.Inv c e R₀ R segs.flatten st.set Q
  queue : st.queue.Holds e (fun j => j * e.size.toNat) Q
  runs : st.stack.runs = runEnds segs
  cells : ∀ i, i < segs.flatten.length → segs.flatten[i]?.map Prod.fst = some (st.stack.stack i)
  sets : ∀ i l, segs[i]? = some l → ∀ a ∈ l, a.2 = c.vertex e (Fin.ofNat 3 i) a.1

theorem State.processQueue_spec (hz : Sized c e) (hv : c.variant = .Standard)
    (hcard : Multiset.card R₀ < 2 ^ r.bits) {set0 set1 set2 : Fin 3} (ht : Turn set0 set1 set2) {st : State r}
    {segs : List (List (r.T × Nat))} (h : st.Inv c e R₀ R segs Q) (hset : Fin.ofNat 3 segs.length = set0) :
    ∃ R' l Q', (st.processQueue c set0 set1 set2).Inv c e R₀ R' (segs ++ [l]) Q' ∧ Q' set0 = [] ∧
      (l = [] → ∀ j, j ≠ set0 → Q' j = Q j) ∧
      Ran c e (Multiset.card R₀) R R' l (st.traceQueue c set0 set1 set2) := by
  have hlast : st.stack.runs.getLastD 0 = segs.flatten.length := by rw [h.runs, getLastD_runEnds]
  have hlen : st.queue.ends set0 - st.queue.begins set0 = (Q set0).length := by
    rw [h.queue.ends, h.queue.begins, Nat.add_sub_cancel_left]
  obtain ⟨R', l, Q', hinv, hq, hst, hQ, hs, he, hran⟩ := Peel.entries_spec hz hv hcard ht (Q set0)
    (p := ⟨st.set, st.queue, st.stack.runs.getLastD 0, st.stack.stack⟩) h.inv h.queue (fun _ _ => rfl)
    ⟨hlast, h.cells⟩ rfl
  have hflat : (segs ++ [l]).flatten = segs.flatten ++ l := by rw [List.flatten_append, List.flatten_singleton]
  refine ⟨R', l, Q', ?_, hQ, he, ?_⟩
  case refine_2 =>
    unfold State.traceQueue
    rw [hlen, h.queue.begins]
    exact hran
  unfold State.processQueue
  rw [hlen, h.queue.begins]
  constructor
  · rw [hflat]
    exact hinv
  · have := hq.clear hQ
    rwa [Function.update_idem, Function.update_eq_self_iff.mpr rfl] at this
  · show st.stack.runs ++ [_] = _
    rw [hst.run, h.runs, runEnds_concat, List.length_append]
  · rw [hflat]
    exact hst.cells
  · intro i l' hi a ha
    rcases Nat.lt_or_ge i segs.length with hlt | hge
    · rw [List.getElem?_append_left hlt] at hi
      exact h.sets i l' hi a ha
    · have hi' := (List.getElem?_eq_some_iff.mp hi).1
      rw [List.length_append, List.length_singleton] at hi'
      obtain rfl : i = segs.length := by omega
      rw [List.getElem?_concat_length] at hi
      rw [hset]
      exact hs a (Option.some.inj hi ▸ ha)

theorem ofNat_three_add (n i : Nat) (h : 3 ∣ n) : Fin.ofNat 3 (n + i) = Fin.ofNat 3 i := by
  obtain ⟨m, rfl⟩ := h
  exact Fin.ext (by simp [Fin.ofNat])

/-- A round removes an edge or leaves nothing queued. -/
theorem State.round_spec (hz : Sized c e) (hv : c.variant = .Standard) (hcard : Multiset.card R₀ < 2 ^ r.bits)
    {st : State r} {segs : List (List (r.T × Nat))} (h : st.Inv c e R₀ R segs Q) (h3 : 3 ∣ segs.length) :
    ∃ R' l Q', (st.round c).Inv c e R₀ R' (segs ++ l) Q' ∧ l.length = 3 ∧
      (Multiset.card R' < Multiset.card R ∨ ∀ j, Q' j = []) ∧
      Ran c e (Multiset.card R₀) R R' l.flatten (st.traceRound c) := by
  have t0 : Turn 0 1 2 := ⟨by decide, by decide, by decide⟩
  have t1 : Turn 1 2 0 := ⟨by decide, by decide, by decide⟩
  have t2 : Turn 2 0 1 := ⟨by decide, by decide, by decide⟩
  obtain ⟨R1, l0, Q1, h1, hQ1, he1, hran1⟩ := State.processQueue_spec hz hv hcard t0 h (ofNat_three_add _ 0 h3)
  obtain ⟨R2, l1, Q2, h2, hQ2, he2, hran2⟩ := State.processQueue_spec hz hv hcard t1 h1
    (by rw [List.length_append]; exact ofNat_three_add _ 1 h3)
  obtain ⟨R3, l2, Q3, h3', hQ3, he3, hran3⟩ := State.processQueue_spec hz hv hcard t2 h2
    (by rw [List.length_append, List.length_append, Nat.add_assoc]; exact ofNat_three_add _ 2 h3)
  rw [List.append_assoc, List.append_assoc] at h3'
  refine ⟨R3, _, Q3, h3', rfl, ?_, ?_⟩
  case refine_2 =>
    rw [List.flatten_append, List.flatten_append, List.flatten_singleton, List.flatten_singleton,
      List.flatten_singleton]
    exact hran1.append (hran2.append hran3)
  by_cases hnil : l0 = [] ∧ l1 = [] ∧ l2 = []
  · obtain ⟨rfl, rfl, rfl⟩ := hnil
    right
    have hj0 : Q3 0 = [] := by rw [he3 rfl 0 (by decide), he2 rfl 0 (by decide), hQ1]
    have hj1 : Q3 1 = [] := by rw [he3 rfl 1 (by decide), hQ2]
    exact fun j => by
      rcases t0.all j with rfl | rfl | rfl
      · exact hj0
      · exact hj1
      · exact hQ3
  · left
    have hc := h.inv.peels.card
    have hc3 := h3'.inv.peels.card
    rw [List.flatten_append, List.length_append] at hc3
    have hlen : 0 < ([l0] ++ ([l1] ++ [l2])).flatten.length := by
      apply List.length_pos_of_ne_nil
      intro h0
      apply hnil
      simpa using h0
    omega

theorem State.size_eq_zero_iff (hz : Sized c e) (hv : c.variant = .Standard) {q : XorQueue r}
    (h : q.Holds e (fun j => j * e.size.toNat) Q) :
    r.wrap (r.wrap (q.size 0 + q.size 1) + q.size 2) = 0 ↔ ∀ j, Q j = [] := by
  have hfits := hz.fits
  have hsets : nSlots c e = 3 * e.size.toNat := by unfold nSlots; rw [hv]; rfl
  have hlen : ∀ j, (Q j).length ≤ e.size.toNat := fun j => by
    have := h.upper j
    rw [Nat.add_mul] at this
    omega
  have hsize : ∀ j, q.size j = (Q j).length := fun j => by
    have := hlen j
    unfold XorQueue.size RegisterSize.wrap
    rw [h.ends, h.begins, Nat.add_comm (j * e.size.toNat), ← Nat.add_assoc, Nat.add_sub_cancel, Nat.add_mod_left]
    exact Nat.mod_eq_of_lt (by omega)
  have h0 := hlen 0
  have h1 := hlen 1
  have h2 := hlen 2
  rw [hsize, hsize, hsize, RegisterSize.wrap_of_lt (x := _ + (Q 1).length) (by omega),
    RegisterSize.wrap_of_lt (by omega)]
  constructor
  · intro hsum j
    apply List.eq_nil_of_length_eq_zero
    rcases (⟨by decide, by decide, by decide⟩ : Turn 0 1 2).all j with rfl | rfl | rfl <;> omega
  · intro hnil
    rw [hnil, hnil, hnil]
    rfl

theorem State.peel_spec (hz : Sized c e) (hv : c.variant = .Standard)
    (hcard : Multiset.card R₀ < 2 ^ r.bits) (fuel : Nat) :
    ∀ {st : State r} {R : Multiset r.T} {segs : List (List (r.T × Nat))} {Q : Fin 3 → List r.T},
      st.Inv c e R₀ R segs Q → 3 ∣ segs.length → Multiset.card R < fuel →
      ∃ R' l Q', (State.peel c fuel st).Inv c e R₀ R' (segs ++ l) Q' ∧ 3 ∣ (segs ++ l).length ∧ (∀ j, Q' j = []) ∧
        Ran c e (Multiset.card R₀) R R' l.flatten (st.trace c fuel) ∧
        ∃ t, (State.loop c).ExitsAt t st ∧ (State.loop c).body^[t] st = State.peel c fuel st := by
  have hdone :
      ∀ (fuel : Nat) {st : State r} {R : Multiset r.T} {segs : List (List (r.T × Nat))} {Q : Fin 3 → List r.T},
      st.Inv c e R₀ R segs Q → (∀ j, Q j = []) →
      State.peel c fuel st = st ∧ st.trace c fuel = [] ∧ (State.loop c).ExitsAt 0 st := by
    intro fuel st R segs Q h hnil
    have h0 := (State.size_eq_zero_iff hz hv h.queue).mpr hnil
    have hexit : (State.loop c).ExitsAt 0 st := .zero (decide_eq_false (not_not_intro h0))
    cases fuel with
    | zero => exact ⟨rfl, rfl, hexit⟩
    | succ fuel => exact ⟨if_pos h0, if_pos h0, hexit⟩
  induction fuel with
  | zero => exact fun {_ _ _ _} _ _ hlt => absurd hlt (Nat.not_lt_zero _)
  | succ fuel ih =>
    intro st R segs Q h h3 hlt
    by_cases hnil : ∀ j, Q j = []
    · obtain ⟨hpeel, htrace, hexit⟩ := hdone (fuel + 1) h hnil
      rw [hpeel, htrace]
      refine ⟨R, [], Q, ?_, ?_, hnil, Ran.nil .., 0, hexit, rfl⟩
      · rw [List.append_nil]
        exact h
      · rw [List.append_nil]
        exact h3
    · have hne := fun h0 => hnil ((State.size_eq_zero_iff hz hv h.queue).mp h0)
      have hstep : State.peel c (fuel + 1) st = State.peel c fuel (st.round c) := if_neg hne
      have htrace : st.trace c (fuel + 1) = st.traceRound c ++ (st.round c).trace c fuel := if_neg hne
      obtain ⟨R', l, Q', h', hl, hdec, hran⟩ := State.round_spec hz hv hcard h h3
      have h3' : 3 ∣ (segs ++ l).length := by
        rw [List.length_append, hl]
        exact Nat.dvd_add h3 (Nat.dvd_refl 3)
      rw [hstep, htrace]
      rcases hdec with hdec | hnil'
      · obtain ⟨R'', l', Q'', h'', h3'', hQ'', hran', t, hexit, heq⟩ := ih h' h3' (by omega)
        rw [List.append_assoc] at h'' h3''
        refine ⟨R'', l ++ l', Q'', h'', h3'', hQ'', ?_, t + 1, hexit.succ (decide_eq_true hne), heq⟩
        rw [List.flatten_append]
        exact hran.append hran'
      · obtain ⟨hpeel, htrace', hexit⟩ := hdone fuel h' hnil'
        rw [hpeel, htrace', List.append_nil]
        exact ⟨R', l, Q', h', h3', hnil', hran, 1, hexit.succ (decide_eq_true hne), rfl⟩

/-! ## The first queue -/

def singles (c : Config r) (e : AddresserEntry r) (R : Multiset r.T) (j : Fin 3) (n : Nat) : List r.T :=
  (List.range n).flatMap fun i => queuedAt c e R (j * e.size.toNat + i)

theorem vertex_Standard (hv : c.variant = .Standard) (j : Fin 3) (h : r.T) :
    c.vertex e j h = j * e.size.toNat + c.address e j h := by
  unfold Config.vertex
  rw [hv]
  simp [xorSegment]

/-- The hash queued for a slot of set `j` has this slot there. -/
theorem vertex_of_mem_queuedAt (hz : Sized c e) (hv : c.variant = .Standard) {j : Fin 3} {i : Nat}
    (hi : i < e.size.toNat) {a : r.T} (ha : a ∈ queuedAt c e R (j * e.size.toNat + i)) :
    c.vertex e j a = j * e.size.toNat + i ∧ a ∈ R := by
  obtain ⟨hd, rfl⟩ := mem_queuedAt.mp ha
  obtain ⟨hR, k, hk⟩ := exists_combined_of_deg_one hd
  have hjk : k = j := by
    have hdiv := hz.vertex_div k (combined c e R (j * e.size.toNat + i))
    rw [hk, Nat.mul_comm, Nat.mul_add_div hz.pos, Nat.div_eq_of_lt hi, hv] at hdiv
    have h0 : ∀ x : r.T, (xorSegment .Standard x).toNat = 0 := fun x => rfl
    rw [h0, Nat.zero_add, Nat.add_zero] at hdiv
    exact Fin.ext hdiv.symm
  subst hjk
  exact ⟨hk, hR⟩

theorem nodup_singles (hz : Sized c e) (hv : c.variant = .Standard) (j : Fin 3) {n : Nat} (hn : n ≤ e.size.toNat) :
    ((singles c e R j n).map (c.vertex e j)).Nodup := by
  unfold singles
  rw [List.map_flatMap, List.nodup_flatMap]
  refine ⟨fun i hi => ?_, ?_⟩
  · unfold queuedAt
    split
    · exact List.nodup_singleton _
    · exact List.nodup_nil
  · refine List.nodup_range.imp_of_mem fun {i k} hi hk hne => ?_
    rw [List.mem_range] at hi hk
    intro s hs hs'
    obtain ⟨a, ha, rfl⟩ := List.mem_map.mp hs
    obtain ⟨b, hb, hab⟩ := List.mem_map.mp hs'
    rw [(vertex_of_mem_queuedAt hz hv (by omega) ha).1, (vertex_of_mem_queuedAt hz hv (by omega) hb).1] at hab
    omega

theorem XorQueue.holds_new (hz : Sized c e) (hv : c.variant = .Standard) :
    (XorQueue.new e).Holds e (fun j => j * e.size.toNat) fun _ => [] := by
  have hfits := hz.fits
  have hsets : nSlots c e = 3 * e.size.toNat := by unfold nSlots; rw [hv]; rfl
  have hwrap : ∀ j : Fin 3, r.wrap (j * e.size.toNat) = j * e.size.toNat := fun j => by
    have : (j : Nat) * e.size.toNat ≤ 3 * e.size.toNat := Nat.mul_le_mul_right _ (Nat.le_of_lt j.isLt)
    exact RegisterSize.wrap_of_lt (by omega)
  exact ⟨hwrap, hwrap, fun _ => Nat.le_refl _, fun _ => Nat.mul_le_mul_right _ (Nat.le_succ _),
    fun _ i hi => absurd hi (Nat.not_lt_zero i)⟩

theorem XorQueue.scanForSingle_spec (hz : Sized c e) (hv : c.variant = .Standard) {R : Multiset r.T}
    (hcard : Multiset.card R < 2 ^ r.bits) (hx : XorSet.For e x) (hexact : ∀ s < nSlots c e, x.Exact c e R s)
    {q : XorQueue r} (h : q.Holds e (fun j => j * e.size.toNat) Q) {j : Fin 3} (hQ : Q j = []) :
    (q.scanForSingle c x j).Holds e (fun j => j * e.size.toNat) (update Q j (singles c e R j e.size.toNat)) := by
  have hfits := hz.fits
  have hsets : nSlots c e = 3 * e.size.toNat := by unfold nSlots; rw [hv]; rfl
  have hj : (j + 1 : Nat) * e.size.toNat ≤ 3 * e.size.toNat := Nat.mul_le_mul_right _ j.isLt
  rw [Nat.add_mul] at hj
  have hsize : x.size c = e.size.toNat := by unfold XorSet.size; rw [hv, hx.entry]
  have hbegin : r.wrap (x.begins j * 2) = 2 * (j * e.size.toNat) := by
    rw [hx.begins, RegisterSize.wrap_of_lt (by omega), Nat.mul_comm]
  have hend : r.wrap (2 * (j * e.size.toNat) + r.wrap (x.size c * 2)) =
      2 * (j * e.size.toNat) + 2 * e.size.toNat := by
    rw [hsize, RegisterSize.wrap_of_lt (x := e.size.toNat * 2) (by omega), RegisterSize.wrap_of_lt (by omega),
      Nat.mul_comm 2 e.size.toNat]
  unfold XorQueue.scanForSingle
  simp only [hbegin, hend]
  rw [Nat.add_sub_cancel_left, Nat.mul_div_cancel_left _ (by decide : 0 < 2)]
  suffices ∀ n, n ≤ e.size.toNat → ((List.range n).foldl (fun q i =>
      if x.set (r.wrap (2 * (j * e.size.toNat) + 2 * i + 1)) = 1 then
        q.push j (x.set (2 * (j * e.size.toNat) + 2 * i))
      else q) q).Holds e (fun j => j * e.size.toNat) (update Q j (singles c e R j n)) from this _ (Nat.le_refl _)
  intro n
  induction n with
  | zero =>
    intro _
    have : update Q j (singles c e R j 0) = Q := Function.update_eq_self_iff.mpr hQ.symm
    rw [this]
    exact h
  | succ n ih =>
    intro hn
    have hs : j * e.size.toNat + n < nSlots c e := by omega
    have hsingles : singles c e R j (n + 1) = singles c e R j n ++ queuedAt c e R (j * e.size.toNat + n) := by
      unfold singles
      rw [List.range_succ, List.flatMap_append, List.flatMap_singleton]
    have hcount : x.counterAt (j * e.size.toNat + n) = x.set (r.wrap (2 * (j * e.size.toNat) + 2 * n + 1)) := by
      rw [XorSet.counterAt_eq (hz.index_lt hs), RegisterSize.wrap_of_lt (by omega), Nat.mul_add]
    have hhash : x.hashAt (j * e.size.toNat + n) = x.set (2 * (j * e.size.toNat) + 2 * n) := by
      rw [XorSet.hashAt_eq (hz.index_lt hs), Nat.mul_add]
    have hup : update Q j (singles c e R j n) j = singles c e R j n := Function.update_self ..
    rw [List.range_succ, List.foldl_append, List.foldl_cons, List.foldl_nil]
    have hpush := (ih (by omega)).push_if hz hv rfl R (j * e.size.toNat + n) (j := j)
      (by rw [hup, ← hsingles]; exact nodup_singles hz hv j hn) (hhash.symm.trans (hexact _ hs).hash)
      (P := x.set (r.wrap (2 * (j * e.size.toNat) + 2 * n + 1)) = 1) (by
        rw [← hcount, (hexact _ hs).counter]
        exact ofNat_inj (deg_lt_of_card_lt hcard _) (one_lt_two_pow_bits r))
    rw [hup, ← hsingles, Function.update_idem] at hpush
    exact hpush

theorem fill_spec (hz : Sized c e) (hv : c.variant = .Standard) (hcard : Multiset.card R₀ < 2 ^ r.bits)
    (hx : XorSet.For e x) (hexact : ∀ s < nSlots c e, x.Exact c e R₀ s) (stack : Nat → r.T) :
    ({ set := x, queue := (XorQueue.new x.entry).fill c x, stack := ⟨[0], stack⟩ } : State r).Inv c e R₀ R₀ []
      fun j => singles c e R₀ j e.size.toNat := by
  have hmem : ∀ j, ∀ a ∈ singles c e R₀ j e.size.toNat,
      deg (Incident c e) R₀ (c.vertex e j a) = 1 ∧ a ∈ R₀ := by
    intro j a ha
    obtain ⟨i, hi, ha⟩ := List.mem_flatMap.mp ha
    obtain ⟨hs, hR⟩ := vertex_of_mem_queuedAt hz hv (List.mem_range.mp hi) ha
    rw [hs]
    exact ⟨(mem_queuedAt.mp ha).1, hR⟩
  refine ⟨⟨hx, .nil _, fun s hs _ => hexact s hs, fun j => nodup_singles hz hv j (Nat.le_refl _),
    fun _ _ _ => List.not_mem_nil, fun j a ha => .inr (hmem j a ha), ?_⟩, ?_, rfl,
    fun i hi => absurd hi (Nat.not_lt_zero i), fun i l hi => ?_⟩
  · intro s hs
    obtain ⟨-, j, hj⟩ := exists_combined_of_deg_one hs
    refine ⟨j, _, List.mem_flatMap.mpr ⟨c.address e j (combined c e R₀ s), ?_, ?_⟩, hj⟩
    · exact List.mem_range.mpr (hz.address_lt j _)
    · rw [vertex_Standard hv] at hj
      rw [hj]
      exact mem_queuedAt.mpr ⟨hs, rfl⟩
  · have h0 := XorQueue.scanForSingle_spec hz hv hcard hx hexact (XorQueue.holds_new hz hv) (j := 0) rfl
    have h1 := XorQueue.scanForSingle_spec hz hv hcard hx hexact h0 (j := 1) rfl
    have h2 := XorQueue.scanForSingle_spec hz hv hcard hx hexact h1 (j := 2) rfl
    have hall : update (update (update (fun _ : Fin 3 => []) 0 (singles c e R₀ 0 e.size.toNat)) 1
        (singles c e R₀ 1 e.size.toNat)) 2 (singles c e R₀ 2 e.size.toNat) =
        fun j => singles c e R₀ j e.size.toNat := by
      funext j
      rcases (⟨by decide, by decide, by decide⟩ : Turn 0 1 2).all j with rfl | rfl | rfl <;> rfl
    rw [hall] at h2
    show ((((XorQueue.new x.entry).scanForSingle c x 0).scanForSingle c x 1).scanForSingle c x 2).Holds e _ _
    rw [hx.entry]
    exact h2
  · exact absurd hi (by simp)

/-- The stack of a whole build: its runs go through the three sets, they peel the edges and get stuck only at edges
that cannot be peeled. -/
structure Built (c : Config r) (e : AddresserEntry r) (R₀ : Multiset r.T) (s : XorStack r)
    (segs : List (List (r.T × Nat))) (R' : Multiset r.T) : Prop where
  peels : Peels (Incident c e) R₀ segs.flatten R'
  stuck : ∀ s, deg (Incident c e) R' s ≠ 1
  runs : s.runs = runEnds segs
  cells : ∀ i, i < segs.flatten.length → segs.flatten[i]?.map Prod.fst = some (s.stack i)
  sets : ∀ i l, segs[i]? = some l → ∀ a ∈ l, a.2 = c.vertex e (Fin.ofNat 3 i) a.1
  rounds : 3 ∣ segs.length
  size : s.size = segs.flatten.length

theorem once_start (hz : Sized c e) (hv : c.variant = .Standard) (hcard : Multiset.card R₀ < 2 ^ r.bits)
    (hx : XorSet.For e x) (hexact : ∀ s < nSlots c e, x.Exact c e R₀ s) :
    Once (Incident c e) R₀ ((XorQueue.new e).queued c x (State.start c x).queue) := by
  have h := fill_spec hz hv hcard hx hexact fun _ => 0
  have hmap : ∀ j, ((XorQueue.new e).appended (State.start c x).queue j).map (x.slot c j) =
      (singles c e R₀ j e.size.toNat).map (c.vertex e j) := by
    intro j
    have happ : (XorQueue.new e).appended (State.start c x).queue j = singles c e R₀ j e.size.toNat :=
      h.queue.appended (l := []) ((XorQueue.holds_new hz hv).ends j) (List.nil_append _).symm
    rw [happ]
    exact List.map_congr_left fun a _ => hx.slot hz j a
  unfold XorQueue.queued
  simp only [hmap]
  constructor
  · rw [List.nodup_flatMap]
    refine ⟨fun j _ => h.inv.nodup j, ?_⟩
    refine (by decide : ([0, 1, 2] : List (Fin 3)).Nodup).imp fun {i j} hij s hs hs' => hij ?_
    obtain ⟨a, -, rfl⟩ := List.mem_map.mp hs
    obtain ⟨b, -, hb⟩ := List.mem_map.mp hs'
    exact (hz.set_eq_of_vertex_eq hv hb).symm
  · intro s hs
    obtain ⟨j, -, hs⟩ := List.mem_flatMap.mp hs
    obtain ⟨a, ha, rfl⟩ := List.mem_map.mp hs
    rcases h.inv.single j a ha with h0 | ⟨h1, -⟩
    · omega
    · omega

theorem buildStack_ran (hz : Sized c e) (hv : c.variant = .Standard) (hcard : Multiset.card R₀ < 2 ^ r.bits)
    (hx : XorSet.For e x) (hexact : ∀ s < nSlots c e, x.Exact c e R₀ s) :
    ∃ segs R', Built c e R₀ (buildStack c x) segs R' ∧
      Ran c e (Multiset.card R₀) R₀ R' segs.flatten ((State.start c x).trace c (2 ^ r.bits + 1)) ∧
      ∃ t, (State.loop c).ExitsAt t (State.start c x) ∧ ((State.loop c).body^[t] (State.start c x)).stack =
        buildStack c x := by
  obtain ⟨R', segs, Q, h, h3, hQ, hran, t, hexit, heq⟩ := State.peel_spec hz hv hcard (2 ^ r.bits + 1)
    (fill_spec hz hv hcard hx hexact fun _ => 0) (Nat.dvd_zero 3) (Nat.lt_succ_of_lt hcard)
  have hlen := length_log_le hz h.inv.peels
  have hfits := hz.fits
  rw [List.nil_append] at h hlen h3
  refine ⟨segs, R', ⟨h.inv.peels, fun s hs => ?_, h.runs, h.cells, h.sets, h3, ?_⟩, hran, t, hexit,
    congrArg State.stack heq⟩
  · obtain ⟨j, a, ha, -⟩ := h.inv.queued s hs
    rw [hQ] at ha
    exact absurd ha List.not_mem_nil
  · unfold buildStack XorStack.size RegisterSize.wrap
    rw [h.runs, getLastD_runEnds, headD_runEnds, Nat.sub_zero, Nat.add_mod_left]
    exact Nat.mod_eq_of_lt (by omega)

end

end Standard

end PartitionedFilters.Xor

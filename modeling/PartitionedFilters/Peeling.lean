import Mathlib.Data.Multiset.Filter
import Mathlib.Data.Multiset.Fold
import Mathlib.Data.List.Nodup
import Mathlib.Logic.Function.Basic

/-!
# Peeling a hypergraph

A multiset of edges is peeled by removing, one at a time, an edge that has a
vertex of its own. The log of a peeling, read backwards, is an order in which
every edge can be satisfied by the value of that vertex. The last section is
about the order in which a table is filled and does not mention degrees.
-/

namespace Peeling

variable {ε σ : Type*}

section
variable (inc : ε → σ → Prop) [∀ e s, Decidable (inc e s)]

/-! ## Degrees -/

/-- The edges of `R` at `s`. -/
def deg (R : Multiset ε) (s : σ) : ℕ := R.countP (inc · s)

variable {inc}

@[simp] theorem deg_zero (s : σ) : deg inc 0 s = 0 := rfl

variable (inc) in
theorem deg_cons (e : ε) (R : Multiset ε) (s : σ) :
    deg inc (e ::ₘ R) s = deg inc R s + if inc e s then 1 else 0 := by
  unfold deg
  exact Multiset.countP_cons _ e R

theorem deg_mono {R R' : Multiset ε} (h : R' ≤ R) (s : σ) : deg inc R' s ≤ deg inc R s :=
  Multiset.countP_le_of_le _ h

theorem deg_pos {R : Multiset ε} {s : σ} : 0 < deg inc R s ↔ ∃ e ∈ R, inc e s := Multiset.countP_pos

theorem deg_eq_zero {R : Multiset ε} {s : σ} : deg inc R s = 0 ↔ ∀ e ∈ R, ¬inc e s := Multiset.countP_eq_zero

theorem deg_le_card (R : Multiset ε) (s : σ) : deg inc R s ≤ Multiset.card R := Multiset.countP_le_card _ _

variable (inc)

/-! ## Labels -/

/-- The combined labels of the edges at `s`. -/
def label {β : Type*} (op : β → β → β) [Std.Commutative op] [Std.Associative op] (b : β) (f : ε → β)
    (R : Multiset ε) (s : σ) : β :=
  ((R.filter (inc · s)).map f).fold op b

variable {inc}

section
variable {β : Type*} {op : β → β → β} [Std.Commutative op] [Std.Associative op] {b : β} {f : ε → β}

@[simp] theorem label_zero (s : σ) : label inc op b f 0 s = b := rfl

theorem label_cons (e : ε) (R : Multiset ε) (s : σ) :
    label inc op b f (e ::ₘ R) s = if inc e s then op (f e) (label inc op b f R s) else label inc op b f R s := by
  unfold label
  by_cases hs : inc e s
  · rw [Multiset.filter_cons_of_pos (p := (inc · s)) _ hs, Multiset.map_cons, Multiset.fold_cons_left, if_pos hs]
  · rw [Multiset.filter_cons_of_neg (p := (inc · s)) _ hs, if_neg hs]

end

/-! ## Removing an edge -/

variable [DecidableEq ε]

variable (inc) in
theorem deg_erase {e : ε} {R : Multiset ε} (he : e ∈ R) (s : σ) :
    deg inc R s = deg inc (R.erase e) s + if inc e s then 1 else 0 := by
  have := deg_cons inc e (R.erase e) s
  rwa [Multiset.cons_erase he] at this

theorem deg_erase_of_inc {e : ε} {R : Multiset ε} {s : σ} (he : e ∈ R) (hs : inc e s) :
    deg inc (R.erase e) s = deg inc R s - 1 := by
  rw [deg_erase inc he s, if_pos hs, Nat.add_sub_cancel]

theorem exists_label_of_deg_one {β : Type*} (op : β → β → β) [Std.Commutative op] [Std.Associative op] (b : β)
    (f : ε → β) {R : Multiset ε} {s : σ} (h : deg inc R s = 1) :
    ∃ e ∈ R, inc e s ∧ label inc op b f R s = op (f e) b := by
  obtain ⟨e, he, hs⟩ := deg_pos.mp (by rw [h]; exact Nat.one_pos)
  refine ⟨e, he, hs, ?_⟩
  have h0 : deg inc (R.erase e) s = 0 := by rw [deg_erase_of_inc he hs, h]
  have hnone : (R.erase e).filter (inc · s) = 0 := Multiset.filter_eq_nil.mpr (deg_eq_zero.mp h0)
  have hlabel : label inc op b f (R.erase e) s = b := by
    unfold label
    rw [hnone]
    rfl
  conv_lhs => rw [← Multiset.cons_erase he]
  rw [label_cons, if_pos hs, hlabel]

/-! ## Peeling -/

variable (inc)

/-- `log` peels `R` to `R'`: its edges with the vertices that were theirs alone. -/
inductive Peels : Multiset ε → List (ε × σ) → Multiset ε → Prop where
  | nil (R : Multiset ε) : Peels R [] R
  | cons {R R' : Multiset ε} {e : ε} {s : σ} {log : List (ε × σ)} :
      e ∈ R → inc e s → deg inc R s = 1 → Peels (R.erase e) log R' → Peels R ((e, s) :: log) R'

def Peelable (R : Multiset ε) : Prop := ∃ log, Peels inc R log 0

variable {inc}

namespace Peels

theorem append {R R' R'' : Multiset ε} {l l' : List (ε × σ)} (h : Peels inc R l R') (h' : Peels inc R' l' R'') :
    Peels inc R (l ++ l') R'' := by
  induction h with
  | nil => exact h'
  | cons he hs hd _ ih => exact .cons he hs hd (ih h')

theorem snoc {R R' : Multiset ε} {l : List (ε × σ)} {e : ε} {s : σ} (h : Peels inc R l R') (he : e ∈ R')
    (hs : inc e s) (hd : deg inc R' s = 1) : Peels inc R (l ++ [(e, s)]) (R'.erase e) :=
  h.append (.cons he hs hd (.nil _))

theorem eq_add {R R' : Multiset ε} {l : List (ε × σ)} (h : Peels inc R l R') :
    R = (l.map Prod.fst : Multiset ε) + R' := by
  induction h with
  | nil R => simp
  | @cons R R' e s log he _ _ _ ih =>
    rw [List.map_cons, ← Multiset.cons_coe, Multiset.cons_add, ← ih, Multiset.cons_erase he]

theorem le {R R' : Multiset ε} {l : List (ε × σ)} (h : Peels inc R l R') : R' ≤ R := by
  rw [h.eq_add]
  exact Multiset.le_add_left _ _

theorem card {R R' : Multiset ε} {l : List (ε × σ)} (h : Peels inc R l R') :
    Multiset.card R = l.length + Multiset.card R' := by
  conv_lhs => rw [h.eq_add]
  rw [Multiset.card_add, Multiset.coe_card, List.length_map]

theorem inc_of_mem {R R' : Multiset ε} {l : List (ε × σ)} (h : Peels inc R l R') : ∀ a ∈ l, inc a.1 a.2 := by
  induction h with
  | nil => intro a ha; exact absurd ha List.not_mem_nil
  | cons _ hs _ _ ih =>
    intro a ha
    cases ha with
    | head => exact hs
    | tail _ ha => exact ih a ha

theorem deg_of_mem {R R' : Multiset ε} {l : List (ε × σ)} (h : Peels inc R l R') : ∀ a ∈ l, deg inc R' a.2 = 0 := by
  induction h with
  | nil => intro a ha; exact absurd ha List.not_mem_nil
  | @cons R R' e s log he hs hd hrest ih =>
    intro a ha
    cases ha with
    | head =>
      have h0 : deg inc (R.erase e) s = 0 := by rw [deg_erase_of_inc he hs, hd]
      exact Nat.le_zero.mp (h0 ▸ deg_mono hrest.le s)
    | tail _ ha => exact ih a ha

/-- Edges peeled later are not at the vertices of earlier ones. -/
theorem pairwise {R R' : Multiset ε} {l : List (ε × σ)} (h : Peels inc R l R') :
    l.Pairwise fun a b => ¬inc b.1 a.2 := by
  induction h with
  | nil => exact .nil
  | @cons R R' e s log he hs hd hrest ih =>
    refine .cons (fun b hb => ?_) ih
    have h0 : deg inc (R.erase e) s = 0 := by rw [deg_erase_of_inc he hs, hd]
    refine deg_eq_zero.mp h0 b.1 ?_
    rw [hrest.eq_add]
    exact Multiset.mem_add.mpr (.inl (Multiset.mem_coe.mpr (List.mem_map_of_mem hb)))

theorem nodup {R R' : Multiset ε} {l : List (ε × σ)} (h : Peels inc R l R') : (l.map Prod.snd).Nodup := by
  rw [List.Nodup, List.pairwise_map]
  refine h.pairwise.imp_of_mem fun {a b} _ hb hab heq => hab ?_
  rw [heq]
  exact h.inc_of_mem b hb

/-- What is left of a peelable multiset can be peeled further. -/
theorem exists_deg_one {R R' R'' : Multiset ε} {l : List (ε × σ)} (h : Peels inc R l R') (hle : R'' ≤ R)
    (hpos : ¬R'' ≤ R') :
    ∃ s, deg inc R'' s = 1 := by
  induction h with
  | nil => exact absurd hle hpos
  | @cons R R' e s log he hs hd _ ih =>
    by_cases hmem : e ∈ R''
    · refine ⟨s, Nat.le_antisymm (hd ▸ deg_mono hle s) (deg_pos.mpr ⟨e, hmem, hs⟩)⟩
    · refine ih ?_ hpos
      rw [← Multiset.erase_of_notMem hmem]
      exact Multiset.erase_le_erase e hle

end Peels

variable (inc) in
/-- `K` is the 2-core of `R`: the largest part of it in which no vertex has exactly one edge. -/
structure IsTwoCore (R K : Multiset ε) : Prop where
  le : K ≤ R
  deg_ne_one : ∀ s, deg inc K s ≠ 1
  max : ∀ R' ≤ R, (∀ s, deg inc R' s ≠ 1) → R' ≤ K

omit [DecidableEq ε] in
theorem IsTwoCore.unique {R K K' : Multiset ε} (h : IsTwoCore inc R K) (h' : IsTwoCore inc R K') : K = K' :=
  le_antisymm (h'.max K h.le h.deg_ne_one) (h.max K' h'.le h'.deg_ne_one)

/-- Whatever the order, a peeling that gets stuck leaves the 2-core. -/
theorem Peels.isTwoCore {R R' : Multiset ε} {l : List (ε × σ)} (h : Peels inc R l R')
    (hstuck : ∀ s, deg inc R' s ≠ 1) :
    IsTwoCore inc R R' where
  le := h.le
  deg_ne_one := hstuck
  max R'' hle hdeg := by
    by_contra hnot
    obtain ⟨s, hs⟩ := h.exists_deg_one hle hnot
    exact hdeg s hs

/-- As many edges are peeled as there are, if and only if the 2-core is empty. -/
theorem Peels.length_eq_card_iff {R R' : Multiset ε} {l : List (ε × σ)} (h : Peels inc R l R')
    (hstuck : ∀ s, deg inc R' s ≠ 1) : l.length = Multiset.card R ↔ IsTwoCore inc R 0 := by
  have hcore := h.isTwoCore hstuck
  rw [h.card, Nat.left_eq_add, Multiset.card_eq_zero]
  constructor
  · rintro rfl
    exact hcore
  · exact hcore.unique

/-! ## Queued vertices -/

variable (inc) in
/-- The vertices `H` were queued so far: each once, and none of them can lose an edge and have one left. -/
structure Once (R : Multiset ε) (H : List σ) : Prop where
  nodup : H.Nodup
  deg_le : ∀ s ∈ H, deg inc R s ≤ 1

omit [DecidableEq ε] in
/-- A step that queues a vertex when its degree drops to one queues no vertex again. -/
theorem Once.append {R R' : Multiset ε} {H new : List σ} (h : Once inc R H) (hle : R' ≤ R) (hnodup : new.Nodup)
    (hnew : ∀ s ∈ new, 1 < deg inc R s ∧ deg inc R' s ≤ 1) : Once inc R' (H ++ new) where
  nodup := by
    rw [List.nodup_append']
    refine ⟨h.nodup, hnodup, fun s hs hs' => ?_⟩
    exact absurd (h.deg_le s hs) (Nat.not_le.mpr (hnew s hs').1)
  deg_le s hs := by
    rcases List.mem_append.mp hs with hs | hs
    · exact Nat.le_trans (deg_mono hle s) (h.deg_le s hs)
    · exact (hnew s hs).2

end

/-! ## Filling a table -/

section
variable {μ V : Type*} (inc : ε → σ → Prop) (sat : (σ → V) → ε → Prop)

/-- An edge only depends on its own vertices. -/
def Local : Prop := ∀ T T' e, (∀ s, inc e s → T s = T' s) → sat T e → sat T' e

variable {inc sat}

/-- A table filled in an order in which no edge is at a vertex that is written after it satisfies every edge of
the order. A step may rely on the first value of the vertex it writes. -/
theorem fill_spec (read : μ → σ → V) (step : μ → ε × σ → μ) (hlocal : Local inc sat) : ∀ (l : List (ε × σ)) (m : μ),
    (l.Pairwise fun a b => ¬inc a.1 b.2) → (l.map Prod.snd).Nodup →
    (∀ m' a, a ∈ l → read m' a.2 = read m a.2 → sat (read (step m' a)) a.1 ∧ ∀ s, s ≠ a.2 →
    read (step m' a) s = read m' s) →
    (∀ a ∈ l, sat (read (l.foldl step m)) a.1) ∧ ∀ s, s ∉ l.map Prod.snd → read (l.foldl step m) s = read m s := by
  intro l
  induction l with
  | nil => exact fun m _ _ _ => ⟨fun a ha => absurd ha List.not_mem_nil, fun s _ => rfl⟩
  | cons a l ih =>
    intro m hord hnodup hstep
    rw [List.pairwise_cons] at hord
    rw [List.map_cons, List.nodup_cons] at hnodup
    obtain ⟨hsat, hframe⟩ := hstep m a List.mem_cons_self rfl
    have hne : ∀ b ∈ l, b.2 ≠ a.2 := fun b hb heq => hnodup.1 (heq ▸ List.mem_map_of_mem hb)
    obtain ⟨ihsat, ihframe⟩ := ih (step m a) hord.2 hnodup.2 fun m' b hb hread =>
      hstep m' b (List.mem_cons_of_mem a hb) (hread.trans (hframe b.2 (hne b hb)))
    rw [List.foldl_cons]
    refine ⟨fun b hb => ?_, fun s hs => ?_⟩
    · cases hb with
      | head =>
        refine hlocal _ _ _ (fun s hs => (ihframe s fun hmem => ?_).symm) hsat
        obtain ⟨b, hb, rfl⟩ := List.mem_map.mp hmem
        exact hord.1 b hb hs
      | tail _ hb => exact ihsat b hb
    · rw [List.map_cons, List.mem_cons, not_or] at hs
      rw [ihframe s hs.2, hframe s hs.1]

end

/-! ## Reversing groups -/

end Peeling

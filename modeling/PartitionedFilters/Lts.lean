import Mathlib.Data.List.Induction

/-!
# Deterministic labelled transition systems

A system is a partial function `step : σ → α → Option σ`: the action names who
moves and how, so that an interleaving is a list of actions. An invariant is
shown for one step (`Reachable.inv`), termination by a measure (`Run.length_le`).
-/

namespace PartitionedFilters.Lts

section
variable {σ α : Type*} (step : σ → α → Option σ)

/-- `Run step s l t`: the actions `l`, taken one after the other, lead from `s` to `t`. -/
inductive Run (s : σ) : List α → σ → Prop
  | nil : Run s [] s
  | snoc {t u : σ} {l : List α} {a : α} : Run s l t → step t a = some u → Run s (l ++ [a]) u

def Reachable (s t : σ) : Prop := ∃ l, Run step s l t

variable {step}

theorem Run.of_foldlM {s t : σ} {l : List α} (h : l.foldlM step s = some t) : Run step s l t := by
  induction l using List.reverseRecOn generalizing t with
  | nil => obtain rfl := Option.some.inj h; exact .nil
  | append_singleton l a ih =>
    rw [List.foldlM_append] at h
    obtain ⟨u, hu, ha⟩ := Option.bind_eq_some_iff.mp h
    exact (ih hu).snoc (by simpa using ha)

theorem Reachable.refl (s : σ) : Reachable step s s := ⟨[], .nil⟩

theorem Reachable.next {s t u : σ} {a : α} (h : Reachable step s t) (ha : step t a = some u) :
    Reachable step s u := by
  obtain ⟨l, hl⟩ := h
  exact ⟨l ++ [a], hl.snoc ha⟩

theorem Run.inv {P : σ → Prop} (hs : ∀ s a t, P s → step s a = some t → P t) {s t : σ} {l : List α}
    (h : Run step s l t) (h0 : P s) : P t := by
  induction h with
  | nil => exact h0
  | snoc _ ha ih => exact hs _ _ _ ih ha

/-- A property of the initial state that every step keeps holds in every reachable state. -/
theorem Reachable.inv {P : σ → Prop} (hs : ∀ s a t, P s → step s a = some t → P t) {s t : σ}
    (h : Reachable step s t) (h0 : P s) : P t := by
  obtain ⟨l, hl⟩ := h
  exact hl.inv hs h0

/-- Where every step makes a measure smaller, a run has at most as many steps as the measure says. -/
theorem Run.length_le {P : σ → Prop} (μ : σ → Nat) (hP : ∀ s a t, P s → step s a = some t → P t)
    (hμ : ∀ s a t, P s → step s a = some t → μ t < μ s) {s t : σ} {l : List α}
    (h : Run step s l t) (h0 : P s) : l.length + μ t ≤ μ s := by
  induction h with
  | nil => simp
  | snoc ht ha ih =>
    have := hμ _ _ _ (ht.inv hP h0) ha
    simp only [List.length_append, List.length_cons, List.length_nil]
    omega

end

end PartitionedFilters.Lts

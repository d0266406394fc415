import Mathlib.Data.List.Basic

/-!
# Life cycles of owned resources

A log of what happened to resources that are acquired, used and released. In a
clean log every resource is released once, as what it was acquired as, and is
left alone from then on.
-/

namespace PartitionedFilters.Lifecycle

/-- The identity of a resource is a number; `κ` is what it is acquired as. -/
inductive Event (κ : Type*) where
  | acquired (i : Nat) (k : κ)
  | used (i : Nat) (k : κ)
  | released (i : Nat) (k : κ)
  deriving DecidableEq, Repr

variable {κ : Type*}

namespace Event

def id : Event κ → Nat
  | acquired i _ | used i _ | released i _ => i

def isRelease : Event κ → Bool
  | released _ _ => true
  | _ => false

def releases (i : Nat) (e : Event κ) : Bool := e.isRelease && e.id == i

end Event

/-- No event of a resource follows its release. -/
def Ordered (l : List (Event κ)) : Prop := l.Pairwise fun a b => a.isRelease = true → b.id ≠ a.id

def ReleasedOnce (l : List (Event κ)) (i : Nat) (k : κ) : Prop := l.filter (Event.releases i) = [.released i k]

structure Clean (l : List (Event κ)) : Prop where
  ordered : Ordered l
  releasedOnce : ∀ i k, .acquired i k ∈ l → ReleasedOnce l i k

/-- Nothing is held; identities from `n` on are fresh. -/
structure Settled (l : List (Event κ)) (n : Nat) : Prop extends Clean l where
  fresh : ∀ e ∈ l, e.id < n

/-- The resource `i`, acquired as `k`, is all that is held. -/
structure Holding (l : List (Event κ)) (n i : Nat) (k : κ) : Prop where
  ordered : Ordered l
  fresh : ∀ e ∈ l, e.id < n
  lt : i < n
  live : ∀ e ∈ l, e.releases i = false
  acquired : ∀ k', .acquired i k' ∈ l → k' = k
  releasedOnce : ∀ j k', j ≠ i → .acquired j k' ∈ l → ReleasedOnce l j k'

def Released (l : List (Event κ)) (i : Nat) : Prop := ∃ e ∈ l, e.releases i = true

theorem releases_eq_true {e : Event κ} {i : Nat} : e.releases i = true ↔ e.isRelease = true ∧ e.id = i := by
  simp [Event.releases]

theorem ordered_append_singleton {l : List (Event κ)} {e : Event κ} :
    Ordered (l ++ [e]) ↔ Ordered l ∧ ∀ a ∈ l, a.releases e.id = false := by
  unfold Ordered
  rw [List.pairwise_append]
  constructor
  · rintro ⟨h, -, hlast⟩
    refine ⟨h, fun a ha => ?_⟩
    rw [Bool.eq_false_iff, Ne, releases_eq_true]
    rintro ⟨hr, hid⟩
    exact hlast a ha e (List.mem_singleton.mpr rfl) hr hid.symm
  · rintro ⟨h, hlast⟩
    refine ⟨h, List.pairwise_singleton _ _, fun a ha b hb hr hid => ?_⟩
    obtain rfl := List.mem_singleton.mp hb
    have := hlast a ha
    rw [releases_eq_true.mpr ⟨hr, hid.symm⟩] at this
    exact absurd this (by decide)

theorem Ordered.of_append {l m : List (Event κ)} (h : Ordered (l ++ m)) : Ordered l :=
  (List.pairwise_append.mp h).1

theorem settled_nil : Settled ([] : List (Event κ)) 0 where
  ordered := List.Pairwise.nil
  releasedOnce := fun _ _ h => absurd h List.not_mem_nil
  fresh := fun _ h => absurd h List.not_mem_nil

section
variable {l : List (Event κ)} {n i : Nat} {k : κ}

theorem releases_eq_false_of_fresh (hfresh : ∀ e ∈ l, e.id < n) {e : Event κ} (he : e ∈ l) (hi : n ≤ i) :
    e.releases i = false := by
  have := hfresh e he
  rw [Bool.eq_false_iff, Ne, releases_eq_true]
  omega

theorem Settled.acquire (h : Settled l n) (k : κ) : Holding (l ++ [.acquired n k]) (n + 1) n k where
  ordered := ordered_append_singleton.mpr
    ⟨h.ordered, fun a ha => releases_eq_false_of_fresh h.fresh ha (Nat.le_refl n)⟩
  fresh := by
    intro e he
    rcases List.mem_append.mp he with he | he
    · have := h.fresh e he
      omega
    · obtain rfl := List.mem_singleton.mp he
      exact Nat.lt_succ_self n
  lt := Nat.lt_succ_self n
  live := by
    intro e he
    rcases List.mem_append.mp he with he | he
    · exact releases_eq_false_of_fresh h.fresh he (Nat.le_refl n)
    · obtain rfl := List.mem_singleton.mp he
      rfl
  acquired := by
    intro k' he
    rcases List.mem_append.mp he with he | he
    · exact absurd (h.fresh _ he) (Nat.lt_irrefl n)
    · exact (Event.acquired.inj (List.mem_singleton.mp he)).2
  releasedOnce := by
    intro j k' hj he
    rcases List.mem_append.mp he with he | he
    · have := h.releasedOnce j k' he
      simpa [ReleasedOnce, Event.releases, Event.isRelease] using this
    · exact absurd (Event.acquired.inj (List.mem_singleton.mp he)).1 hj

theorem Holding.use (h : Holding l n i k) (k' : κ) : Holding (l ++ [.used i k']) n i k where
  ordered := ordered_append_singleton.mpr ⟨h.ordered, h.live⟩
  fresh := by
    intro e he
    rcases List.mem_append.mp he with he | he
    · exact h.fresh e he
    · obtain rfl := List.mem_singleton.mp he
      exact h.lt
  lt := h.lt
  live := by
    intro e he
    rcases List.mem_append.mp he with he | he
    · exact h.live e he
    · obtain rfl := List.mem_singleton.mp he
      rfl
  acquired := by
    intro k'' he
    rcases List.mem_append.mp he with he | he
    · exact h.acquired k'' he
    · cases List.mem_singleton.mp he
  releasedOnce := by
    intro j k'' hj he
    rcases List.mem_append.mp he with he | he
    · have := h.releasedOnce j k'' hj he
      simpa [ReleasedOnce, Event.releases, Event.isRelease] using this
    · cases List.mem_singleton.mp he

theorem Holding.release (h : Holding l n i k) : Settled (l ++ [.released i k]) n where
  ordered := ordered_append_singleton.mpr ⟨h.ordered, h.live⟩
  releasedOnce := by
    intro j k' hin
    rcases List.mem_append.mp hin with he | he
    · unfold ReleasedOnce
      rw [List.filter_append]
      by_cases hj : j = i
      · subst hj
        have hnil : l.filter (Event.releases j) = [] :=
          List.filter_eq_nil_iff.mpr fun e he => by simp [h.live e he]
        obtain rfl := h.acquired k' he
        rw [hnil]
        simp [Event.releases, Event.isRelease, Event.id]
      · have hkeep := h.releasedOnce j k' hj he
        unfold ReleasedOnce at hkeep
        rw [hkeep]
        have hne : ¬ i = j := fun e => hj e.symm
        simp [Event.releases, Event.isRelease, Event.id, hne]
    · cases List.mem_singleton.mp he
  fresh := by
    intro e he
    rcases List.mem_append.mp he with he | he
    · exact h.fresh e he
    · obtain rfl := List.mem_singleton.mp he
      exact h.lt

theorem Released.append (h : Released l i) (m : List (Event κ)) : Released (l ++ m) i := by
  obtain ⟨e, he, hr⟩ := h
  exact ⟨e, List.mem_append_left m he, hr⟩

theorem Released.not_ordered (h : Released l i) {e : Event κ} (hid : e.id = i) (m : List (Event κ)) :
    ¬ Ordered (l ++ e :: m) := by
  intro hord
  obtain ⟨a, ha, hr⟩ := h
  have h1 : Ordered (l ++ [e]) := by
    rw [show l ++ e :: m = l ++ [e] ++ m by simp] at hord
    exact hord.of_append
  have h2 := (ordered_append_singleton.mp h1).2 a ha
  rw [hid, hr] at h2
  exact absurd h2 (by decide)

end

end PartitionedFilters.Lifecycle

import Mathlib.Data.Int.GCD
import Mathlib.Logic.Function.Iterate
import Mathlib.Tactic.Ring

/-!
# Loops

A loop is its guard and its body. Loops whose guard depends on a part of the
state only end when that part ends (`ends_map`), and a counter that is advanced
by a fixed step modulo a number reaches what the greatest common divisor allows.
-/

namespace PartitionedFilters

structure Loop (σ : Type) where
  guard : σ → Bool
  body : σ → σ

namespace Loop
variable {σ τ : Type} (l : Loop σ)

/-- The guard fails after some number of iterations. -/
def Ends (s : σ) : Prop := ∃ t, l.guard (l.body^[t] s) = false

/-- The loop is left after exactly `t` iterations. -/
structure ExitsAt (t : Nat) (s : σ) : Prop where
  holds : ∀ u < t, l.guard (l.body^[u] s) = true
  fails : l.guard (l.body^[t] s) = false

/-- The loop, entered in `s`, is left in `s'`. -/
def Leaves (s s' : σ) : Prop := ∃ t, l.ExitsAt t s ∧ s' = l.body^[t] s

variable {l} in
theorem ExitsAt.unique {t t' : Nat} {s : σ} (h : l.ExitsAt t s) (h' : l.ExitsAt t' s) : t = t' := by
  rcases Nat.lt_trichotomy t t' with hlt | heq | hlt
  · exact absurd (h'.holds t hlt) (by rw [h.fails]; decide)
  · exact heq
  · exact absurd (h.holds t' hlt) (by rw [h'.fails]; decide)

variable {l} in
theorem ExitsAt.leaves_iff {t : Nat} {s s' : σ} (h : l.ExitsAt t s) : l.Leaves s s' ↔ s' = l.body^[t] s := by
  constructor
  · intro hs
    obtain ⟨t', h', rfl⟩ := hs
    rw [h.unique h']
  · intro hs
    exact ⟨t, h, hs⟩

variable {l} in
theorem Leaves.ends {s s' : σ} (h : l.Leaves s s') : l.Ends s := by
  obtain ⟨t, ht, -⟩ := h
  exact ⟨t, ht.fails⟩

section
variable {l} {k : Loop τ} {f : σ → τ} (hguard : ∀ s, l.guard s = k.guard (f s))
  (hbody : ∀ s, f (l.body s) = k.body (f s))
include hguard hbody

theorem guard_iterate (t : Nat) (s : σ) : l.guard (l.body^[t] s) = k.guard (k.body^[t] (f s)) := by
  rw [hguard, Function.Semiconj.iterate_right hbody t s]

/-- A loop ends when the part of the state that its guard depends on does. -/
theorem ends_map (s : σ) : l.Ends s ↔ k.Ends (f s) := exists_congr fun t => by rw [guard_iterate hguard hbody]

theorem ExitsAt.of_map {t : Nat} {s : σ} (h : k.ExitsAt t (f s)) : l.ExitsAt t s where
  holds u hu := by
    rw [guard_iterate hguard hbody]
    exact h.holds u hu
  fails := by
    rw [guard_iterate hguard hbody]
    exact h.fails

end

variable {l} in
theorem ExitsAt.zero {s : σ} (h : l.guard s = false) : l.ExitsAt 0 s :=
  ⟨fun _ hu => absurd hu (Nat.not_lt_zero _), h⟩

variable {l} in
theorem ExitsAt.succ {t : Nat} {s : σ} (hs : l.guard s = true) (h : l.ExitsAt t (l.body s)) :
    l.ExitsAt (t + 1) s where
  holds u hu := by
    cases u with
    | zero => exact hs
    | succ u =>
      rw [Function.iterate_succ_apply]
      exact h.holds u (Nat.lt_of_succ_lt_succ hu)
  fails := by
    rw [Function.iterate_succ_apply]
    exact h.fails

/-- The states before and after every step of a fold. -/
def foldTrace {ι : Type} (f : σ → ι → σ) : List ι → σ → List (σ × σ)
  | [], _ => []
  | i :: is, s => (s, f s i) :: foldTrace f is (f s i)

/-! ## Counters -/

def countUp (w step stop : Nat) : Loop Nat :=
  { guard := fun i => decide (i < stop), body := fun i => (i + step) % 2 ^ w }

theorem countUp_exitsAt {w step stop : Nat} (hstep : 0 < step) (hstop : stop + step ≤ 2 ^ w) (i : Nat) :
    (countUp w step stop).ExitsAt ((stop + step - 1 - i) / step) i := by
  induction hd : stop - i using Nat.strong_induction_on generalizing i with
  | _ d ih =>
    by_cases hi : i < stop
    · have hbody : (countUp w step stop).body i = i + step := Nat.mod_eq_of_lt (by omega)
      have ht := ih (stop - (i + step)) (by omega) (i + step) rfl
      rw [Nat.div_eq_sub_div hstep (by omega), Nat.sub_sub]
      exact .succ (decide_eq_true hi) (hbody.symm ▸ ht)
    · rw [Nat.div_eq_of_lt (by omega)]
      exact .zero (decide_eq_false hi)

theorem countUp_ends {w step stop : Nat} (hstep : 0 < step) (hstop : stop + step ≤ 2 ^ w) (i : Nat) :
    (countUp w step stop).Ends i :=
  ⟨_, (countUp_exitsAt hstep hstop i).fails⟩

theorem countUp_not_ends {w stop i : Nat} (hi : i < stop) (hw : i < 2 ^ w) : ¬(countUp w 0 stop).Ends i := by
  intro h
  obtain ⟨t, ht⟩ := h
  have hbody : (countUp w 0 stop).body i = i := Nat.mod_eq_of_lt hw
  have hiter : (countUp w 0 stop).body^[t] i = i := Function.iterate_fixed hbody t
  rw [hiter] at ht
  exact of_decide_eq_false ht hi

/-- A counter modulo `n` that is advanced while its next value is below the bound. -/
def counter (n step bound : Nat) : Loop Nat :=
  { guard := fun i => decide ((i + step) % n < bound), body := fun i => (i + step) % n }

/-- Whether such a counter stops: without a step it must not start. -/
def Stops (n step bound i : Nat) : Prop :=
  if step = 0 then bound ≤ i else bound ≤ n - Nat.gcd step n + i % Nat.gcd step n

instance (n step bound i : Nat) : Decidable (Stops n step bound i) := by
  unfold Stops
  infer_instance

section
variable {n step bound i : Nat} (hi : i < n)
include hi

theorem iterate_counter (t : Nat) : (counter n step bound).body^[t] i = (i + step * t) % n := by
  induction t with
  | zero => exact (Nat.mod_eq_of_lt hi).symm
  | succ t ih =>
    rw [Function.iterate_succ_apply', ih]
    show ((i + step * t) % n + step) % n = _
    rw [Nat.mod_add_mod, Nat.mul_succ, Nat.add_assoc]

theorem counter_guard (t : Nat) : (counter n step bound).guard ((counter n step bound).body^[t] i) =
    decide ((i + step * (t + 1)) % n < bound) := by
  rw [iterate_counter hi]
  show decide (((i + step * t) % n + step) % n < bound) = _
  rw [Nat.mod_add_mod, Nat.mul_succ, Nat.add_assoc]

/-- Every value that the greatest common divisor allows is reached. -/
theorem exists_counter_eq (hstep : 0 < step) :
    ∃ t, (i + step * (t + 1)) % n = n - Nat.gcd step n + i % Nat.gcd step n := by
  have hn : 0 < n := Nat.zero_lt_of_lt hi
  have hg := Nat.gcd_pos_of_pos_left n hstep
  have hgn := Nat.gcd_dvd_right step n
  have hgs := Nat.gcd_dvd_left step n
  have hle := Nat.le_of_dvd hn hgn
  obtain ⟨a, ha⟩ : ∃ a, (step * a) % n = Nat.gcd step n % n := by
    rcases Nat.lt_or_eq_of_le hle with hlt | heq
    · obtain ⟨a, -, ha⟩ := Nat.exists_mul_mod_eq_gcd hlt
      exact ⟨a, ha.trans (Nat.mod_eq_of_lt hlt).symm⟩
    · exact ⟨0, by rw [heq, Nat.mul_zero, Nat.zero_mod, Nat.mod_self]⟩
  -- the distance to the last value is a multiple of the divisor
  obtain ⟨d, hd⟩ : ∃ d, i + Nat.gcd step n * d = n - Nat.gcd step n + i % Nat.gcd step n + n := by
    obtain ⟨b, hb⟩ := hgn
    have hdm := Nat.div_add_mod i (Nat.gcd step n)
    have hdiv : i / Nat.gcd step n ≤ b := Nat.div_le_of_le_mul (hb ▸ Nat.le_of_lt hi)
    refine ⟨b + b - 1 - i / Nat.gcd step n, ?_⟩
    have hb1 : 1 ≤ b := Nat.pos_of_ne_zero fun h0 => by
      rw [h0, Nat.mul_zero] at hb
      omega
    rw [Nat.mul_sub, Nat.mul_sub, Nat.mul_add, ← hb, Nat.mul_one]
    have hmul := Nat.mul_le_mul_left (Nat.gcd step n) hdiv
    rw [← hb] at hmul
    omega
  have hlt := Nat.mod_lt i hg
  refine ⟨a * d + n - 1, ?_⟩
  rw [show a * d + n - 1 + 1 = a * d + n by omega, Nat.mul_add, ← Nat.mul_assoc, ← Nat.add_assoc,
    Nat.add_mul_mod_self_right, Nat.add_mod, Nat.mul_mod, ha, ← Nat.mul_mod, ← Nat.add_mod, hd, Nat.add_mod_right,
    Nat.mod_eq_of_lt (by omega)]

theorem counter_ends_iff : (counter n step bound).Ends i ↔ Stops n step bound i := by
  have hiff : (counter n step bound).Ends i ↔ ∃ t, bound ≤ (i + step * (t + 1)) % n :=
    exists_congr fun t => by rw [counter_guard hi, decide_eq_false_iff_not, Nat.not_lt]
  rw [hiff, Stops]
  split
  · rename_i h
    simp [h, Nat.mod_eq_of_lt hi]
  · rename_i h
    have hn : 0 < n := Nat.zero_lt_of_lt hi
    have hgn := Nat.gcd_dvd_right step n
    constructor
    · rintro ⟨t, ht⟩
      refine Nat.le_trans ht ?_
      have hlt := Nat.mod_lt (i + step * (t + 1)) hn
      have hmod : (i + step * (t + 1)) % n % Nat.gcd step n = i % Nat.gcd step n := by
        rw [Nat.mod_mod_of_dvd _ hgn, Nat.add_mod, Nat.mul_mod, Nat.mod_eq_zero_of_dvd (Nat.gcd_dvd_left step n)]
        simp
      obtain ⟨b, hb⟩ := hgn
      have hdm := Nat.div_add_mod ((i + step * (t + 1)) % n) (Nat.gcd step n)
      have hdiv : (i + step * (t + 1)) % n / Nat.gcd step n < b := by
        rw [Nat.div_lt_iff_lt_mul (Nat.gcd_pos_of_pos_left n (Nat.pos_of_ne_zero h)), Nat.mul_comm b, ← hb]
        exact hlt
      have hmul := Nat.mul_le_mul_left (Nat.gcd step n) (Nat.succ_le_of_lt hdiv)
      rw [← hb, Nat.mul_succ] at hmul
      rw [hmod] at hdm
      omega
    · intro hle
      obtain ⟨t, ht⟩ := exists_counter_eq hi (Nat.pos_of_ne_zero h)
      exact ⟨t, ht ▸ hle⟩

/-- Where nothing wraps, a counter with a step takes as many steps as fit. -/
theorem counter_exitsAt (hstep : 0 < step) (hle : i < bound) (hn : bound + step ≤ n) :
    (counter n step bound).ExitsAt ((bound - 1 - i) / step) i := by
  have hdm := Nat.div_add_mod (bound - 1 - i) step
  have hlt := Nat.mod_lt (bound - 1 - i) hstep
  constructor
  · intro u hu
    have hmul := Nat.mul_le_mul_left step (Nat.succ_le_of_lt hu)
    rw [counter_guard hi, decide_eq_true_eq, Nat.mod_eq_of_lt]
    · rw [Nat.succ_eq_add_one] at hmul
      omega
    · rw [Nat.succ_eq_add_one] at hmul
      omega
  · rw [counter_guard hi, decide_eq_false_iff_not, Nat.not_lt, Nat.mul_succ, Nat.mod_eq_of_lt (by omega)]
    omega

end

end Loop

end PartitionedFilters

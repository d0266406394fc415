import PartitionedFilters.TaskQueue
import Mathlib.Data.List.Nodup
import Mathlib.Tactic.Ring

/-!
# Soundness of the task queue and its barrier

A barrier is `nThreads` ordinary entries, so what ties `pos`, the barrier's
counter, its generation and the generations the threads captured is the number
of wait entries fetched so far (`Inv.fetched`).
-/

namespace PartitionedFilters

/-! ## Wait entries -/

/-- Entries of `add_barrier` among the first `p`. -/
def waits {τ : Type} (tasks : List (Task τ)) (p : Nat) : Nat := (tasks.take p).countP Task.isWait

def waitAt {τ : Type} (tasks : List (Task τ)) (p : Nat) : Bool := tasks[p]?.any Task.isWait

section
variable {τ : Type} {tasks : List (Task τ)} {p q : Nat}

theorem waits_zero : waits tasks 0 = 0 := by simp [waits]

theorem waits_succ (p : Nat) : waits tasks (p + 1) = waits tasks p + if waitAt tasks p then 1 else 0 := by
  unfold waits waitAt
  rw [List.take_add_one, List.countP_append]
  cases h : tasks[p]? with
  | none => simp
  | some a => by_cases ha : a.isWait <;> simp [ha]

theorem waits_mono (h : p ≤ q) : waits tasks p ≤ waits tasks q := by
  induction h with
  | refl => exact Nat.le_refl _
  | @step q _ ih => rw [waits_succ]; omega

theorem waits_of_length_le (h : tasks.length ≤ p) : waits tasks p = waits tasks tasks.length := by
  simp only [waits, List.take_of_length_le h, List.take_length]

theorem waitAt_eq_true : waitAt tasks p = true ↔ tasks[p]? = some .wait := by
  unfold waitAt
  rcases tasks[p]? with _ | (_ | _) <;> simp [Task.isWait]

theorem waitAt_eq_false (hp : p < tasks.length) : waitAt tasks p = false ↔ ∃ f, tasks[p]? = some (.body f) := by
  unfold waitAt
  rw [List.getElem?_eq_getElem hp]
  rcases tasks[p] with _ | _ <;> simp [Task.isWait]

end

/-! ## What one step does -/

namespace Exec
variable {τ : Type}

/-- The effect of a step, with the list of threads opened at the one that moved. -/
inductive Moves (s : Exec τ) : Action τ → Exec τ → Prop
  | addTask (f : τ) : s.main = .idle → Moves s (.addTask f) { s with queue := s.queue.addTask f }
  | addBarrier : s.main = .idle → Moves s .addBarrier { s with queue := s.queue.addBarrier }
  | executeTasks : s.main = .idle → Moves s .executeTasks { s with main := .spawning }
  | spawn : s.main = .spawning → s.threads.length < s.queue.nThreads →
      Moves s .spawn { s with threads := s.threads ++ [.fetch] }
  | spawned : s.main = .spawning → s.queue.nThreads ≤ s.threads.length →
    Moves s .spawn { s with main := .joining 0 }
  | join (i : Nat) : s.main = .joining i → s.threads[i]? = some .exited →
    Moves s .join { s with main := .joining (i + 1) }
  | reset : s.main = .joining s.threads.length →
      Moves s .reset { queue := s.queue.reset, main := .idle, threads := [], log := [] }
  | leave (l₁ l₂ : List Worker) : s.threads = l₁ ++ .fetch :: l₂ → s.queue.tasks.length ≤ s.queue.pos →
      Moves s (.fetch l₁.length)
        { s with queue := { s.queue with pos := s.queue.pos + 1 }, threads := l₁ ++ .exited :: l₂ }
  | fetch (l₁ l₂ : List Worker) : s.threads = l₁ ++ .fetch :: l₂ → s.queue.pos < s.queue.tasks.length →
      Moves s (.fetch l₁.length)
        { s with queue := { s.queue with pos := s.queue.pos + 1 }, threads := l₁ ++ .run s.queue.pos :: l₂ }
  | run (l₁ l₂ : List Worker) (p : Nat) : s.threads = l₁ ++ .run p :: l₂ → waitAt s.queue.tasks p = false →
      Moves s (.run l₁.length) { s with threads := l₁ ++ .fetch :: l₂, log := p :: s.log }
  | release (l₁ l₂ : List Worker) (p : Nat) : s.threads = l₁ ++ .run p :: l₂ → waitAt s.queue.tasks p = true →
      s.queue.barrier.counter - 1 = 0 →
      Moves s (.arrive l₁.length) { s with
        queue := { s.queue with barrier := { s.queue.barrier with
          generation := s.queue.barrier.generation + 1, counter := s.queue.barrier.nThreads } }
        threads := l₁.map .notify ++ .fetch :: l₂.map .notify, log := p :: s.log }
  | block (l₁ l₂ : List Worker) (p : Nat) : s.threads = l₁ ++ .run p :: l₂ → waitAt s.queue.tasks p = true →
      s.queue.barrier.counter - 1 ≠ 0 →
      Moves s (.arrive l₁.length) { s with
        queue := { s.queue with barrier := { s.queue.barrier with counter := s.queue.barrier.counter - 1 } }
        threads := l₁ ++ .waiting p s.queue.barrier.generation false :: l₂ }
  | pass (l₁ l₂ : List Worker) (p g : Nat) (b : Bool) : s.threads = l₁ ++ .waiting p g b :: l₂ →
      g ≠ s.queue.barrier.generation →
      Moves s (.wake l₁.length) { s with threads := l₁ ++ .fetch :: l₂, log := p :: s.log }
  | sleep (l₁ l₂ : List Worker) (p : Nat) (b : Bool) :
      s.threads = l₁ ++ .waiting p s.queue.barrier.generation b :: l₂ →
      Moves s (.wake l₁.length) { s with threads := l₁ ++ .waiting p s.queue.barrier.generation false :: l₂ }

theorem split_of_getElem? {l : List Worker} {t : Nat} {w : Worker} (h : l[t]? = some w) :
    ∃ l₁ l₂, l = l₁ ++ w :: l₂ ∧ l₁.length = t := by
  obtain ⟨ht, rfl⟩ := List.getElem?_eq_some_iff.mp h
  exact ⟨l.take t, l.drop (t + 1), by simp, by simp; omega⟩

theorem set_split (l₁ l₂ : List Worker) (w w' : Worker) : (l₁ ++ w :: l₂).set l₁.length w' = l₁ ++ w' :: l₂ := by
  rw [List.set_append_right _ _ (Nat.le_refl _)]
  simp

theorem moves_of_step {s s' : Exec τ} {a : Action τ} (h : s.step a = some s') : s.Moves a s' := by
  cases a with
  | addTask f =>
    simp only [step, Option.ite_none_right_eq_some, Option.some.injEq] at h
    obtain ⟨hm, rfl⟩ := h
    exact .addTask f hm
  | addBarrier =>
    simp only [step, Option.ite_none_right_eq_some, Option.some.injEq] at h
    obtain ⟨hm, rfl⟩ := h
    exact .addBarrier hm
  | executeTasks =>
    simp only [step, Option.ite_none_right_eq_some, Option.some.injEq] at h
    obtain ⟨hm, rfl⟩ := h
    exact .executeTasks hm
  | spawn =>
    simp only [step] at h
    split at h
    · rename_i hm
      split at h <;> cases h
      · rename_i hlt; exact .spawn hm hlt
      · rename_i hlt; exact .spawned hm (Nat.le_of_not_lt hlt)
    · cases h
  | join =>
    simp only [step] at h
    split at h
    · rename_i i hm
      split at h <;> cases h
      rename_i hi; exact .join i hm hi
    · cases h
  | reset =>
    simp only [step] at h
    split at h
    · rename_i i hm
      split at h <;> cases h
      rename_i hi; exact .reset (hi ▸ hm)
    · cases h
  | fetch t =>
    simp only [step] at h
    split at h <;> cases h
    rename_i ht
    obtain ⟨l₁, l₂, hl, rfl⟩ := split_of_getElem? ht
    rw [hl, set_split]
    split
    · rename_i hp; exact .leave l₁ l₂ hl hp
    · rename_i hp; exact .fetch l₁ l₂ hl (Nat.lt_of_not_le hp)
  | run t =>
    simp only [step] at h
    split at h
    · rename_i p ht
      split at h <;> cases h
      rename_i f hf
      obtain ⟨l₁, l₂, hl, rfl⟩ := split_of_getElem? ht
      rw [hl, set_split]
      exact .run l₁ l₂ p hl (by simp [waitAt, hf, Task.isWait])
    · cases h
  | arrive t =>
    simp only [step, Barrier.arrive] at h
    split at h
    · rename_i p ht
      split at h
      · rename_i hw
        obtain ⟨l₁, l₂, hl, rfl⟩ := split_of_getElem? ht
        by_cases hc : s.queue.barrier.counter - 1 = 0
        · simp only [hc, if_true, Option.some.injEq] at h
          subst h
          have he : (s.threads.map Worker.notify).set l₁.length .fetch
              = l₁.map .notify ++ .fetch :: l₂.map .notify := by
            rw [hl, List.map_append, List.map_cons, ← List.length_map Worker.notify, set_split]
          rw [he]
          exact .release l₁ l₂ p hl (waitAt_eq_true.mpr hw) hc
        · simp only [hc, if_false, Option.some.injEq] at h
          subst h
          rw [hl, set_split]
          exact .block l₁ l₂ p hl (waitAt_eq_true.mpr hw) hc
      · cases h
    · cases h
  | wake t =>
    simp only [step] at h
    split at h
    · rename_i p g b ht
      obtain ⟨l₁, l₂, hl, rfl⟩ := split_of_getElem? ht
      split at h <;> cases h
      · rename_i hg
        rw [hl, set_split]
        exact .pass l₁ l₂ p g b hl hg
      · rename_i hg
        obtain rfl := not_not.mp hg
        rw [hl, set_split]
        exact .sleep l₁ l₂ p b hl
    · cases h

end Exec

/-! ## The invariant -/

def Worker.held : Worker → Option Nat
  | .run p => some p
  | .waiting p _ _ => some p
  | _ => none

/-- Workers asleep in the barrier since generation `g`. -/
def Worker.arrived (g : Nat) : Worker → Bool
  | .waiting _ g' _ => g' == g
  | _ => false

/-- Workers that hold a wait entry of generation `g`. -/
def Worker.current {τ : Type} (tasks : List (Task τ)) (g : Nat) : Worker → Bool
  | .run p => waitAt tasks p
  | w => w.arrived g

section
variable {τ : Type} (tasks : List (Task τ)) (p g g' : Nat) (b : Bool)

@[simp] theorem Worker.held_fetch : Worker.fetch.held = none := rfl
@[simp] theorem Worker.held_run : (Worker.run p).held = some p := rfl
@[simp] theorem Worker.held_waiting : (Worker.waiting p g b).held = some p := rfl
@[simp] theorem Worker.held_exited : Worker.exited.held = none := rfl
@[simp] theorem Worker.arrived_fetch : Worker.fetch.arrived g = false := rfl
@[simp] theorem Worker.arrived_run : (Worker.run p).arrived g = false := rfl
@[simp] theorem Worker.arrived_waiting : (Worker.waiting p g' b).arrived g = (g' == g) := rfl
@[simp] theorem Worker.arrived_exited : Worker.exited.arrived g = false := rfl
@[simp] theorem Worker.current_fetch : Worker.fetch.current tasks g = false := rfl
@[simp] theorem Worker.current_run : (Worker.run p).current tasks g = waitAt tasks p := rfl
@[simp] theorem Worker.current_waiting : (Worker.waiting p g' b).current tasks g = (g' == g) := rfl
@[simp] theorem Worker.current_exited : Worker.exited.current tasks g = false := rfl

end

/-- What holds of one worker: its entry is not ahead of the group of the
generation, and a wait of the current generation is not behind it. -/
def Worker.Ok {τ : Type} (q : TaskQueue τ) : Worker → Prop
  | .fetch => True
  | .run p => p < q.tasks.length ∧ waits q.tasks p < (q.barrier.generation + 1) * q.nThreads ∧
      (waitAt q.tasks p = true → q.barrier.generation * q.nThreads ≤ waits q.tasks p)
  | .waiting p g notified => waitAt q.tasks p = true ∧ (notified = false ↔ g = q.barrier.generation) ∧
      (g = q.barrier.generation → q.barrier.generation * q.nThreads ≤ waits q.tasks p)
  | .exited => q.tasks.length ≤ q.pos

def Main.Ok {τ : Type} (q : TaskQueue τ) (threads : List Worker) (log : List Nat) : Main → Prop
  | .idle => q.pos = 0 ∧ threads = [] ∧ log = [] ∧ q.barrier = .new q.nThreads
  | .spawning => threads.length ≤ q.nThreads
  | .joining i => threads.length = q.nThreads ∧ ∀ j < i, threads[j]? = some .exited

theorem Worker.Ok.later {τ : Type} {w : Worker} {q q' : TaskQueue τ} (hw : w.Ok q) (ht : q'.tasks = q.tasks)
    (hn : q'.nThreads = q.nThreads) (hg : q'.barrier.generation = q.barrier.generation) (hp : q.pos ≤ q'.pos) :
    w.Ok q' := by
  cases w with
  | fetch => trivial
  | run p => simpa only [Worker.Ok, ht, hn, hg] using hw
  | waiting p g b => simpa only [Worker.Ok, ht, hn, hg] using hw
  | exited => exact le_trans (le_of_eq_of_le (congrArg List.length ht) hw) hp

theorem Main.Ok.moved {τ : Type} {m : Main} {q q' : TaskQueue τ} {l₁ l₂ : List Worker} {log log' : List Nat}
    {w w' : Worker} (hm : m.Ok q (l₁ ++ w :: l₂) log) (hw : w ≠ .exited) (hn : q'.nThreads = q.nThreads) :
    m.Ok q' (l₁ ++ w' :: l₂) log' := by
  cases m with
  | idle => simp [Main.Ok] at hm
  | spawning => simpa only [Main.Ok, List.length_append, List.length_cons, hn] using hm
  | joining i =>
    obtain ⟨hlen, hj⟩ := hm
    refine ⟨by simpa only [List.length_append, List.length_cons, hn] using hlen, fun j hji => ?_⟩
    have h := hj j hji
    rcases lt_trichotomy j l₁.length with hlt | rfl | hlt
    · rwa [List.getElem?_append_left hlt] at h ⊢
    · simp only [List.getElem?_append_right (Nat.le_refl _), Nat.sub_self, List.getElem?_cons_zero,
        Option.some.injEq] at h
      exact absurd h hw
    · obtain ⟨d, rfl⟩ : ∃ d, j = l₁.length + (d + 1) := ⟨j - l₁.length - 1, by omega⟩
      simpa only [List.getElem?_append_right (Nat.le_add_right _ _), Nat.add_sub_cancel_left,
        List.getElem?_cons_succ] using h

theorem Main.Ok.notify {τ : Type} {m : Main} {q : TaskQueue τ} {threads : List Worker} {log : List Nat}
    (hm : m.Ok q threads log) : m.Ok q (threads.map .notify) log := by
  cases m with
  | idle => simpa [Main.Ok] using hm
  | spawning => simpa [Main.Ok] using hm
  | joining i => exact ⟨by simpa using hm.1, fun j hj => by simp [hm.2 j hj, Worker.notify]⟩

theorem Worker.held_notify (w : Worker) : w.notify.held = w.held := by cases w <;> rfl

theorem Worker.eq_waiting_of_arrived {w : Worker} {g : Nat} (h : w.arrived g = true) :
    ∃ p b, w = .waiting p g b := by
  cases w with
  | waiting p g' b => exact ⟨p, b, by rw [← beq_iff_eq.mp (show (g' == g) = true from h)]⟩
  | _ => cases h

namespace Exec
variable {τ : Type}

structure Inv (s : Exec τ) : Prop where
  positive : 0 < s.queue.nThreads
  nThreads : s.queue.barrier.nThreads = s.queue.nThreads
  groups : s.queue.nThreads ∣ waits s.queue.tasks s.queue.tasks.length
  main : s.main.Ok s.queue s.threads s.log
  workers : ∀ w ∈ s.threads, w.Ok s.queue
  once : ∀ p, (s.threads.filterMap Worker.held).count p + s.log.count p =
    if p < s.queue.pos ∧ p < s.queue.tasks.length then 1 else 0
  fetched : waits s.queue.tasks s.queue.pos = s.queue.barrier.generation * s.queue.nThreads +
    s.threads.countP (Worker.current s.queue.tasks s.queue.barrier.generation)
  counter : s.queue.barrier.counter + s.threads.countP (Worker.arrived s.queue.barrier.generation) =
    s.queue.nThreads
  counter_pos : 0 < s.queue.barrier.counter
  finished : ∀ q < s.queue.tasks.length,
    waits s.queue.tasks (q + 1) + s.queue.nThreads ≤ s.queue.barrier.generation * s.queue.nThreads → q ∈ s.log

theorem Inv.length_le {s : Exec τ} (h : s.Inv) : s.threads.length ≤ s.queue.nThreads := by
  have hm := h.main
  unfold Main.Ok at hm
  split at hm
  · simp [hm.2.1]
  · exact hm
  · omega

/-- A worker that does not hold a wait of the current generation leaves one entry of its group unfetched. -/
theorem Inv.fetched_lt {s : Exec τ} (h : s.Inv) {l₁ l₂ : List Worker} {w : Worker}
    (hl : s.threads = l₁ ++ w :: l₂) (hw : w.current s.queue.tasks s.queue.barrier.generation = false) :
    waits s.queue.tasks s.queue.pos < (s.queue.barrier.generation + 1) * s.queue.nThreads := by
  have hc := h.fetched
  have hle := h.length_le
  rw [hl] at hc hle
  simp only [List.countP_append, List.countP_cons, hw, Bool.false_eq_true, if_false, List.length_append,
    List.length_cons] at hc hle
  have h1 := List.countP_le_length (p := Worker.current s.queue.tasks s.queue.barrier.generation) (l := l₁)
  have h2 := List.countP_le_length (p := Worker.current s.queue.tasks s.queue.barrier.generation) (l := l₂)
  rw [Nat.succ_mul]
  omega

/-! ## Preservation by each step -/

theorem Inv.ok_of_mem {s : Exec τ} (h : s.Inv) {l₁ l₂ : List Worker} {w : Worker} (hl : s.threads = l₁ ++ w :: l₂) :
    w.Ok s.queue := h.workers w (by simp [hl])

theorem countP_split (f : Worker → Bool) (l₁ l₂ : List Worker) (w : Worker) :
    (l₁ ++ w :: l₂).countP f = l₁.countP f + l₂.countP f + if f w then 1 else 0 := by
  rw [List.countP_append, List.countP_cons, Nat.add_assoc]

theorem count_held_split (p : Nat) (l₁ l₂ : List Worker) (w : Worker) :
    ((l₁ ++ w :: l₂).filterMap Worker.held).count p = (l₁.filterMap Worker.held).count p +
      (l₂.filterMap Worker.held).count p + if w.held = some p then 1 else 0 := by
  rw [List.filterMap_append, List.filterMap_cons, List.count_append]
  cases h : w.held with
  | none => simp
  | some q => simp [List.count_cons, Nat.add_assoc]

/-- One worker moves within its generation: what it gives up and takes over balances. -/
theorem Inv.moved {s : Exec τ} (h : s.Inv) {l₁ l₂ : List Worker} {w w' : Worker} {log' : List Nat}
    (q' : TaskQueue τ) (hl : s.threads = l₁ ++ w :: l₂) (hw : w ≠ .exited) (hw' : w'.Ok q')
    (ht : q'.tasks = s.queue.tasks) (hn : q'.nThreads = s.queue.nThreads)
    (hb : q'.barrier = { s.queue.barrier with counter := q'.barrier.counter }) (hp : s.queue.pos ≤ q'.pos)
    (once : ∀ p, ((if w'.held = some p then 1 else 0) + log'.count p) +
        (if p < s.queue.pos ∧ p < s.queue.tasks.length then 1 else 0) =
      ((if w.held = some p then 1 else 0) + s.log.count p) +
        if p < q'.pos ∧ p < s.queue.tasks.length then 1 else 0)
    (fetched : waits s.queue.tasks q'.pos +
        (if w.current s.queue.tasks s.queue.barrier.generation then 1 else 0) =
      waits s.queue.tasks s.queue.pos + if w'.current s.queue.tasks s.queue.barrier.generation then 1 else 0)
    (counter : q'.barrier.counter + (if w'.arrived s.queue.barrier.generation then 1 else 0) =
      s.queue.barrier.counter + if w.arrived s.queue.barrier.generation then 1 else 0)
    (counter_pos : 0 < q'.barrier.counter) (log : ∀ q ∈ s.log, q ∈ log') :
    Inv { s with queue := q', threads := l₁ ++ w' :: l₂, log := log' } := by
  have hg : q'.barrier.generation = s.queue.barrier.generation := by rw [hb]
  have hbn : q'.barrier.nThreads = s.queue.barrier.nThreads := by rw [hb]
  have ho := h.once
  have hf := h.fetched
  have hc := h.counter
  simp only [hl, count_held_split, countP_split] at ho hf hc
  refine ⟨?_, ?_, ?_, (hl ▸ h.main).moved hw hn, ?_, ?_, ?_, ?_, counter_pos, ?_⟩
  · exact hn ▸ h.positive
  · simp only [hbn, hn, h.nThreads]
  · simp only [ht, hn, h.groups]
  · intro v hv
    rcases List.mem_append.mp hv with hv | hv
    · exact (h.workers v (by simp [hl, hv])).later ht hn hg hp
    rcases List.mem_cons.mp hv with rfl | hv
    · exact hw'
    · exact (h.workers v (by simp [hl, hv])).later ht hn hg hp
  · intro p
    have h1 := ho p
    have h2 := once p
    simp only [count_held_split, ht]
    omega
  · simp only [countP_split, ht, hn, hg]
    omega
  · simp only [countP_split, hn, hg]
    omega
  · intro q hq hle
    simp only [ht, hn, hg] at hq hle
    exact log q (h.finished q hq hle)

theorem Inv.fetch {s : Exec τ} (h : s.Inv) {l₁ l₂ : List Worker} (hl : s.threads = l₁ ++ .fetch :: l₂)
    (hp : s.queue.pos < s.queue.tasks.length) :
    Inv { s with queue := { s.queue with pos := s.queue.pos + 1 }, threads := l₁ ++ .run s.queue.pos :: l₂ } := by
  refine h.moved { s.queue with pos := s.queue.pos + 1 } hl (by simp)
    ⟨hp, h.fetched_lt hl rfl, fun _ => Nat.le.intro h.fetched.symm⟩ rfl rfl rfl (Nat.le_succ _) (fun p => ?_) ?_ rfl
    h.counter_pos (fun _ => id)
  · simp only [Worker.held_run, Worker.held_fetch, Option.some.injEq, reduceCtorEq, if_false]
    split_ifs <;> omega
  · rw [waits_succ]; rfl

theorem Inv.leave {s : Exec τ} (h : s.Inv) {l₁ l₂ : List Worker} (hl : s.threads = l₁ ++ .fetch :: l₂)
    (hp : s.queue.tasks.length ≤ s.queue.pos) :
    Inv { s with queue := { s.queue with pos := s.queue.pos + 1 }, threads := l₁ ++ .exited :: l₂ } := by
  have he : waitAt s.queue.tasks s.queue.pos = false := by simp [waitAt, List.getElem?_eq_none hp]
  refine h.moved { s.queue with pos := s.queue.pos + 1 } hl (by simp) (Nat.le_succ_of_le hp) rfl rfl rfl
    (Nat.le_succ _) (fun p => ?_) ?_ rfl h.counter_pos (fun _ => id)
  · simp only [Worker.held_exited, Worker.held_fetch, reduceCtorEq, if_false]
    split_ifs <;> omega
  · simp [waits_succ, he]

/-- A worker that finishes entry `p` without opening the barrier. -/
theorem Inv.finish {s : Exec τ} (h : s.Inv) {l₁ l₂ : List Worker} {w : Worker} {p : Nat}
    (hl : s.threads = l₁ ++ w :: l₂) (hw : w.held = some p)
    (hc : w.current s.queue.tasks s.queue.barrier.generation = false)
    (ha : w.arrived s.queue.barrier.generation = false) :
    Inv { s with threads := l₁ ++ .fetch :: l₂, log := p :: s.log } := by
  refine h.moved s.queue hl (by rintro rfl; cases hw) trivial rfl rfl rfl (Nat.le_refl _)
    (fun q => ?_) (by simp [hc])
    (by simp [ha]) h.counter_pos (fun q hq => List.mem_cons_of_mem p hq)
  simp only [hw, Worker.held_fetch, reduceCtorEq, if_false, Option.some.injEq, List.count_cons, beq_iff_eq]
  omega

theorem Inv.block {s : Exec τ} (h : s.Inv) {l₁ l₂ : List Worker} {p : Nat} (hl : s.threads = l₁ ++ .run p :: l₂)
    (hw : waitAt s.queue.tasks p = true) (hc : s.queue.barrier.counter - 1 ≠ 0) :
    Inv { s with
      queue := { s.queue with barrier := { s.queue.barrier with counter := s.queue.barrier.counter - 1 } }
      threads := l₁ ++ .waiting p s.queue.barrier.generation false :: l₂ } := by
  obtain ⟨-, -, hle⟩ := h.ok_of_mem hl
  refine h.moved _ hl (by simp) ⟨hw, by simp, fun _ => hle hw⟩ rfl rfl rfl (Nat.le_refl _)
    (fun q => by simp) (by simp [hw]) ?_ (Nat.pos_of_ne_zero hc) (fun _ => id)
  simp
  omega

theorem Inv.sleep {s : Exec τ} (h : s.Inv) {l₁ l₂ : List Worker} {p : Nat} {b : Bool}
    (hl : s.threads = l₁ ++ .waiting p s.queue.barrier.generation b :: l₂) :
    Inv { s with threads := l₁ ++ .waiting p s.queue.barrier.generation false :: l₂ } := by
  obtain ⟨hw, -, hle⟩ := h.ok_of_mem hl
  exact h.moved s.queue hl (by simp) ⟨hw, by simp, hle⟩ rfl rfl rfl (Nat.le_refl _) (fun q => by simp) (by simp)
    (by simp) h.counter_pos (fun _ => id)

/-- The last arrival: all other workers sleep in the barrier, each with its entry of the group. -/
theorem Inv.arrived_of_last {s : Exec τ} (h : s.Inv) {l₁ l₂ : List Worker} {p : Nat}
    (hl : s.threads = l₁ ++ .run p :: l₂) (hc : s.queue.barrier.counter - 1 = 0) :
    (∀ w ∈ l₁ ++ l₂, w.arrived s.queue.barrier.generation = true) ∧
      (l₁ ++ l₂).length + 1 = s.queue.nThreads := by
  have hcount := h.counter
  have hpos := h.counter_pos
  have hle := h.length_le
  simp only [hl, countP_split, Worker.arrived_run, Bool.false_eq_true, if_false, List.length_append,
    List.length_cons] at hcount hle
  have hall := List.countP_le_length (p := Worker.arrived s.queue.barrier.generation) (l := l₁ ++ l₂)
  have heq : (l₁ ++ l₂).countP (Worker.arrived s.queue.barrier.generation) = (l₁ ++ l₂).length := by
    rw [List.countP_append, List.length_append] at hall ⊢
    omega
  refine ⟨List.countP_eq_length.mp heq, ?_⟩
  rw [List.countP_append, List.length_append] at heq
  rw [List.length_append]
  omega

theorem countP_notify_eq_zero {l : List Worker} {g : Nat} {f : Worker → Bool} (h : ∀ w ∈ l, w.arrived g = true)
    (hf : ∀ p b, f (.waiting p g b) = false) : (l.map Worker.notify).countP f = 0 := by
  rw [List.countP_eq_zero]
  intro v hv
  obtain ⟨w, hw, rfl⟩ := List.mem_map.mp hv
  obtain ⟨p, b, rfl⟩ := Worker.eq_waiting_of_arrived (h w hw)
  simp [Worker.notify, hf]

/-- When a group is complete, every entry up to it that is not one of its own waits has finished. -/
theorem Inv.finished_of_last {s : Exec τ} (h : s.Inv) {l₁ l₂ : List Worker} {p : Nat}
    (hl : s.threads = l₁ ++ .run p :: l₂) (hw : waitAt s.queue.tasks p = true)
    (hc : s.queue.barrier.counter - 1 = 0) {q : Nat} (hq : q < s.queue.tasks.length)
    (hle : waits s.queue.tasks (q + 1) ≤ s.queue.barrier.generation * s.queue.nThreads) : q ∈ s.log := by
  obtain ⟨hall, hlen⟩ := h.arrived_of_last hl hc
  have hheld : ∀ v ∈ s.threads, v.held ≠ some q := by
    intro v hv hvq
    rw [hl, List.mem_append, List.mem_cons] at hv
    have hwait : waitAt s.queue.tasks q = true →
        s.queue.barrier.generation * s.queue.nThreads ≤ waits s.queue.tasks q → False := by
      intro h1 h2
      rw [waits_succ, h1, if_pos rfl] at hle
      omega
    by_cases hrun : v = .run p
    · subst hrun
      obtain rfl : p = q := Option.some.inj hvq
      exact hwait hw ((h.ok_of_mem hl).2.2 hw)
    · have hmem : v ∈ l₁ ++ l₂ := List.mem_append.mpr (by tauto)
      obtain ⟨r, b, rfl⟩ := Worker.eq_waiting_of_arrived (hall v hmem)
      obtain rfl : r = q := Option.some.inj hvq
      have hok : (Worker.waiting r s.queue.barrier.generation b).Ok s.queue :=
        h.workers _ (by rw [hl, List.mem_append, List.mem_cons]; exact hv)
      exact hwait hok.1 (hok.2.2 rfl)
  have hcount : (s.threads.filterMap Worker.held).count q = 0 := by
    rw [List.count_eq_zero, List.mem_filterMap]
    rintro ⟨v, hv, hvq⟩
    exact hheld v hv hvq
  have hpos : q < s.queue.pos := by
    by_contra hge
    have hmono : waits s.queue.tasks s.queue.pos ≤ waits s.queue.tasks (q + 1) := waits_mono (by omega)
    have hf := h.fetched
    simp only [hl, countP_split, Worker.current_run, hw, if_true] at hf
    omega
  have ho := h.once q
  rw [hcount, if_pos ⟨hpos, hq⟩] at ho
  exact List.count_pos_iff.mp (by omega)

theorem Inv.release {s : Exec τ} (h : s.Inv) {l₁ l₂ : List Worker} {p : Nat} (hl : s.threads = l₁ ++ .run p :: l₂)
    (hw : waitAt s.queue.tasks p = true) (hc : s.queue.barrier.counter - 1 = 0) :
    Inv { s with
      queue := { s.queue with barrier :=
        { s.queue.barrier with generation := s.queue.barrier.generation + 1, counter := s.queue.barrier.nThreads } }
      threads := l₁.map .notify ++ .fetch :: l₂.map .notify, log := p :: s.log } := by
  obtain ⟨hall, hlen⟩ := h.arrived_of_last hl hc
  have h1 : ∀ w ∈ l₁, w.arrived s.queue.barrier.generation = true := fun w hw => hall w (List.mem_append_left _ hw)
  have h2 : ∀ w ∈ l₂, w.arrived s.queue.barrier.generation = true := fun w hw => hall w (List.mem_append_right _ hw)
  have hm : s.main.Ok s.queue (l₁.map .notify ++ .run p :: l₂.map .notify) s.log := by
    simpa [hl, Worker.notify] using h.main.notify
  refine ⟨h.positive, h.nThreads, h.groups, hm.moved (by simp) rfl, ?_, ?_, ?_, ?_, ?_, ?_⟩
  · intro v hv
    simp only [List.mem_append, List.mem_cons, List.mem_map] at hv
    obtain rfl | ⟨w, hw, rfl⟩ : v = .fetch ∨ ∃ w ∈ l₁ ++ l₂, w.notify = v := by
      rcases hv with ⟨w, hw, rfl⟩ | rfl | ⟨w, hw, rfl⟩
      · exact .inr ⟨w, List.mem_append_left _ hw, rfl⟩
      · exact .inl rfl
      · exact .inr ⟨w, List.mem_append_right _ hw, rfl⟩
    · trivial
    · obtain ⟨r, b, rfl⟩ := Worker.eq_waiting_of_arrived (hall w hw)
      have hok : (Worker.waiting r s.queue.barrier.generation b).Ok s.queue := h.workers _ (by
        rw [hl, List.mem_append, List.mem_cons]
        rcases List.mem_append.mp hw with hw | hw <;> tauto)
      exact ⟨hok.1, by simp, fun e => absurd e (Nat.ne_of_lt (Nat.lt_succ_self _))⟩
  · intro q
    have ho := h.once q
    have hmap : ∀ l : List Worker, (l.map Worker.notify).filterMap Worker.held = l.filterMap Worker.held := by
      intro l
      rw [List.filterMap_map]
      exact congrArg (List.filterMap · l) (funext Worker.held_notify)
    simp only [hl, count_held_split, hmap, Worker.held_run, Worker.held_fetch, reduceCtorEq, if_false,
      Option.some.injEq, List.count_cons, beq_iff_eq] at ho ⊢
    omega
  · have hf := h.fetched
    have hz : ∀ r b, Worker.current s.queue.tasks (s.queue.barrier.generation + 1)
        (.waiting r s.queue.barrier.generation b) = false := by simp
    have hc1 : l₁.countP (Worker.current s.queue.tasks s.queue.barrier.generation) = l₁.length :=
      List.countP_eq_length.mpr fun w hw => by
        obtain ⟨r, b, rfl⟩ := Worker.eq_waiting_of_arrived (h1 w hw)
        simp
    have hc2 : l₂.countP (Worker.current s.queue.tasks s.queue.barrier.generation) = l₂.length :=
      List.countP_eq_length.mpr fun w hw => by
        obtain ⟨r, b, rfl⟩ := Worker.eq_waiting_of_arrived (h2 w hw)
        simp
    simp only [hl, countP_split, hc1, hc2, Worker.current_run, hw, if_true] at hf
    simp only [countP_split, countP_notify_eq_zero h1 hz, countP_notify_eq_zero h2 hz, Worker.current_fetch,
      Bool.false_eq_true, if_false, hf, Nat.succ_mul]
    rw [List.length_append] at hlen
    omega
  · have hz : ∀ r b, Worker.arrived (s.queue.barrier.generation + 1)
        (.waiting r s.queue.barrier.generation b) = false := by simp
    simp only [countP_split, countP_notify_eq_zero h1 hz, countP_notify_eq_zero h2 hz, Worker.arrived_fetch,
      Bool.false_eq_true, if_false, h.nThreads]
    rfl
  · exact h.nThreads ▸ h.positive
  · intro q hq hle
    refine List.mem_cons_of_mem _ (h.finished_of_last hl hw hc hq ?_)
    simp only [Nat.succ_mul] at hle
    omega

theorem inv_idle {q : TaskQueue τ} (hn : 0 < q.nThreads) (hp : q.pos = 0) (hb : q.barrier = .new q.nThreads)
    (hg : q.nThreads ∣ waits q.tasks q.tasks.length) :
    Inv { queue := q, main := .idle, threads := [], log := [] } := by
  refine ⟨hn, by rw [hb]; rfl, hg, ⟨hp, rfl, rfl, hb⟩, by simp, by simp [hp], ?_, ?_, ?_, ?_⟩
  · simp [hp, hb, waits_zero, Barrier.new]
  · simp [hb, Barrier.new]
  · simpa [hb, Barrier.new] using hn
  · intro r _ hle
    simp only [hb, Barrier.new, Nat.zero_mul] at hle
    omega

theorem inv_new {n k : Nat} (hn : 0 < n) : Inv (Exec.new n k : Exec τ) :=
  inv_idle hn rfl rfl (by simp [TaskQueue.new, waits])

theorem waits_append (l l' : List (Task τ)) :
    waits (l ++ l') (l ++ l').length = waits l l.length + l'.countP Task.isWait := by
  rw [waits, List.take_length, List.countP_append, waits, List.take_length]

theorem Inv.step {s s' : Exec τ} {a : Action τ} (h : s.Inv) (hs : s.Moves a s') : s'.Inv := by
  cases hs with
  | addTask f hm =>
    obtain ⟨hp, ht, hl, hb⟩ := (hm ▸ h.main : Main.idle.Ok s.queue s.threads s.log)
    rw [hm, ht, hl]
    refine inv_idle h.positive hp hb ?_
    simpa only [TaskQueue.addTask, waits_append, List.countP_singleton, Task.isWait, Bool.false_eq_true,
      if_false, Nat.add_zero] using h.groups
  | addBarrier hm =>
    obtain ⟨hp, ht, hl, hb⟩ := (hm ▸ h.main : Main.idle.Ok s.queue s.threads s.log)
    rw [hm, ht, hl]
    refine inv_idle h.positive hp hb ?_
    simpa only [TaskQueue.addBarrier, waits_append, List.countP_replicate, Task.isWait, if_true,
      Nat.dvd_add_self_right] using h.groups
  | executeTasks hm =>
    obtain ⟨-, ht, -, -⟩ := (hm ▸ h.main : Main.idle.Ok s.queue s.threads s.log)
    exact { h with main := by simp [Main.Ok, ht] }
  | spawn hm hlt =>
    have ho := h.once
    have hf := h.fetched
    have hc := h.counter
    refine { h with main := ?_, workers := ?_, once := ?_, fetched := ?_, counter := ?_ }
    · simpa [hm, Main.Ok] using Nat.succ_le_of_lt hlt
    · intro w hw
      rcases List.mem_append.mp hw with hw | hw
      · exact h.workers w hw
      · rw [List.mem_singleton.mp hw]; trivial
    · simpa [List.filterMap_append, List.filterMap_cons] using ho
    · simpa using hf
    · simpa using hc
  | spawned hm hge =>
    have hle : s.threads.length ≤ s.queue.nThreads := h.length_le
    exact { h with main := ⟨Nat.le_antisymm hle hge, fun j hj => absurd hj (Nat.not_lt_zero j)⟩ }
  | join i hm hi =>
    obtain ⟨hlen, hj⟩ := (hm ▸ h.main : (Main.joining i).Ok s.queue s.threads s.log)
    refine { h with main := ⟨hlen, fun j hji => ?_⟩ }
    rcases Nat.lt_succ_iff_lt_or_eq.mp hji with hlt | rfl
    · exact hj j hlt
    · exact hi
  | reset hm =>
    refine inv_idle h.positive rfl ?_ (by simp [TaskQueue.reset, waits])
    simp [TaskQueue.reset, Barrier.reset, Barrier.new, h.nThreads]
  | leave l₁ l₂ hl hp => exact h.leave hl hp
  | fetch l₁ l₂ hl hp => exact h.fetch hl hp
  | run l₁ l₂ p hl hw => exact h.finish hl rfl hw rfl
  | release l₁ l₂ p hl hw hc => exact h.release hl hw hc
  | block l₁ l₂ p hl hw hc => exact h.block hl hw hc
  | pass l₁ l₂ p g b hl hg => exact h.finish hl rfl (beq_false_of_ne hg) (beq_false_of_ne hg)
  | sleep l₁ l₂ p b hl => exact h.sleep hl

theorem inv_of_reachable {n k : Nat} (hn : 0 < n) {s : Exec τ} (h : Lts.Reachable step (Exec.new n k) s) : s.Inv :=
  h.inv (fun _ _ _ hi hs => hi.step (moves_of_step hs)) (inv_new hn)

/-! ## Each task once, and behind its barrier -/

/-- Before `q` stand whole groups, between `q` and the fetched entry one more: the generation has passed it. -/
theorem Inv.mem_log_of_run {s : Exec τ} (h : s.Inv) {p q : Nat} (hp : Worker.run p ∈ s.threads)
    (hq : s.queue.nThreads ∣ waits s.queue.tasks q)
    (hpq : waits s.queue.tasks q + s.queue.nThreads ≤ waits s.queue.tasks p) {r : Nat} (hr : r < q) :
    r ∈ s.log := by
  obtain ⟨hlen, hlt, -⟩ : Worker.Ok s.queue (.run p) := h.workers _ hp
  obtain ⟨j, hj⟩ := hq
  have hmono : waits s.queue.tasks (r + 1) ≤ waits s.queue.tasks q := waits_mono hr
  have hjG : j + 1 ≤ s.queue.barrier.generation := by
    by_contra hge
    have hG := Nat.mul_le_mul_left s.queue.nThreads (Nat.le_of_not_lt hge)
    rw [Nat.succ_mul, Nat.mul_comm] at hlt
    omega
  have hle := Nat.mul_le_mul_left s.queue.nThreads hjG
  rw [Nat.mul_succ, Nat.mul_comm _ s.queue.barrier.generation] at hle
  refine h.finished r ?_ (by omega)
  by_contra hge
  have h1 := (waits_mono (Nat.le_of_not_lt hge) : waits s.queue.tasks s.queue.tasks.length ≤ waits s.queue.tasks r)
  have h2 : waits s.queue.tasks r ≤ waits s.queue.tasks (r + 1) := waits_mono (Nat.le_succ r)
  have h3 : waits s.queue.tasks p ≤ waits s.queue.tasks s.queue.tasks.length := waits_mono hlen.le
  have := h.positive
  omega

/-! ## Progress -/

theorem advance_eq_step {s : Exec τ} {a : Action τ} (hm : s.main ≠ .idle) (ha : s.spurious a = false) :
    s.advance a = s.step a := by
  simp [advance, hm, ha]

theorem spurious_eq_false {s : Exec τ} (h : s.Inv) {t p g : Nat} {b : Bool}
    (ht : s.threads[t]? = some (.waiting p g b)) (hg : g ≠ s.queue.barrier.generation) :
    s.spurious (.wake t) = false := by
  obtain ⟨-, hb, -⟩ : Worker.Ok s.queue (.waiting p g b) := h.workers _ (List.mem_of_getElem? ht)
  cases b with
  | false => exact absurd (hb.mp rfl) hg
  | true => simp [spurious, ht]

/-- A worker that has not exited and does not sleep in the current generation can take a step. -/
theorem Inv.worker_advances {s : Exec τ} (h : s.Inv) (hm : s.main ≠ .idle) {t : Nat} {w : Worker}
    (ht : s.threads[t]? = some w) (hx : w ≠ .exited) (ha : w.arrived s.queue.barrier.generation = false) :
    ∃ a s', s.advance a = some s' := by
  have hok := h.workers w (List.mem_of_getElem? ht)
  cases w with
  | fetch => exact ⟨.fetch t, _, (advance_eq_step hm rfl).trans (by simp only [Exec.step, ht]; rfl)⟩
  | run p =>
    cases hw : waitAt s.queue.tasks p with
    | false =>
      obtain ⟨f, hf⟩ := (waitAt_eq_false hok.1).mp hw
      exact ⟨.run t, _, (advance_eq_step hm rfl).trans (by simp only [Exec.step, ht, hf]; rfl)⟩
    | true =>
      have hf := waitAt_eq_true.mp hw
      by_cases hc : s.queue.barrier.counter - 1 = 0
      · exact ⟨.arrive t, _,
          (advance_eq_step hm rfl).trans (by simp only [Exec.step, ht, hf, Barrier.arrive, hc, if_true]; rfl)⟩
      · exact ⟨.arrive t, _,
          (advance_eq_step hm rfl).trans (by simp only [Exec.step, ht, hf, Barrier.arrive, hc, if_false]; rfl)⟩
  | waiting p g b =>
    have hg : g ≠ s.queue.barrier.generation := by simpa using ha
    exact ⟨.wake t, _, (advance_eq_step hm (spurious_eq_false h ht hg)).trans
      (by simp only [Exec.step, ht, if_pos hg]; rfl)⟩
  | exited => exact absurd rfl hx

theorem Inv.advances {s : Exec τ} (h : s.Inv) (hm : s.main ≠ .idle) : ∃ a s', s.advance a = some s' := by
  have hmain := h.main
  cases hs : s.main with
  | idle => exact absurd hs hm
  | spawning =>
    by_cases hlt : s.threads.length < s.queue.nThreads
    · exact ⟨.spawn, _, (advance_eq_step hm rfl).trans (by simp only [Exec.step, hs, if_pos hlt]; rfl)⟩
    · exact ⟨.spawn, _, (advance_eq_step hm rfl).trans (by simp only [Exec.step, hs, if_neg hlt]; rfl)⟩
  | joining i =>
    obtain ⟨hlen, -⟩ := (hs ▸ hmain : (Main.joining i).Ok s.queue s.threads s.log)
    by_cases hi : i = s.threads.length
    · exact ⟨.reset, _, (advance_eq_step hm rfl).trans (by simp only [Exec.step, hs, if_pos hi]; rfl)⟩
    by_cases hall : ∀ w ∈ s.threads, w = .exited ∨ w.arrived s.queue.barrier.generation = true
    · by_cases hex : ∃ w ∈ s.threads, w = .exited
      · -- some worker left, so all waits are fetched: whole groups, none of them incomplete
        obtain ⟨_, hw, rfl⟩ := hex
        have hend : s.queue.tasks.length ≤ s.queue.pos := h.workers _ hw
        have hf := h.fetched
        have hc := h.counter
        have hpos := h.counter_pos
        have heq : s.threads.countP (Worker.current s.queue.tasks s.queue.barrier.generation) =
            s.threads.countP (Worker.arrived s.queue.barrier.generation) := by
          refine List.countP_congr fun w hw => ?_
          rcases hall w hw with rfl | ha
          · simp
          · obtain ⟨p, b, rfl⟩ := Worker.eq_waiting_of_arrived ha
            simp
        rw [waits_of_length_le hend, heq] at hf
        have hdvd := h.groups
        rw [hf, Nat.dvd_add_right (Nat.dvd_mul_left _ _)] at hdvd
        have hzero := Nat.eq_zero_of_dvd_of_lt hdvd (by omega)
        rw [List.countP_eq_zero] at hzero
        have hjoin : ∀ w ∈ s.threads, w = .exited :=
          fun w hw => (hall w hw).resolve_right (by simpa using hzero w hw)
        by_cases hlt : i < s.threads.length
        · have hget : s.threads[i]? = some .exited := by
            rw [List.getElem?_eq_getElem hlt, hjoin _ (List.getElem_mem hlt)]
          exact ⟨.join, _, (advance_eq_step hm rfl).trans (by simp only [Exec.step, hs, if_pos hget]; rfl)⟩
        · have hj := (hs ▸ hmain : (Main.joining i).Ok s.queue s.threads s.log).2 s.threads.length (by omega)
          simp at hj
      · -- all workers sleep in the current generation, which the counter excludes
        have hfull : s.threads.countP (Worker.arrived s.queue.barrier.generation) = s.threads.length :=
          List.countP_eq_length.mpr fun w hw => (hall w hw).resolve_left fun e => hex ⟨w, hw, e⟩
        have := h.counter
        have := h.counter_pos
        omega
    · simp only [not_forall, not_or, Bool.not_eq_true] at hall
      obtain ⟨w, hw, hx, ha⟩ := hall
      obtain ⟨t, ht⟩ := List.mem_iff_getElem?.mp hw
      exact h.worker_advances hm ht hx ha

/-! ## The end of `execute_tasks` -/

theorem Inv.reset_step {s s' : Exec τ} (h : s.Inv) (hs : s.step .reset = some s') :
    (∀ q < s.queue.tasks.length, q ∈ s.log) ∧ s' = Exec.new s.queue.nThreads s.queue.nTasksPerLevel := by
  simp only [Exec.step] at hs
  split at hs
  · rename_i i hm
    split at hs <;> cases hs
    rename_i hi
    obtain ⟨hlen, hj⟩ := (hm ▸ h.main : (Main.joining i).Ok s.queue s.threads s.log)
    have hex : ∀ w ∈ s.threads, w = .exited := by
      intro w hw
      obtain ⟨t, ht⟩ := List.mem_iff_getElem?.mp hw
      have hlt : t < s.threads.length := (List.getElem?_eq_some_iff.mp ht).1
      exact Option.some.inj (ht.symm.trans (hj t (by omega)))
    refine ⟨fun q hq => ?_, ?_⟩
    · have hpos := h.positive
      have hend : s.queue.tasks.length ≤ s.queue.pos := by
        have h0 : s.threads[0]? = some .exited := hj 0 (by omega)
        exact h.workers _ (List.mem_of_getElem? h0)
      have hz : (s.threads.filterMap Worker.held).count q = 0 := by
        rw [List.count_eq_zero, List.mem_filterMap]
        rintro ⟨w, hw, hwq⟩
        rw [hex w hw] at hwq
        cases hwq
      have ho := h.once q
      rw [hz, if_pos ⟨by omega, hq⟩] at ho
      exact List.count_pos_iff.mp (by omega)
    · simp [Exec.new, TaskQueue.new, TaskQueue.reset, Barrier.reset, Barrier.new, h.nThreads]
  · cases hs

end Exec

/-! ## Termination -/

def Worker.work : Worker → Nat
  | .fetch => 1
  | .run _ => 3
  | .waiting _ _ _ => 2
  | .exited => 0

theorem Worker.work_notify (w : Worker) : w.notify.work = w.work := by cases w <;> rfl

def Main.work (nThreads spawned : Nat) : Main → Nat
  | .idle => 0
  | .spawning => 2 * (nThreads - spawned) + nThreads + 2
  | .joining i => nThreads - i + 1

namespace Exec
variable {τ : Type}

/-- Bounds the steps `execute_tasks` still takes, spurious wake-ups apart. -/
def work (s : Exec τ) : Nat :=
  s.main.work s.queue.nThreads s.threads.length + 3 * (s.queue.tasks.length - s.queue.pos) +
    (s.threads.map Worker.work).sum

theorem sum_work_split (l₁ l₂ : List Worker) (w : Worker) :
    ((l₁ ++ w :: l₂).map Worker.work).sum = (l₁.map Worker.work).sum + (l₂.map Worker.work).sum + w.work := by
  rw [List.map_append, List.map_cons, List.sum_append, List.sum_cons]
  omega

theorem Inv.work_lt {s s' : Exec τ} {a : Action τ} (h : s.Inv) (hs : s.advance a = some s') : s'.work < s.work := by
  simp only [advance, Option.ite_none_left_eq_some, not_or] at hs
  obtain ⟨⟨hidle, hsp⟩, hs⟩ := hs
  have hmoves := moves_of_step hs
  cases hmoves with
  | addTask f hm => exact absurd hm hidle
  | addBarrier hm => exact absurd hm hidle
  | executeTasks hm => exact absurd hm hidle
  | spawn hm hlt =>
    simp only [work, hm, Main.work, List.length_append, List.length_singleton, List.map_append, List.sum_append,
      List.map_cons, List.map_nil, List.sum_cons, List.sum_nil, Worker.work]
    omega
  | spawned hm hge =>
    simp only [work, hm, Main.work]
    omega
  | join i hm hi =>
    obtain ⟨hlen, -⟩ := (hm ▸ h.main : (Main.joining i).Ok s.queue s.threads s.log)
    have hlt : i < s.threads.length := (List.getElem?_eq_some_iff.mp hi).1
    simp only [work, hm, Main.work]
    omega
  | reset hm =>
    simp only [work, hm, Main.work, TaskQueue.reset, List.map_nil, List.sum_nil, List.length_nil]
    omega
  | leave l₁ l₂ hl hp =>
    simp only [work, hl, sum_work_split, Worker.work, List.length_append, List.length_cons]
    omega
  | fetch l₁ l₂ hl hp =>
    simp only [work, hl, sum_work_split, Worker.work, List.length_append, List.length_cons]
    omega
  | run l₁ l₂ p hl hw =>
    simp only [work, hl, sum_work_split, Worker.work, List.length_append, List.length_cons]
    omega
  | release l₁ l₂ p hl hw hc =>
    have hmap : ∀ l : List Worker, (l.map Worker.notify).map Worker.work = l.map Worker.work := by
      intro l
      rw [List.map_map]
      exact congrArg (List.map · l) (funext Worker.work_notify)
    simp only [work, hl, sum_work_split, hmap, Worker.work, List.length_append, List.length_cons, List.length_map]
    omega
  | block l₁ l₂ p hl hw hc =>
    simp only [work, hl, sum_work_split, Worker.work, List.length_append, List.length_cons]
    omega
  | pass l₁ l₂ p g b hl hg =>
    simp only [work, hl, sum_work_split, Worker.work, List.length_append, List.length_cons]
    omega
  | sleep l₁ l₂ p b hl =>
    -- nobody has notified a worker that still sleeps in the current generation
    obtain ⟨-, hb, -⟩ := h.ok_of_mem hl
    simp [spurious, hl, hb.mpr rfl] at hsp

theorem step_of_advance {s s' : Exec τ} {a : Action τ} (h : s.advance a = some s') : s.step a = some s' := by
  simp only [advance, Option.ite_none_left_eq_some] at h
  exact h.2

theorem Inv.advance_run_length {s t : Exec τ} {l : List (Action τ)} (h : s.Inv) (hl : Lts.Run advance s l t) :
    l.length + t.work ≤ s.work :=
  hl.length_le work (fun _ _ _ hi ha => hi.step (moves_of_step (step_of_advance ha)))
    (fun _ _ _ hi ha => hi.work_lt ha) h

/-! ## The queue over a whole run -/

theorem queue_of_run {n k : Nat} {s : Exec τ} {l : List (Action τ)} (h : Lts.Run step (Exec.new n k) l s) :
    s.queue.tasks = (pending l).flatMap (Call.entries n) ∧ s.queue.nThreads = n ∧ s.queue.nTasksPerLevel = k := by
  induction h with
  | nil => exact ⟨rfl, rfl, rfl⟩
  | @snoc s s' l a _ ha ih =>
    obtain ⟨ht, hn, hk⟩ := ih
    have hp : pending (l ++ [a]) = queued (pending l) a := List.foldl_append
    rw [hp]
    have hs := moves_of_step ha
    cases hs <;> simp [queued, TaskQueue.addTask, TaskQueue.addBarrier, TaskQueue.reset, Call.entries, ht, hn, hk]

theorem dvd_countP_entries (n : Nat) (calls : List (Call τ)) :
    n ∣ (calls.flatMap (Call.entries n)).countP Task.isWait := by
  induction calls with
  | nil => simp
  | cons c calls ih =>
    rw [List.flatMap_cons, List.countP_append]
    refine Nat.dvd_add ?_ ih
    cases c with
    | task f => simp [Call.entries, Task.isWait]
    | barrier => simp [Call.entries, Task.isWait, List.countP_replicate]

/-- In every state of every run: no entry is taken twice; an entry behind a
barrier is taken only when all entries before it have finished; `execute_tasks`
can always go on without a spurious wake-up; and it ends with every entry
finished and the queue as it was constructed. -/
theorem taskQueue_correct {n k : Nat} (hn : 0 < n) {l : List (Action τ)} {s : Exec τ}
    (h : Lts.Run step (Exec.new n k) l s) :
    (∀ p, (s.threads.filterMap Worker.held).count p + s.log.count p ≤ 1) ∧
    (∀ pre post, pending l = pre ++ .barrier :: post → ∀ p, Worker.run p ∈ s.threads →
      (pre.flatMap (Call.entries n)).length + n ≤ p → ∀ q < (pre.flatMap (Call.entries n)).length, q ∈ s.log) ∧
    (s.main = .idle → ∃ s', s.step .executeTasks = some s') ∧
    (s.main ≠ .idle → ∃ a s', s.advance a = some s') ∧
    (∀ s', s.step .reset = some s' → (∀ q < s.queue.tasks.length, q ∈ s.log) ∧ s' = Exec.new n k) := by
  have hi : s.Inv := inv_of_reachable hn ⟨l, h⟩
  obtain ⟨ht, hnt, hk⟩ := queue_of_run h
  refine ⟨fun p => ?_, ?_, ?_, hi.advances, ?_⟩
  · have ho := hi.once p
    split_ifs at ho <;> omega
  · intro pre post hpre p hp hle q hq
    rw [hpre, List.flatMap_append, List.flatMap_cons] at ht
    have hpre' : waits s.queue.tasks (pre.flatMap (Call.entries n)).length =
        (pre.flatMap (Call.entries n)).countP Task.isWait := by
      rw [waits, ht, List.take_left]
    refine hi.mem_log_of_run hp ?_ ?_ hq
    · rw [hnt, hpre']
      exact dvd_countP_entries n pre
    · refine Nat.le_trans ?_ (waits_mono hle)
      rw [hnt, hpre', waits, ht, ← List.append_assoc]
      have hlen : (pre.flatMap (Call.entries n)).length + n =
          (pre.flatMap (Call.entries n) ++ Call.entries n (.barrier : Call τ)).length := by
        simp [Call.entries]
      rw [hlen, List.take_left, List.countP_append]
      simp [Call.entries, List.countP_replicate, Task.isWait]
  · exact fun hm => ⟨_, if_pos hm⟩
  · intro s' hs
    obtain ⟨hlog, rfl⟩ := hi.reset_step hs
    exact ⟨hlog, by rw [hnt, hk]⟩

/-- Two threads, a task on each side of a barrier: thread 1 has been through it and holds the second task. -/
theorem taskQueue_correct_two :
    ∃ (l : List (Action Nat)) (s : Exec Nat), pending l = [.task 7] ++ .barrier :: [.task 8] ∧
      Worker.run 3 ∈ s.threads ∧ Lts.Run step (Exec.new 2 1) l s ∧ 0 ∈ s.log ∧ ∃ a s', s.advance a = some s' := by
  let l : List (Action Nat) :=
    [.addTask 7, .addBarrier, .addTask 8, .executeTasks, .spawn, .spawn, .spawn, .fetch 0, .run 0, .fetch 0,
      .fetch 1, .arrive 0, .arrive 1, .fetch 1]
  let s : Exec Nat :=
    { queue := ⟨[.body 7, .wait, .wait, .body 8], 4, 2, 1, { nThreads := 2, counter := 2, generation := 1 }⟩
      main := .joining 0, threads := [.waiting 1 0 true, .run 3], log := [2, 0] }
  have hp : pending l = [.task 7] ++ .barrier :: [.task 8] := rfl
  have hr : Worker.run 3 ∈ s.threads := by decide
  have h : Lts.Run step (Exec.new 2 1) l s := .of_foldlM rfl
  have hc := taskQueue_correct (by decide) h
  exact ⟨l, s, hp, hr, h, hc.2.1 _ _ hp 3 hr (by decide) 0 (by decide), hc.2.2.2.1 (by decide)⟩

/-- `execute_tasks` returns under every schedule that has finitely many spurious
wake-ups: the other steps are bounded, and lead back to the initial state. -/
theorem execute_tasks_returns {n k : Nat} (hn : 0 < n) {s : Exec τ} (h : Lts.Reachable step (Exec.new n k) s)
    (hm : s.main ≠ .idle) :
    (∀ l t, Lts.Run advance s l t → l.length ≤ s.work) ∧ Lts.Reachable advance s (Exec.new n k) := by
  have hi : s.Inv := inv_of_reachable hn h
  refine ⟨fun l t hl => Nat.le_of_add_right_le (hi.advance_run_length hl), ?_⟩
  suffices hgo : ∀ m t, t.work ≤ m → Lts.Reachable advance s t → Lts.Reachable step (Exec.new n k) t →
      t.main ≠ .idle → Lts.Reachable advance s (Exec.new n k) from hgo s.work s le_rfl (.refl s) h hm
  intro m
  induction m with
  | zero =>
    intro t ht _ htr htm
    obtain ⟨a, t', ha⟩ := (inv_of_reachable hn htr).advances htm
    have := (inv_of_reachable hn htr).work_lt ha
    omega
  | succ m ih =>
    intro t ht hst htr htm
    obtain ⟨a, t', ha⟩ := (inv_of_reachable hn htr).advances htm
    have hlt := (inv_of_reachable hn htr).work_lt ha
    by_cases htm' : t'.main = .idle
    · -- only `reset` leads out of `execute_tasks`
      have ht' : t' = Exec.new n k := by
        have hmv := moves_of_step (step_of_advance ha)
        have hti := inv_of_reachable hn htr
        obtain ⟨l, hl⟩ := htr
        obtain ⟨-, hnt, hk⟩ := queue_of_run hl
        cases hmv with
        | executeTasks => cases htm'
        | spawned => cases htm'
        | join => cases htm'
        | reset => rw [(hti.reset_step (step_of_advance ha)).2, hnt, hk]
        | _ => exact absurd htm' htm
      exact ht' ▸ hst.next ha
    · exact ih t' (by omega) (hst.next ha) (htr.next (step_of_advance ha)) htm'

end Exec

end PartitionedFilters

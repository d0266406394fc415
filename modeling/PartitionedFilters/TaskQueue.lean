import PartitionedFilters.Lts

/-!
# The task queue and its barrier

`TaskQueue<Enabled>` and `Barrier`, with the threads of `execute_tasks` as a
transition system. One action is one atomic step of one party: the main thread
queues, spawns, joins and resets; a worker increments `pos`, runs one body, or
passes through `Barrier::wait` in two steps, the arrival under the lock and a
wake-up, which may be spurious.
-/

namespace PartitionedFilters

/-- An element of `tasks`: a body given to `add_task`, or a wait queued by `add_barrier`. -/
inductive Task (τ : Type) where
  | body (f : τ)
  | wait
  deriving DecidableEq, Repr

def Task.isWait {τ : Type} : Task τ → Bool
  | .body _ => false
  | .wait => true

structure Barrier where
  nThreads : Nat
  counter : Nat
  generation : Nat := 0
  deriving DecidableEq, Repr

namespace Barrier

def new (nThreads : Nat) : Barrier := { nThreads, counter := nThreads }

def reset (b : Barrier) : Barrier := { b with generation := 0, counter := b.nThreads }

/-- The locked part of `wait` up to the test of the decremented counter: the new
barrier, and whether this arrival was the last one and notifies the others. -/
def arrive (b : Barrier) : Barrier × Bool :=
  if b.counter - 1 = 0 then ({ b with generation := b.generation + 1, counter := b.nThreads }, true)
  else ({ b with counter := b.counter - 1 }, false)

end Barrier

structure TaskQueue (τ : Type) where
  tasks : List (Task τ)
  pos : Nat
  nThreads : Nat
  nTasksPerLevel : Nat
  barrier : Barrier
  deriving DecidableEq, Repr

namespace TaskQueue
variable {τ : Type}

def new (nThreads nTasksPerLevel : Nat) : TaskQueue τ :=
  { tasks := [], pos := 0, nThreads, nTasksPerLevel, barrier := .new nThreads }

def addTask (q : TaskQueue τ) (f : τ) : TaskQueue τ := { q with tasks := q.tasks ++ [.body f] }

def addBarrier (q : TaskQueue τ) : TaskQueue τ :=
  { q with tasks := q.tasks ++ List.replicate q.nThreads .wait }

def reset (q : TaskQueue τ) : TaskQueue τ := { q with tasks := [], barrier := q.barrier.reset, pos := 0 }

end TaskQueue

/-- Where a worker stands: before `pos++`, holding the index it got, in
`cond.wait` with the generation it captured, or out of its loop. -/
inductive Worker where
  | fetch
  | run (p : Nat)
  | waiting (p lastGeneration : Nat) (notified : Bool)
  | exited
  deriving DecidableEq, Repr

def Worker.notify : Worker → Worker
  | .waiting p g _ => .waiting p g true
  | w => w

/-- Where the main thread stands: outside of `execute_tasks`, in its first loop, or joining thread `i`. -/
inductive Main where
  | idle
  | spawning
  | joining (i : Nat)
  deriving DecidableEq, Repr

/-- `log` is not in the source: it records the indices whose call has returned, the latest first. -/
structure Exec (τ : Type) where
  queue : TaskQueue τ
  main : Main
  threads : List Worker
  log : List Nat
  deriving DecidableEq, Repr

inductive Action (τ : Type) where
  | addTask (f : τ)
  | addBarrier
  | executeTasks
  | spawn
  | join
  | reset
  | fetch (t : Nat)
  | run (t : Nat)
  | arrive (t : Nat)
  | wake (t : Nat)
  deriving DecidableEq, Repr

namespace Exec
variable {τ : Type}

def new (nThreads nTasksPerLevel : Nat) : Exec τ :=
  { queue := .new nThreads nTasksPerLevel, main := .idle, threads := [], log := [] }

def step (s : Exec τ) : Action τ → Option (Exec τ)
  | .addTask f => if s.main = .idle then some { s with queue := s.queue.addTask f } else none
  | .addBarrier => if s.main = .idle then some { s with queue := s.queue.addBarrier } else none
  | .executeTasks => if s.main = .idle then some { s with main := .spawning } else none
  | .spawn =>
    match s.main with
    | .spawning =>
      if s.threads.length < s.queue.nThreads then some { s with threads := s.threads ++ [.fetch] }
      else some { s with main := .joining 0 }
    | _ => none
  | .join =>
    match s.main with
    | .joining i => if s.threads[i]? = some .exited then some { s with main := .joining (i + 1) } else none
    | _ => none
  | .reset =>
    match s.main with
    | .joining i =>
      if i = s.threads.length then some { queue := s.queue.reset, main := .idle, threads := [], log := [] }
      else none
    | _ => none
  | .fetch t =>
    -- `size_t p = pos++`, then the comparison with `tasks.size()`
    match s.threads[t]? with
    | some .fetch =>
      let p := s.queue.pos
      let w := if s.queue.tasks.length ≤ p then .exited else .run p
      some { s with queue := { s.queue with pos := p + 1 }, threads := s.threads.set t w }
    | _ => none
  | .run t =>
    match s.threads[t]? with
    | some (.run p) =>
      match s.queue.tasks[p]? with
      | some (.body _) => some { s with threads := s.threads.set t .fetch, log := p :: s.log }
      | _ => none
    | _ => none
  | .arrive t =>
    match s.threads[t]? with
    | some (.run p) =>
      match s.queue.tasks[p]? with
      | some .wait =>
        match s.queue.barrier.arrive with
        | (b, true) =>
          -- `notify_all`: every waiting thread will test its predicate, this one returns
          some { s with queue := { s.queue with barrier := b }
                        threads := (s.threads.map Worker.notify).set t .fetch, log := p :: s.log }
        | (b, false) =>
          some { s with queue := { s.queue with barrier := b }
                        threads := s.threads.set t (.waiting p s.queue.barrier.generation false) }
      | _ => none
    | _ => none
  | .wake t =>
    match s.threads[t]? with
    | some (.waiting p g _) =>
      if g ≠ s.queue.barrier.generation then
        some { s with threads := s.threads.set t .fetch, log := p :: s.log }
      else some { s with threads := s.threads.set t (.waiting p g false) }
    | _ => none

/-- A wake-up of a thread that nobody has notified since it last went to sleep. -/
def spurious (s : Exec τ) : Action τ → Bool
  | .wake t =>
    match s.threads[t]? with
    | some (.waiting _ _ false) => true
    | _ => false
  | _ => false

/-- The steps of `execute_tasks` itself, less the spurious wake-ups. -/
def advance (s : Exec τ) (a : Action τ) : Option (Exec τ) :=
  if s.main = .idle ∨ s.spurious a then none else s.step a

end Exec

/-! ## What was queued -/

inductive Call (τ : Type) where
  | task (f : τ)
  | barrier
  deriving DecidableEq, Repr

def Call.entries {τ : Type} (nThreads : Nat) : Call τ → List (Task τ)
  | .task f => [.body f]
  | .barrier => List.replicate nThreads .wait

def queued {τ : Type} (calls : List (Call τ)) : Action τ → List (Call τ)
  | .addTask f => calls ++ [.task f]
  | .addBarrier => calls ++ [.barrier]
  | .reset => []
  | _ => calls

/-- The calls of `add_task` and `add_barrier` since the last `reset`. -/
def pending {τ : Type} (l : List (Action τ)) : List (Call τ) := l.foldl queued []

end PartitionedFilters

import Mathlib.Logic.Function.Basic
import SapCore.Executor
import SapCore.TaskProgram

/-!
# Programs with I/O, and what they mean

The bodies of coroutines that wait for the outside, await tasks, and start others that
go on beside them. A body is given by its points: what the coroutine does at a point, and
the point at which it goes on (`Instr`). The local variables belong to the point, so that
the points may be of any type, and a body may loop for ever.

What such a program should do is what it would do with threads: a task that is awaited is
called, and the caller goes on when the call returns; a task that is detached or spawned
is a thread of its own; a handle is joined; and I/O blocks the thread and nobody else.
`Threads` is that machine. Nothing of promises, frames or queues is in it. It is the
meaning the runtime of the coroutines is compared with.

Two things come to the threads from outside, the tasks that are started there and the
results of I/O. They are recorded (`Input`), so that a run of the threads can be said to be
one on the same input as a run of something else.
-/

namespace Coroutines

/-- **What a coroutine does at a point of its body**, and where it goes on. A local
`try` is a matter of what follows a `co_await`, which is given the outcome as a whole. -/
inductive Instr (σ ω τ η υ ξ : Type) where
  /-- The body ends: by `co_return`, or because an exception leaves it. -/
  | coReturn (o : Outcome υ ξ)
  /-- Something the outside sees. -/
  | effect (w : ω) (next : σ)
  /-- `co_await` of a task created in place, whose body begins at a point. -/
  | coAwait (task : σ) (next : Outcome υ ξ → σ)
  /-- `detach` of a task created in place, or `spawn_detach`. -/
  | detach (task : σ) (next : σ)
  /-- `spawn` of a task created in place, which gives a handle. -/
  | spawn (task : σ) (next : ℕ → σ)
  /-- `co_await` of a `SpawnHandle`. -/
  | join (h : ℕ) (next : Outcome υ ξ → σ)
  /-- The destructor of a `SpawnHandle`. -/
  | drop (h : ℕ) (next : σ)
  /-- `co_await` of an `IoAwaiter` constructed in place, with a handle and a token. -/
  | io (handle : η) (token : Option τ) (next : AwaitResult → σ)

/-- **A thread**: the point it is at and the calls it is to return to, or how it
ended. -/
inductive Thread (σ υ ξ : Type) where
  | running (s : σ) (stack : List (Outcome υ ξ → σ))
  | done (o : Outcome υ ξ)

/-- A call returns; where there is none to return to, the thread ends. -/
def Thread.ret {σ υ ξ : Type} (o : Outcome υ ξ) : List (Outcome υ ξ → σ) → Thread σ υ ξ
  | [] => .done o
  | next :: stack => .running (next o) stack

/-- **The threads**, and the effects performed. -/
structure Threads (σ ω υ ξ : Type) where
  thread : ℕ → Option (Thread σ υ ξ)
  trace : List ω

/-- **What comes from outside.** -/
inductive Input (σ τ η : Type) where
  /-- A task is started, as a thread with this number. -/
  | task (t : ℕ) (s : σ)
  /-- I/O has a result. -/
  | result (handle : η) (token : Option τ) (result : AwaitResult)
deriving DecidableEq

namespace Threads

variable {σ ω τ η υ ξ : Type}

/-- No threads. -/
def new : Threads σ ω υ ξ := ⟨fun _ => none, []⟩

/-- Write a thread. -/
def set (A : Threads σ ω υ ξ) (t : ℕ) (th : Thread σ υ ξ) : Threads σ ω υ ξ :=
  { A with thread := Function.update A.thread t (some th) }

/-- Who moves. -/
inductive Label (σ : Type) where
  /-- A thread does what concerns nobody else, or joins a thread that ended. -/
  | act (t : ℕ)
  /-- A thread starts another. -/
  | fork (t child : ℕ)
  /-- The I/O that a thread waits for has a result. -/
  | answer (t : ℕ) (result : AwaitResult)
  /-- A thread is started from outside. -/
  | start (child : ℕ) (s : σ)

/-- What a thread does without others. -/
def act (A : Threads σ ω υ ξ) (t : ℕ) (stack : List (Outcome υ ξ → σ)) :
    Instr σ ω τ η υ ξ → Option (Threads σ ω υ ξ)
  | .coReturn o => some (A.set t (.ret o stack))
  | .effect w next => some { A.set t (.running next stack) with trace := A.trace ++ [w] }
  | .coAwait task next => some (A.set t (.running task (next :: stack)))
  | .join h next =>
    match A.thread h with
    | some (.done o) => some (A.set t (.running (next o) stack))
    | _ => none
  | .drop _ next => some (A.set t (.running next stack))
  | .detach _ _ => none
  | .spawn _ _ => none
  | .io _ _ _ => none

/-- A thread starts another, under a number that was not given before. -/
def fork (A : Threads σ ω υ ξ) (t child : ℕ) (stack : List (Outcome υ ξ → σ)) :
    Instr σ ω τ η υ ξ → Option (Threads σ ω υ ξ)
  | .detach task next => some ((A.set t (.running next stack)).set child (.running task []))
  | .spawn task next => some ((A.set t (.running (next child) stack)).set child (.running task []))
  | _ => none

/-- The I/O has a result. -/
def answer (A : Threads σ ω υ ξ) (t : ℕ) (result : AwaitResult)
    (stack : List (Outcome υ ξ → σ)) : Instr σ ω τ η υ ξ → Option (Threads σ ω υ ξ)
  | .io _ _ next => some (A.set t (.running (next result) stack))
  | _ => none

variable (prog : σ → Instr σ ω τ η υ ξ)

/-- **One step.** -/
def step (A : Threads σ ω υ ξ) : Label σ → Option (Threads σ ω υ ξ)
  | .act t =>
    match A.thread t with
    | some (.running s stack) => A.act t stack (prog s)
    | _ => none
  | .fork t child =>
    match A.thread t, A.thread child with
    | some (.running s stack), none => A.fork t child stack (prog s)
    | _, _ => none
  | .answer t result =>
    match A.thread t with
    | some (.running s stack) => A.answer t result stack (prog s)
    | _ => none
  | .start child s =>
    match A.thread child with
    | none => some (A.set child (.running s []))
    | some _ => none

/-- The input of a step. -/
def input (A : Threads σ ω υ ξ) : Label σ → Option (Input σ τ η)
  | .start child s => some (.task child s)
  | .answer t result =>
    match A.thread t with
    | some (.running s _) =>
      match prog s with
      | .io handle token _ => some (.result handle token result)
      | _ => none
    | _ => none
  | .act _ => none
  | .fork _ _ => none

variable {prog} {A : Threads σ ω υ ξ} {t child : ℕ} {s : σ} {stack : List (Outcome υ ξ → σ)}

theorem step_act (hthread : A.thread t = some (.running s stack)) :
    A.step prog (.act t) = A.act t stack (prog s) := by
  unfold step
  dsimp only
  rw [hthread]

/-- A thread joins one that ended. -/
theorem step_join {h : ℕ} {next : Outcome υ ξ → σ} {o : Outcome υ ξ}
    (hthread : A.thread t = some (.running s stack)) (hinstr : prog s = .join h next)
    (hdone : A.thread h = some (.done o)) :
    A.step prog (.act t) = some (A.set t (.running (next o) stack)) := by
  rw [step_act hthread, hinstr]
  unfold act
  dsimp only
  rw [hdone]

theorem step_fork (hthread : A.thread t = some (.running s stack))
    (hchild : A.thread child = none) :
    A.step prog (.fork t child) = A.fork t child stack (prog s) := by
  unfold step
  dsimp only
  rw [hthread, hchild]

theorem step_answer (hthread : A.thread t = some (.running s stack)) (result : AwaitResult) :
    A.step prog (.answer t result) = A.answer t result stack (prog s) := by
  unfold step
  dsimp only
  rw [hthread]

theorem input_answer {handle : η} {token : Option τ} {next : AwaitResult → σ}
    (hthread : A.thread t = some (.running s stack)) (hinstr : prog s = .io handle token next)
    (result : AwaitResult) :
    A.input prog (.answer t result) = some (.result handle token result) := by
  unfold input
  dsimp only
  rw [hthread]
  dsimp only
  rw [hinstr]

theorem step_start (hchild : A.thread child = none) (s : σ) :
    A.step prog (.start child s) = some (A.set child (.running s [])) := by
  unfold step
  dsimp only
  rw [hchild]

/-! ## Threads are not lost -/

theorem thread_set_ne_none {u : ℕ} {th : Thread σ υ ξ} :
    (A.set u th).thread t ≠ none ↔ t = u ∨ A.thread t ≠ none := by
  by_cases htu : t = u
  · subst htu
    simp [set]
  · simp [set, htu]

theorem thread_act {u : ℕ} {instr : Instr σ ω τ η υ ξ} {A' : Threads σ ω υ ξ}
    (hact : A.act u stack instr = some A') (ht : A.thread t ≠ none) : A'.thread t ≠ none := by
  have hset : ∀ th, (A.set u th).thread t ≠ none := fun th => thread_set_ne_none.mpr (.inr ht)
  cases instr with
  | join h next =>
    simp only [act] at hact
    split at hact
    · cases hact
      exact hset _
    · cases hact
  | detach task next => cases hact
  | spawn task next => cases hact
  | io handle token next => cases hact
  | _ =>
    cases hact
    exact hset _

theorem thread_fork {u : ℕ} {instr : Instr σ ω τ η υ ξ} {A' : Threads σ ω υ ξ}
    (hfork : A.fork u child stack instr = some A') (ht : A.thread t ≠ none) :
    A'.thread t ≠ none := by
  have hset : ∀ th th', ((A.set u th).set child th').thread t ≠ none := fun th th' =>
    thread_set_ne_none.mpr (.inr (thread_set_ne_none.mpr (.inr ht)))
  cases instr with
  | detach task next =>
    cases hfork
    exact hset _ _
  | spawn task next =>
    cases hfork
    exact hset _ _
  | _ => cases hfork

theorem thread_answer {u : ℕ} {result : AwaitResult} {instr : Instr σ ω τ η υ ξ}
    {A' : Threads σ ω υ ξ} (hanswer : A.answer u result stack instr = some A')
    (ht : A.thread t ≠ none) : A'.thread t ≠ none := by
  cases instr with
  | io handle token next =>
    cases hanswer
    exact thread_set_ne_none.mpr (.inr ht)
  | _ => cases hanswer

/-- **A thread is there for ever**, and one that is started is there from then on. -/
theorem thread_of_step {A' : Threads σ ω υ ξ} {label : Label σ}
    (hstep : A.step prog label = some A') (ht : A.thread t ≠ none ∨ ∃ s, label = .start t s) :
    A'.thread t ≠ none := by
  cases label with
  | start child s =>
    simp only [step] at hstep
    split at hstep
    · cases hstep
      obtain ht | ⟨s', hlabel⟩ := ht
      · exact thread_set_ne_none.mpr (.inr ht)
      · cases hlabel
        exact thread_set_ne_none.mpr (.inl rfl)
    · cases hstep
  | act u =>
    simp only [step] at hstep
    split at hstep
    · exact thread_act hstep (ht.resolve_right (by simp))
    · cases hstep
  | fork u child =>
    simp only [step] at hstep
    split at hstep
    · exact thread_fork hstep (ht.resolve_right (by simp))
    · cases hstep
  | answer u result =>
    simp only [step] at hstep
    split at hstep
    · exact thread_answer hstep (ht.resolve_right (by simp))
    · cases hstep

/-! ## The machine -/

variable (prog) in
/-- **The threads, as a machine**, which run in any order. -/
def machine : Machine (Threads σ ω υ ξ) (Label σ) := ⟨new, step prog⟩

variable (prog) in
/-- **The threads, with a record of their input.** -/
def observed : Machine (Threads σ ω υ ξ × List (Input σ τ η)) (Label σ) :=
  (machine prog).recording (fun A label _ inputs => inputs ++ (A.input prog label).toList) []

/-- **A task that was started has a thread.** -/
theorem thread_of_input {inputs : List (Input σ τ η)} (hA : (observed prog).Reachable (A, inputs))
    (ht : .task t s ∈ inputs) : A.thread t ≠ none := by
  suffices ∀ d, (observed prog).Reachable d → .task t s ∈ d.2 → d.1.thread t ≠ none from
    this _ hA ht
  intro d hd
  refine hd.invariant (I := fun d => .task t s ∈ d.2 → d.1.thread t ≠ none) (by simp [observed,
    Machine.recording]) (fun d label d' _ ih _ hstep ht => ?_)
  obtain ⟨hstep, hinputs⟩ := Machine.recording_step hstep
  rw [hinputs] at ht
  refine thread_of_step hstep ?_
  obtain ht | ht := List.mem_append.mp ht
  · exact .inl (ih ht)
  · cases label with
    | start child s' =>
      cases List.mem_singleton.mp ht
      exact .inr ⟨s, rfl⟩
    | answer u result =>
      simp only [input] at ht
      split at ht
      · split at ht
        · cases List.mem_singleton.mp ht
        · cases ht
      · cases ht
    | act u => cases ht
    | fork u child => cases ht

end Threads

end Coroutines

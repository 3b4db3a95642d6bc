import Mathlib.Data.Nat.Notation

/-!
# Programs of tasks, and what they mean

A `Task` is a coroutine that runs when it is awaited. Its body performs effects,
returns or throws, catches, awaits the tasks it creates and the tuple of several
(`when_all`), and detaches tasks that are to run on their own. Nothing here waits for
the outside, so a task that is awaited runs to its end.

What such a program should do is what it would do without coroutines: a `co_await` is
a call, `when_all` calls its arguments from left to right until one throws, and a
detached task is called at once, its result and its exception thrown away. That is
`Task.eval`. It is the meaning the machine of suspended frames is compared with.

The statements of a body have values, so that what follows an effect or a `co_await`
may depend on it. Local variables are the arguments of Lean functions; values,
effects and exceptions are of any types.
-/

/-- What the body of a coroutine leaves in its promise. -/
inductive Outcome (υ ξ : Type) where
  /-- `co_return`. -/
  | value (v : υ)
  /-- An exception left the body. -/
  | exception (e : ξ)
  deriving DecidableEq, Repr

namespace Async

mutual

/-- **The statements of a coroutine.** -/
inductive Stmt (ω υ ξ : Type) where
  /-- A value. -/
  | value (v : υ)
  | coReturn (v : υ)
  | throw (e : ξ)
  /-- Something the outside sees. -/
  | effect (w : ω)
  /-- One statement, and then others that use its value. -/
  | bind (first : Stmt ω υ ξ) (next : υ → Stmt ω υ ξ)
  | tryCatch (block : Stmt ω υ ξ) (handler : ξ → Stmt ω υ ξ)
  /-- `co_await` of a task created in place. -/
  | coAwait (task : Task ω υ ξ)
  /-- `detach` of a task created in place. -/
  | detach (task : Task ω υ ξ)

/-- **A task**: the call of a coroutine with a body, or of `when_all`. -/
inductive Task (ω υ ξ : Type) where
  | call (body : Stmt ω υ ξ)
  | whenAll (tasks : Pack ω υ ξ)

/-- The arguments of `when_all`. -/
inductive Pack (ω υ ξ : Type) where
  | nil
  | cons (task : Task ω υ ξ) (tasks : Pack ω υ ξ)

end

/-- **How a statement ends**: with a value, with `co_return`, or with an exception. -/
inductive Flow (υ ξ : Type) where
  | next (v : υ)
  | ret (v : υ)
  | exc (e : ξ)
  deriving DecidableEq, Repr

/-- **What a program is run in**: the value that an effect has after those performed
before it, the tuple of several values, and the value of a statement without one. -/
structure World (ω υ : Type) where
  answer : List ω → ω → υ
  tuple : List υ → υ
  unit : υ

variable {ω υ ξ : Type}

/-- The end of a body: the value at its end is returned as by `co_return`. -/
def Flow.outcome : Flow υ ξ → Outcome υ ξ
  | .next v => .value v
  | .ret v => .value v
  | .exc e => .exception e

/-- What a `co_await` makes of the outcome of the task. -/
def Flow.ofOutcome : Outcome υ ξ → Flow υ ξ
  | .value v => .next v
  | .exception e => .exc e

mutual

/-- **A statement, evaluated directly**, after the effects performed so far: how it
ends, and the effects performed by then. -/
def Stmt.eval (W : World ω υ) : Stmt ω υ ξ → List ω → Flow υ ξ × List ω
  | .value v, trace => (.next v, trace)
  | .coReturn v, trace => (.ret v, trace)
  | .throw e, trace => (.exc e, trace)
  | .effect w, trace => (.next (W.answer trace w), trace ++ [w])
  | .bind first next, trace =>
    match first.eval W trace with
    | (.next v, trace') => (next v).eval W trace'
    | (flow, trace') => (flow, trace')
  | .tryCatch block handler, trace =>
    match block.eval W trace with
    | (.exc e, trace') => (handler e).eval W trace'
    | (flow, trace') => (flow, trace')
  | .coAwait task, trace => (.ofOutcome (task.eval W trace).1, (task.eval W trace).2)
  | .detach task, trace => (.next W.unit, (task.eval W trace).2)

/-- **A task, called directly.** -/
def Task.eval (W : World ω υ) : Task ω υ ξ → List ω → Outcome υ ξ × List ω
  | .call body, trace => ((body.eval W trace).1.outcome, (body.eval W trace).2)
  | .whenAll tasks, trace => tasks.eval W [] trace

/-- **The arguments of `when_all`, called from left to right**, after some of them gave
values. -/
def Pack.eval (W : World ω υ) : Pack ω υ ξ → List υ → List ω → Outcome υ ξ × List ω
  | .nil, got, trace => (.value (W.tuple got), trace)
  | .cons task tasks, got, trace =>
    match task.eval W trace with
    | (.value v, trace') => tasks.eval W (got ++ [v]) trace'
    | (.exception e, trace') => (.exception e, trace')

end

end Async

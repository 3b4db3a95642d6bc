import Mathlib.Logic.Function.Basic
import SapCore.Machine

/-!
# Spawned runners and their handles

`spawn` starts a runner, a coroutine whose frame is owned by the `SpawnHandle` it
returns. Handles are moved, and released by their destructor or when another handle
is moved over them. A frame whose handle is released is destroyed there if the runner
is done; if not, `release` sets `handle_dropped`, and the runner destroys its own
frame when it comes to its final suspend point. A coroutine that awaits a handle
leaves its continuation in the promise of the runner, which resumes it at that point.

The machine takes these steps in any order, for any number of runners (`ι`), handle
objects (`ν`) and awaiting coroutines (`κ`). What a runner does between its start and
its end – it is suspended, and resumed by whoever has its handle – is a matter of the
labels, and so is what else happens while it runs. Every access to a frame is
recorded if the frame was destroyed before it. A handle object that does not exist is
`none`, an empty one `some none`.

To await an empty handle is to use the promise of a null handle, and is not a step.
The executor of a handle is not modelled here.
-/

/-- Where the body of a runner is. -/
inductive Body where
  /-- There is no frame yet. -/
  | unborn
  /-- Between its start, or a resumption, and its next suspension. -/
  | running
  /-- Suspended before its final suspend point. -/
  | suspended
  /-- At its final suspend point. -/
  | final
  deriving DecidableEq, Repr

/-- **The frame of a runner**: its body, its promise, and its history – how often it was
destroyed, which continuations awaiters recorded, and which it resumed. -/
structure SpawnFrame (κ ρ : Type) where
  body : Body
  result : Option ρ
  continuation : Option κ
  handleDropped : Bool
  destroyed : ℕ
  recorded : List κ
  resumed : List κ

/-- No frame. -/
def SpawnFrame.unborn {κ ρ : Type} : SpawnFrame κ ρ := ⟨.unborn, none, none, false, 0, [], []⟩

/-- **The runners and their handles.** -/
structure Spawned (ι ν κ ρ : Type) where
  frame : ι → SpawnFrame κ ρ
  handle : ν → Option (Option ι)
  /-- The handle in whose `co_await` a coroutine is suspended. -/
  awaits : κ → Option ν
  /-- A frame was used after it was destroyed. -/
  fault : Bool

namespace Spawned

variable {ι ν κ ρ : Type}

/-- No runners and no handles. -/
def new : Spawned ι ν κ ρ := ⟨fun _ => .unborn, fun _ => none, fun _ => none, false⟩

/-- A frame is used. -/
def touch (s : Spawned ι ν κ ρ) (r : ι) : Spawned ι ν κ ρ :=
  { s with fault := s.fault || decide ((s.frame r).destroyed ≠ 0) }

variable [DecidableEq ι] [DecidableEq ν] [DecidableEq κ]

/-- A frame is used and written to. -/
def modify (s : Spawned ι ν κ ρ) (r : ι) (f : SpawnFrame κ ρ → SpawnFrame κ ρ) :
    Spawned ι ν κ ρ :=
  { s with
    frame := Function.update s.frame r (f (s.frame r))
    fault := s.fault || decide ((s.frame r).destroyed ≠ 0) }

/-- Write to a handle object. -/
def setHandle (s : Spawned ι ν κ ρ) (x : ν) (h : Option (Option ι)) : Spawned ι ν κ ρ :=
  { s with handle := Function.update s.handle x h }

/-- A coroutine is suspended in the `co_await` of a handle, or no longer is. -/
def setAwaits (s : Spawned ι ν κ ρ) (k : κ) (x : Option ν) : Spawned ι ν κ ρ :=
  { s with awaits := Function.update s.awaits k x }

/-- `destroy` of a coroutine handle. -/
def destroy (s : Spawned ι ν κ ρ) (r : ι) : Spawned ι ν κ ρ :=
  s.modify r (fun f => { f with destroyed := f.destroyed + 1 })

/-- `SpawnHandle::release`. -/
def release (s : Spawned ι ν κ ρ) (x : ν) : Spawned ι ν κ ρ :=
  match s.handle x with
  | some (some r) =>
    (if (s.frame r).body = .final then s.destroy r
      else s.modify r (fun f => { f with handleDropped := true })).setHandle x (some none)
  | _ => s

/-- The `exchange` of a move: `x` takes what `y` holds. -/
def take (s : Spawned ι ν κ ρ) (x y : ν) : Spawned ι ν κ ρ :=
  (s.setHandle x (s.handle y)).setHandle y (some none)

/-- Move assignment. -/
def moveAssign (s : Spawned ι ν κ ρ) (x y : ν) : Spawned ι ν κ ρ :=
  if x = y then s else (s.release x).take x y

/-- The destructor. -/
def drop (s : Spawned ι ν κ ρ) (x : ν) : Spawned ι ν κ ρ := (s.release x).setHandle x none

/-- `spawn_runner` and `spawn`: the frame, its handle, and the first `resume`. -/
def spawn (s : Spawned ι ν κ ρ) (r : ι) (x : ν) : Spawned ι ν κ ρ :=
  (s.modify r (fun f => { f with body := .running })).setHandle x (some (some r))

/-- A use of the promise, or of `done`, of the frame a handle holds: `done`,
`await_ready` and `await_resume`. -/
def useHandle (s : Spawned ι ν κ ρ) (x : ν) : Spawned ι ν κ ρ :=
  match s.handle x with
  | some (some r) => s.touch r
  | _ => s

/-- `co_await` of a handle that holds the runner `r`, by the coroutine `k`. -/
def coAwait (s : Spawned ι ν κ ρ) (x : ν) (r : ι) (k : κ) : Spawned ι ν κ ρ :=
  if (s.frame r).body = .final then s.useHandle x
  else
    (s.modify r
      (fun f => { f with continuation := some k, recorded := f.recorded ++ [k] })).setAwaits k (some x)

/-- A coroutine goes on after its `co_await` of a handle, with `await_resume`. -/
def wake (s : Spawned ι ν κ ρ) (k : κ) : Spawned ι ν κ ρ :=
  match s.awaits k with
  | some x => (s.useHandle x).setAwaits k none
  | none => s

/-- `final_awaiter::await_suspend`. -/
def finalSuspend (s : Spawned ι ν κ ρ) (r : ι) : Spawned ι ν κ ρ :=
  if (s.frame r).handleDropped then s.destroy r
  else
    match (s.frame r).continuation with
    | some k => (s.modify r (fun f => { f with resumed := f.resumed ++ [k] })).wake k
    | none => s.touch r

/-- A runner comes to its end: the promise takes the result, and `final_suspend` is
awaited. -/
def complete (s : Spawned ι ν κ ρ) (r : ι) (result : ρ) : Spawned ι ν κ ρ :=
  (s.modify r (fun f => { f with body := .final, result := some result })).finalSuspend r

/-! ## The machine -/

/-- A label. -/
inductive Label (ι ν κ ρ : Type) where
  | spawn (r : ι) (x : ν)
  | construct (x : ν)
  | moveConstruct (x y : ν)
  | moveAssign (x y : ν)
  | drop (x : ν)
  | done (x : ν)
  | coAwait (x : ν) (k : κ)
  | suspend (r : ι)
  | resume (r : ι)
  /-- The body of a runner ends, with a value or an exception. -/
  | complete (r : ι) (result : ρ)

/-- **One step.** An object is constructed where there is none, and used where there is
one; a coroutine that awaits is not suspended; the body of a runner is suspended and
ends while it runs, and is resumed while it is suspended. -/
def step (s : Spawned ι ν κ ρ) : Label ι ν κ ρ → Option (Spawned ι ν κ ρ)
  | .spawn r x =>
    if (s.frame r).body = .unborn ∧ s.handle x = none then some (s.spawn r x) else none
  | .construct x => if s.handle x = none then some (s.setHandle x (some none)) else none
  | .moveConstruct x y =>
    if s.handle x = none ∧ s.handle y ≠ none then some (s.take x y) else none
  | .moveAssign x y =>
    if s.handle x ≠ none ∧ s.handle y ≠ none then some (s.moveAssign x y) else none
  | .drop x => if s.handle x ≠ none then some (s.drop x) else none
  | .done x => if s.handle x ≠ none then some (s.useHandle x) else none
  | .coAwait x k =>
    match s.handle x with
    | some (some r) => if s.awaits k = none then some (s.coAwait x r k) else none
    | _ => none
  | .suspend r =>
    if (s.frame r).body = .running then some (s.modify r (fun f => { f with body := .suspended }))
    else none
  | .resume r =>
    if (s.frame r).body = .suspended then some (s.modify r (fun f => { f with body := .running }))
    else none
  | .complete r result =>
    if (s.frame r).body = .running then some (s.complete r result) else none

/-- **The runners and their handles, as a machine.** -/
def machine : Machine (Spawned ι ν κ ρ) (Label ι ν κ ρ) := ⟨new, step⟩

/-- **What a step does**, case by case. -/
inductive Moves (s : Spawned ι ν κ ρ) : Label ι ν κ ρ → Spawned ι ν κ ρ → Prop
  | spawn {r : ι} {x : ν} (hbody : (s.frame r).body = .unborn) (hnone : s.handle x = none) :
      Moves s (.spawn r x) (s.spawn r x)
  | construct {x : ν} (hnone : s.handle x = none) :
      Moves s (.construct x) (s.setHandle x (some none))
  | moveConstruct {x y : ν} (hnone : s.handle x = none) (hsome : s.handle y ≠ none) :
      Moves s (.moveConstruct x y) (s.take x y)
  | moveAssign {x y : ν} : Moves s (.moveAssign x y) (s.moveAssign x y)
  | drop {x : ν} : Moves s (.drop x) (s.drop x)
  | done {x : ν} : Moves s (.done x) (s.useHandle x)
  | coAwait {x : ν} {r : ι} {k : κ} (hhandle : s.handle x = some (some r)) :
      Moves s (.coAwait x k) (s.coAwait x r k)
  | suspend {r : ι} (hbody : (s.frame r).body = .running) :
      Moves s (.suspend r) (s.modify r (fun f => { f with body := .suspended }))
  | resume {r : ι} (hbody : (s.frame r).body = .suspended) :
      Moves s (.resume r) (s.modify r (fun f => { f with body := .running }))
  | complete {r : ι} {result : ρ} (hbody : (s.frame r).body = .running) :
      Moves s (.complete r result) (s.complete r result)

/-- **Every step is one of these.** -/
theorem step_cases {s s' : Spawned ι ν κ ρ} {label : Label ι ν κ ρ}
    (hstep : s.step label = some s') : Moves s label s' := by
  cases label with
  | spawn r x =>
    obtain ⟨hguard, ⟨⟩⟩ := Option.ite_none_right_eq_some.mp hstep
    exact .spawn hguard.1 hguard.2
  | construct x =>
    obtain ⟨hnone, ⟨⟩⟩ := Option.ite_none_right_eq_some.mp hstep
    exact .construct hnone
  | moveConstruct x y =>
    obtain ⟨hguard, ⟨⟩⟩ := Option.ite_none_right_eq_some.mp hstep
    exact .moveConstruct hguard.1 hguard.2
  | moveAssign x y =>
    obtain ⟨-, ⟨⟩⟩ := Option.ite_none_right_eq_some.mp hstep
    exact .moveAssign
  | drop x =>
    obtain ⟨-, ⟨⟩⟩ := Option.ite_none_right_eq_some.mp hstep
    exact .drop
  | done x =>
    obtain ⟨-, ⟨⟩⟩ := Option.ite_none_right_eq_some.mp hstep
    exact .done
  | coAwait x k =>
    unfold step at hstep
    dsimp only at hstep
    split at hstep
    · rename_i r hhandle
      obtain ⟨-, ⟨⟩⟩ := Option.ite_none_right_eq_some.mp hstep
      exact .coAwait hhandle
    · cases hstep
  | suspend r =>
    obtain ⟨hbody, ⟨⟩⟩ := Option.ite_none_right_eq_some.mp hstep
    exact .suspend hbody
  | resume r =>
    obtain ⟨hbody, ⟨⟩⟩ := Option.ite_none_right_eq_some.mp hstep
    exact .resume hbody
  | complete r result =>
    obtain ⟨hbody, ⟨⟩⟩ := Option.ite_none_right_eq_some.mp hstep
    exact .complete hbody

end Spawned

import SapCore.ExecutorWaiting

/-!
# The loop of the executor

`run_until` resumes the handles of the ready queue one after the other, and waits
for the reactor when there are none. It leaves its two loops at six points: the
target is done (tested at the head of the loop and after each handle), `m_running`
is false (at the head, and after the inner loop), there is nothing left to wait for,
and the reactor fails. Between two of the loop's own steps a resumed coroutine runs,
and may await, schedule, stop tokens, stop the executor and come to its end.

The machine takes these steps one at a time. `point` is where the thread is; the
steps of the loop itself are the label `tick`, the others say what the coroutines,
the code outside the loop and the reactor do. Calls follow one another, each with
its own target (`run` is the call without one), and do not nest.

Beside the source's data stands the history of the present or last call: what had
been resumed when it was stopped, if it was, and whether the reactor failed.
-/

/-- Where the thread is. -/
inductive Point where
  /-- Not in `run_until`. -/
  | outside
  /-- At the head of the outer loop. -/
  | outer
  /-- At a test whether the target is done. -/
  | targetTest
  /-- At the head of the inner loop. -/
  | inner
  /-- In a coroutine that was resumed. -/
  | resumed
  /-- After the inner loop. -/
  | idleTest
  /-- In `wait` of the reactor. -/
  | waiting
  deriving DecidableEq, Repr

/-- **The executor and the thread that runs it.** A coroutine that is done has left
a result of type `ρ` in its promise. -/
structure Loop (α τ κ ρ : Type) where
  executor : Executor α τ κ
  running : Bool
  target : Option κ
  point : Point
  result : κ → Option ρ
  /-- What had been resumed when `stop` was called inside this call. -/
  stopped : Option (List κ)
  /-- The reactor failed in this call. -/
  failed : Bool

namespace Loop

open Executor (Event)

variable {α τ κ η ρ : Type}

/-- A label. -/
inductive Label (α τ κ ρ : Type) where
  /-- `run_until` is called; without a target, `run`. -/
  | call (target : Option κ)
  /-- A step of the loop. -/
  | tick
  /-- An event that a coroutine or the code outside brings about. -/
  | event (e : Event α τ κ)
  /-- `stop`. -/
  | stop
  /-- A coroutine comes to its end. -/
  | complete (h : κ) (r : ρ)
  /-- The coroutine that was resumed is suspended, or came to its end. -/
  | yield
  /-- `wait` returns a batch of triggers. -/
  | triggers (tokens : List α)
  /-- `wait` returns an error. -/
  | waitError

/-- The events that coroutines bring about: the reactor reports inside `wait` only, and
handles are resumed by the loop only. -/
def byCoroutine : Event α τ κ → Bool
  | .trigger _ => false
  | .resume => false
  | _ => true

/-- A new executor, before the first call. -/
def new : Loop α τ κ ρ := ⟨.new, false, none, .outside, fun _ => none, none, false⟩

/-- `target && target.done()`. -/
def targetDone (s : Loop α τ κ ρ) : Bool :=
  match s.target with
  | some h => (s.result h).isSome
  | none => false

/-- The beginning of `run_until`. -/
def call (s : Loop α τ κ ρ) (target : Option κ) : Loop α τ κ ρ :=
  { s with running := true, target := target, point := .outer, stopped := none, failed := false }

/-- `stop`, called by a coroutine that the loop resumed. -/
def stop (s : Loop α τ κ ρ) : Loop α τ κ ρ :=
  { s with running := false, stopped := s.stopped.or (some s.executor.resumed) }

/-- Where the two tests after the inner loop lead. -/
def afterInner (s : Loop α τ κ ρ) : Point :=
  if s.running = false then .outside
  else if s.executor.pendingIo = 0 ∧ s.executor.ready = [] then .outside
  else .waiting

variable [DecidableEq α] [DecidableEq τ] [DecidableEq κ] [DecidableEq η] (setup : Setup α τ η)

/-- A coroutine comes to its end. -/
def complete (s : Loop α τ κ ρ) (h : κ) (r : ρ) : Loop α τ κ ρ :=
  { s with result := Function.update s.result h (some r) }

/-- An event of the executor. -/
def event (s : Loop α τ κ ρ) (e : Event α τ κ) : Option (Loop α τ κ ρ) :=
  (s.executor.step setup e).map (fun executor => { s with executor := executor })

/-- **One step.** What user code does is possible outside the loop and in a resumed
coroutine; a coroutine that comes to its end was running. -/
def step (s : Loop α τ κ ρ) (label : Label α τ κ ρ) : Option (Loop α τ κ ρ) :=
  match s.point, label with
  | .outside, .call target => if s.executor.draining = none then some (s.call target) else none
  | .outside, .event e => if byCoroutine e then s.event setup e else none
  | .outside, .stop => some { s with running := false }
  | .outside, .complete h r =>
    if s.result h = none ∧ s.executor.suspendedIn h = none then some (s.complete h r) else none
  | .outer, .tick => some { s with point := if s.running then .targetTest else .outside }
  | .targetTest, .tick => some { s with point := if s.targetDone then .outside else .inner }
  | .inner, .tick =>
    if s.executor.ready ≠ [] ∧ s.running = true then
      (s.event setup .resume).map (fun s => { s with point := .resumed })
    else some { s with point := .idleTest }
  | .resumed, .event e => if byCoroutine e then s.event setup e else none
  | .resumed, .stop => some s.stop
  | .resumed, .complete h r =>
    if s.result h = none ∧ s.executor.suspendedIn h = none then some (s.complete h r) else none
  | .resumed, .yield => if s.executor.draining = none then some { s with point := .targetTest } else none
  | .idleTest, .tick => some { s with point := s.afterInner }
  | .waiting, .triggers tokens =>
    (s.event setup (.trigger tokens)).map (fun s => { s with point := .outer })
  | .waiting, .waitError => some { s with running := false, failed := true, point := .outside }
  | _, _ => none

/-- **The executor's loop, as a machine.** -/
def machine : Machine (Loop α τ κ ρ) (Label α τ κ ρ) := ⟨new, step setup⟩

/-- **What a step does**, case by case. -/
inductive Moves (s : Loop α τ κ ρ) : Label α τ κ ρ → Loop α τ κ ρ → Prop
  | call {target : Option κ} (hpoint : s.point = .outside) : Moves s (.call target) (s.call target)
  | event {e : Event α τ κ} {executor : Executor α τ κ}
      (hpoint : s.point = .outside ∨ s.point = .resumed) (hby : byCoroutine e = true)
      (hstep : s.executor.step setup e = some executor) :
      Moves s (.event e) { s with executor := executor }
  | stopOutside (hpoint : s.point = .outside) : Moves s .stop { s with running := false }
  | stop (hpoint : s.point = .resumed) : Moves s .stop s.stop
  | complete {h : κ} {r : ρ} (hpoint : s.point = .outside ∨ s.point = .resumed)
      (hnone : s.result h = none) : Moves s (.complete h r) (s.complete h r)
  | outer (hpoint : s.point = .outer) :
      Moves s .tick { s with point := if s.running then .targetTest else .outside }
  | targetTest (hpoint : s.point = .targetTest) :
      Moves s .tick { s with point := if s.targetDone then .outside else .inner }
  | resume {executor : Executor α τ κ} (hpoint : s.point = .inner) (hrunning : s.running = true)
      (hstep : s.executor.step setup .resume = some executor) :
      Moves s .tick { s with executor := executor, point := .resumed }
  | leaveInner (hpoint : s.point = .inner) : Moves s .tick { s with point := .idleTest }
  | yield (hpoint : s.point = .resumed) : Moves s .yield { s with point := .targetTest }
  | idleTest (hpoint : s.point = .idleTest) : Moves s .tick { s with point := s.afterInner }
  | triggers {tokens : List α} {executor : Executor α τ κ} (hpoint : s.point = .waiting)
      (hstep : s.executor.step setup (.trigger tokens) = some executor) :
      Moves s (.triggers tokens) { s with executor := executor, point := .outer }
  | waitError (hpoint : s.point = .waiting) :
      Moves s .waitError { s with running := false, failed := true, point := .outside }

variable {setup} {s s' : Loop α τ κ ρ} {label : Label α τ κ ρ}

theorem event_eq_some {e : Event α τ κ} (hevent : s.event setup e = some s') :
    ∃ executor, s.executor.step setup e = some executor ∧ s' = { s with executor := executor } := by
  unfold event at hevent
  obtain ⟨executor, hstep, heq⟩ := Option.map_eq_some_iff.mp hevent
  exact ⟨executor, hstep, heq.symm⟩

/-- **Every step is one of these.** -/
theorem step_cases (hstep : s.step setup label = some s') : Moves setup s label s' := by
  unfold step at hstep
  split at hstep
  case h_1 target hpoint =>
    split at hstep
    · cases hstep
      exact .call hpoint
    · cases hstep
  case h_2 e hpoint =>
    split at hstep
    · rename_i hby
      obtain ⟨executor, hevent, rfl⟩ := event_eq_some hstep
      exact .event (Or.inl hpoint) hby hevent
    · cases hstep
  case h_3 hpoint =>
    cases hstep
    exact .stopOutside hpoint
  case h_4 h r hpoint =>
    split at hstep
    · rename_i hguard
      cases hstep
      exact .complete (Or.inl hpoint) hguard.1
    · cases hstep
  case h_5 hpoint =>
    cases hstep
    exact .outer hpoint
  case h_6 hpoint =>
    cases hstep
    exact .targetTest hpoint
  case h_7 hpoint =>
    split at hstep
    · rename_i hguard
      obtain ⟨s₁, hevent, rfl⟩ := Option.map_eq_some_iff.mp hstep
      obtain ⟨executor, hresume, rfl⟩ := event_eq_some hevent
      exact .resume hpoint hguard.2 hresume
    · cases hstep
      exact .leaveInner hpoint
  case h_8 e hpoint =>
    split at hstep
    · rename_i hby
      obtain ⟨executor, hevent, rfl⟩ := event_eq_some hstep
      exact .event (Or.inr hpoint) hby hevent
    · cases hstep
  case h_9 hpoint =>
    cases hstep
    exact .stop hpoint
  case h_10 h r hpoint =>
    split at hstep
    · rename_i hguard
      cases hstep
      exact .complete (Or.inr hpoint) hguard.1
    · cases hstep
  case h_11 hpoint =>
    split at hstep
    · cases hstep
      exact .yield hpoint
    · cases hstep
  case h_12 hpoint =>
    cases hstep
    exact .idleTest hpoint
  case h_13 tokens hpoint =>
    obtain ⟨s₁, hevent, rfl⟩ := Option.map_eq_some_iff.mp hstep
    obtain ⟨executor, htrigger, rfl⟩ := event_eq_some hevent
    exact .triggers hpoint htrigger
  case h_14 hpoint =>
    cases hstep
    exact .waitError hpoint
  case h_15 => cases hstep

/-! ## What the loop does to the executor -/

/-- **Every awaiter is awaited at most once.** -/
def AwaitedOnce (s : Loop α τ κ ρ) : Label α τ κ ρ → Prop
  | .event e => Executor.Once s.executor e
  | _ => True

/-- **A step is an event of the executor, or leaves it alone.** -/
theorem executor_cases (hstep : s.step setup label = some s') :
    s'.executor = s.executor
      ∨ ∃ e, s.executor.step setup e = some s'.executor
        ∧ (AwaitedOnce s label → Executor.Once s.executor e) := by
  cases step_cases hstep with
  | event hpoint hby hevent => exact Or.inr ⟨_, hevent, id⟩
  | resume hpoint hrunning hresume => exact Or.inr ⟨_, hresume, fun _ => trivial⟩
  | triggers hpoint htrigger => exact Or.inr ⟨_, htrigger, fun _ => trivial⟩
  | _ => exact Or.inl rfl

theorem fifo_of_reachable (hs : (machine setup).Reachable s) : s.executor.Fifo := by
  refine hs.invariant (I := fun s => s.executor.Fifo) rfl (fun s label s' _ hi _ hstep => ?_)
  obtain heq | ⟨e, hevent, -⟩ := executor_cases hstep
  · rw [heq]
    exact hi
  · exact Executor.fifo_step hi hevent

theorem attended_of_reachable (hs : (machine setup).ReachableBy AwaitedOnce s) :
    s.executor.Attended := by
  refine hs.invariant (I := fun s => s.executor.Attended) ?_ (fun s label s' _ hi honce hstep => ?_)
  · exact ⟨Executor.waits_new, fun a hphase => absurd hphase (by simp [machine, new, Executor.new,
      IoAwaiter.new])⟩
  · obtain heq | ⟨e, hevent, hevents⟩ := executor_cases hstep
    · rw [heq]
      exact hi
    · exact Executor.attended_step hi (hevents honce) hevent

/-- Outside the loop and in a resumed coroutine, handles are pushed and none is
resumed. -/
theorem pushes_of_event {e : Event α τ κ} {executor : Executor α τ κ} (hby : byCoroutine e = true)
    (hevent : s.executor.step setup e = some executor) : s.executor.Pushes executor :=
  Executor.pushes_of_step (fun heq => by rw [heq] at hby; cases hby) hevent

/-! ## Stopping -/

/-- **A stop inside a call**: the call goes on to its end without resuming a handle;
and a call does not end otherwise because `m_running` is false. -/
structure Stops (s : Loop α τ κ ρ) : Prop where
  running : s.point ≠ .outside → s.running = false → s.stopped ≠ none
  still : ∀ l, s.stopped = some l → s.executor.resumed = l
  halted : s.stopped ≠ none → s.point ≠ .outside → s.running = false

omit [DecidableEq α] [DecidableEq τ] [DecidableEq κ] in
theorem stops_new : (new : Loop α τ κ ρ).Stops where
  running hpoint := absurd rfl hpoint
  still _ hstopped := by cases hstopped
  halted hstopped := absurd rfl hstopped

omit [DecidableEq α] [DecidableEq τ] [DecidableEq κ] in
/-- Where the thread moves inside the loop, or leaves it. -/
theorem Stops.move (hs : s.Stops) {point : Point} (hpoint : s.point ≠ .outside) :
    Stops { s with point := point } where
  running _ := hs.running hpoint
  still := hs.still
  halted hstopped _ := hs.halted hstopped hpoint

omit [DecidableEq α] [DecidableEq τ] [DecidableEq κ] in
/-- Where nothing is resumed. -/
theorem Stops.pushes (hs : s.Stops) {executor : Executor α τ κ} (h : s.executor.Pushes executor) :
    Stops { s with executor := executor } where
  running := hs.running
  still l hstopped := by
    obtain ⟨new, hgrows⟩ := h
    exact hgrows.resumed.trans (hs.still l hstopped)
  halted := hs.halted

omit [DecidableEq α] [DecidableEq τ] [DecidableEq κ] in
theorem Stops.stop (hs : s.Stops) : s.stop.Stops where
  running _ _ := by
    show s.stopped.or _ ≠ none
    cases s.stopped with
    | none => exact Option.some_ne_none _
    | some l => exact Option.some_ne_none _
  still l hstopped := by
    change s.stopped.or (some s.executor.resumed) = some l at hstopped
    cases hs' : s.stopped with
    | none =>
      rw [hs'] at hstopped
      exact Option.some.inj hstopped
    | some l' =>
      rw [hs'] at hstopped
      cases hstopped
      exact hs.still l hs'
  halted _ _ := rfl

/-- **Every step keeps it.** -/
theorem stops_step (hs : s.Stops) (hstep : s.step setup label = some s') : s'.Stops := by
  cases step_cases hstep with
  | call hpoint =>
    exact {
      running := fun _ hrunning => by cases hrunning
      still := fun _ hstopped => by cases hstopped
      halted := fun hstopped => absurd rfl hstopped }
  | event hpoint hby hevent => exact hs.pushes (pushes_of_event hby hevent)
  | stopOutside hpoint =>
    exact {
      running := fun houtside => absurd hpoint houtside
      still := hs.still
      halted := fun _ houtside => absurd hpoint houtside }
  | stop hpoint => exact hs.stop
  | complete hpoint hnone => exact { hs with }
  | outer hpoint => exact hs.move (by simp [hpoint])
  | targetTest hpoint => exact hs.move (by simp [hpoint])
  | resume hpoint hrunning hresume =>
    have hstopped : s.stopped = none := by
      by_contra hstopped
      have hhalted := hs.halted hstopped (by simp [hpoint])
      rw [hrunning] at hhalted
      cases hhalted
    exact {
      running := fun _ hrunning' => absurd (hrunning.symm.trans hrunning') (by simp)
      still := fun l hl => absurd (hstopped.symm.trans hl) (by simp)
      halted := fun hl => absurd hstopped hl }
  | leaveInner hpoint => exact hs.move (by simp [hpoint])
  | yield hpoint => exact hs.move (by simp [hpoint])
  | idleTest hpoint => exact hs.move (by simp [hpoint])
  | triggers hpoint htrigger =>
    have hpushes := Executor.pushes_of_step (by simp) htrigger
    exact (hs.pushes hpushes).move (by simp [hpoint])
  | waitError hpoint =>
    exact {
      running := fun houtside => absurd rfl houtside
      still := hs.still
      halted := fun _ houtside => absurd rfl houtside }

theorem stops_of_reachable (hs : (machine setup).Reachable s) : s.Stops :=
  hs.invariant (I := Stops) stops_new (fun _ _ _ _ hi _ hstep => stops_step hi hstep)

/-- **Where `m_running` is false nothing is resumed**, up to the next call. -/
theorem quiet_step (hstep : s.step setup label = some s') (hlabel : ∀ target, label ≠ .call target)
    (hrunning : s.running = false) :
    s'.running = false ∧ s'.executor.resumed = s.executor.resumed := by
  cases step_cases hstep with
  | call hpoint => exact absurd rfl (hlabel _)
  | event hpoint hby hevent =>
    obtain ⟨new, hgrows⟩ := pushes_of_event hby hevent
    exact ⟨hrunning, hgrows.resumed⟩
  | resume hpoint hrunning' hresume => cases hrunning.symm.trans hrunning'
  | triggers hpoint htrigger =>
    obtain ⟨new, hgrows⟩ := Executor.pushes_of_step (by simp) htrigger
    exact ⟨hrunning, hgrows.resumed⟩
  | stopOutside hpoint => exact ⟨rfl, rfl⟩
  | stop hpoint => exact ⟨rfl, rfl⟩
  | waitError hpoint => exact ⟨rfl, rfl⟩
  | _ => exact ⟨hrunning, rfl⟩

theorem quiet_run {labels : List (Label α τ κ ρ)} (hrun : (machine setup).run s labels = some s')
    (hlabels : ∀ target, .call target ∉ labels) (hrunning : s.running = false) :
    s'.executor.resumed = s.executor.resumed := by
  induction labels generalizing s with
  | nil =>
    cases hrun
    rfl
  | cons label labels ih =>
    rw [Machine.run, Option.bind_eq_some_iff] at hrun
    obtain ⟨s₁, hstep, hrest⟩ := hrun
    obtain ⟨hrunning₁, hresumed⟩ := quiet_step hstep
      (fun target heq => hlabels target (heq ▸ List.mem_cons_self)) hrunning
    exact (ih hrest (fun target hmem => hlabels target (List.mem_cons_of_mem _ hmem))
      hrunning₁).trans hresumed

/-- What `stop` does, wherever it is called. -/
theorem stop_step (hstep : s.step setup .stop = some s') :
    s'.running = false ∧ s'.executor = s.executor := by
  cases step_cases hstep with
  | stopOutside hpoint => exact ⟨rfl, rfl⟩
  | stop hpoint => exact ⟨rfl, rfl⟩

/-- A call is stopped by `stop` only. -/
theorem stopped_step (hstep : s.step setup label = some s') (hlabel : label ≠ .stop)
    (hstopped : s.stopped = none) : s'.stopped = none := by
  cases step_cases hstep with
  | stop hpoint => exact absurd rfl hlabel
  | call hpoint => rfl
  | _ => exact hstopped

/-! ## Returning -/

/-- **Why a call without a target returns**: it was stopped, or the reactor failed, or
there is nothing left to resume and nothing to wait for. -/
theorem returns_idle (hs : s.Stops) (hstep : s.step setup label = some s')
    (hinside : s.point ≠ .outside) (hreturned : s'.point = .outside) (htarget : s'.target = none)
    (hstopped : s'.stopped = none) (hfailed : s'.failed = false) :
    s'.executor = s.executor ∧ s.executor.ready = [] ∧ s.executor.pendingIo = 0 := by
  cases step_cases hstep with
  | call hpoint => exact absurd hpoint hinside
  | event hpoint hby hevent => exact absurd hreturned hinside
  | stopOutside hpoint => exact absurd hpoint hinside
  | stop hpoint => exact absurd hreturned hinside
  | complete hpoint hnone => exact absurd hreturned hinside
  | outer hpoint =>
    cases hrunning : s.running with
    | true =>
      rw [hrunning] at hreturned
      cases hreturned
    | false => exact absurd hstopped (hs.running hinside hrunning)
  | targetTest hpoint =>
    have hdone : s.targetDone = false := by
      unfold targetDone
      rw [show s.target = none from htarget]
    rw [hdone] at hreturned
    cases hreturned
  | resume hpoint hrunning hresume => cases hreturned
  | leaveInner hpoint => cases hreturned
  | yield hpoint => cases hreturned
  | idleTest hpoint =>
    change s.afterInner = .outside at hreturned
    unfold afterInner at hreturned
    split at hreturned
    · rename_i hrunning
      exact absurd hstopped (hs.running hinside hrunning)
    · split at hreturned
      · rename_i hidle
        exact ⟨rfl, hidle.2, hidle.1⟩
      · cases hreturned
  | triggers hpoint htrigger => cases hreturned
  | waitError hpoint => cases hfailed

/-- What was not resumed when a call returned is kept, in order, for the next. -/
theorem ready_of_outside (hstep : s.step setup label = some s') (houtside : s.point = .outside) :
    s.executor.ready <+: s'.executor.ready := by
  cases step_cases hstep with
  | event hpoint hby hevent => exact (pushes_of_event hby hevent).isPrefix
  | resume hpoint hrunning hresume =>
    rw [houtside] at hpoint
    cases hpoint
  | triggers hpoint htrigger =>
    rw [houtside] at hpoint
    cases hpoint
  | _ => exact List.prefix_refl _

/-- **`run_until` loses no continuation and strands no coroutine.** In every state of
every run the handles pushed are those resumed, in order, and then those in the queue;
after `stop` nothing more is resumed up to the next call; between the calls the queue is
kept; and a `run` that returns without having been stopped, and without an error of the
reactor, leaves an empty queue and no suspended awaiter, where each was awaited at
most once. A call has been stopped (`stopped`) if `stop` was called inside it, and not
otherwise. -/
theorem runUntil_keeps (setup : Setup α τ η) (s : Loop α τ κ ρ)
    (hs : (machine setup).Reachable s) :
    s.executor.pushed = s.executor.resumed ++ s.executor.ready.map Prod.fst
      ∧ (∀ l, s.stopped = some l → s.executor.resumed = l)
      ∧ (∀ s₁ labels s₂, s.step setup .stop = some s₁ →
        (machine setup).run s₁ labels = some s₂ → (∀ target, .call target ∉ labels) →
          s₂.executor.resumed = s.executor.resumed)
      ∧ ∀ label s', s.step setup label = some s' →
        (s.point = .outside → s.executor.ready <+: s'.executor.ready)
          ∧ (label ≠ .stop → s.stopped = none → s'.stopped = none)
          ∧ (label = .stop → s.point ≠ .outside → s'.stopped ≠ none)
          ∧ ((machine setup).ReachableBy AwaitedOnce s → s.point ≠ .outside →
            s'.point = .outside → s'.target = none → s'.stopped = none → s'.failed = false →
            s'.executor.ready = [] ∧ ∀ a, (s'.executor.awaiter a).phase ≠ .suspended) := by
  refine ⟨fifo_of_reachable hs, (stops_of_reachable hs).still,
    fun s₁ labels s₂ hstop hrun hlabels => ?_, fun label s' hstep =>
      ⟨ready_of_outside hstep, stopped_step hstep, ?_, ?_⟩⟩
  · obtain ⟨hrunning, hexecutor⟩ := stop_step hstop
    rw [quiet_run hrun hlabels hrunning, hexecutor]
  · rintro rfl hinside
    have hpoint : s'.point = s.point := by
      cases step_cases hstep with
      | stopOutside hpoint => rfl
      | stop hpoint => rfl
    exact (stops_step (stops_of_reachable hs) hstep).running (hpoint ▸ hinside)
      (stop_step hstep).1
  intro honce hinside hreturned htarget hstopped hfailed
  obtain ⟨heq, hready, hpending⟩ := returns_idle (stops_of_reachable hs) hstep hinside hreturned
    htarget hstopped hfailed
  rw [heq]
  exact ⟨hready, (attended_of_reachable honce).not_suspended hready hpending⟩

/-- Awaiters that are their own handles, without tokens. -/
def plain : Setup ℕ Unit ℕ := ⟨id, fun _ => none⟩

/-- `run` waits for the reactor, which reports the first awaiter, and resumes a
coroutine, up to the last test of the loop. -/
def runOnce : List (Label ℕ Unit ℕ Unit) :=
  [.call none, .tick, .tick, .tick, .tick, .triggers [0], .tick, .tick, .tick, .yield, .tick, .tick]

theorem awaitedOnce_runOnce (s : Loop ℕ Unit ℕ Unit) : ∀ label ∈ runOnce, AwaitedOnce s label := by
  unfold runOnce AwaitedOnce
  simp

/-- `run` resumes a coroutine, which stops the executor; it goes on to the end of the
call. -/
def runAndStop : List (Label ℕ Unit ℕ Unit) :=
  [.event (.schedule 10), .event (.schedule 11), .call none, .tick, .tick, .tick]

/-- Where a coroutine awaited before, the queue is empty after the first run and no awaiter
is suspended. After the stop in the second run one handle is left in the queue. -/
theorem runUntil_keeps_runAndStop :
    (∃ s s' : Loop ℕ Unit ℕ Unit,
      (machine plain).run new (.event (.coAwait 0 10 none) :: runOnce) = some s
        ∧ s.step plain .tick = some s' ∧ s'.executor.resumed = [10] ∧ s'.executor.ready = []
        ∧ ∀ a, (s'.executor.awaiter a).phase ≠ .suspended)
      ∧ ∃ s s₁ s₂ : Loop ℕ Unit ℕ Unit, (machine plain).run new runAndStop = some s
        ∧ s.step plain .stop = some s₁
        ∧ (machine plain).run s₁ [.yield, .tick, .tick, .tick] = some s₂
        ∧ s₂.point = .outside ∧ s₂.executor.ready = [(11, none)]
        ∧ s₂.executor.resumed = s.executor.resumed := by
  have hreach : ∀ s₁ s : Loop ℕ Unit ℕ Unit,
      (machine plain).step new (.event (.coAwait 0 10 none)) = some s₁ →
      (machine plain).run s₁ runOnce = some s → (machine plain).ReachableBy AwaitedOnce s := by
    intro s₁ s hstep hrun
    have hawait : (machine plain).ReachableBy AwaitedOnce s₁ := .step .init (by exact rfl) hstep
    exact hawait.run_of_forall (fun label hmem s => awaitedOnce_runOnce s label hmem) hrun
  have honce := hreach _ _ rfl rfl
  have hkeeps := (runUntil_keeps plain _ honce.reachable).2.2.2 .tick _ rfl
  obtain ⟨hready, hphase⟩ := hkeeps.2.2.2 honce (by decide) rfl rfl rfl rfl
  have hrun : ∀ s : Loop ℕ Unit ℕ Unit, (machine plain).run new runAndStop = some s →
      (machine plain).Reachable s :=
    fun s hrun => Machine.ReachableBy.run .init (fun _ _ => trivial) hrun
  obtain ⟨-, -, hstop, -⟩ := runUntil_keeps plain _ (hrun _ rfl)
  exact ⟨⟨_, _, rfl, rfl, rfl, hready, hphase⟩,
    ⟨_, _, _, rfl, rfl, rfl, rfl, rfl, hstop _ [.yield, .tick, .tick, .tick] _ rfl rfl (by simp)⟩⟩

end Loop

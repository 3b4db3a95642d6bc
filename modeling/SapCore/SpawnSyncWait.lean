import SapCore.ExecutorLoop
import SapCore.TaskProgram

/-!
# `sync_wait` of a spawned task

`sync_wait` of a `SpawnHandle` runs the executor until the runner of the handle is
done, and returns what the runner left in its promise – the value, or the exception,
which is rethrown. But `run_until` has other ways to return: it was stopped, the
reactor failed, or there is nothing left to resume and nothing to wait for. After
those the runner is not done, and `sync_wait` returns a default value instead, which
the caller cannot tell from a result; for a task that returns `stl::result<>` it is
a success.

Where none of the three happens, what is returned is what the body returned or
threw. The run of the executor is given by the labels of its steps, from the call of
`run_until` to its return.
-/

namespace Loop

variable {α τ κ η υ ε : Type}

/-- The end of `sync_wait`, after `run_until`; `zero` is the value `T{}`. -/
def syncWaitResult (zero : υ) (s : Loop α τ κ (Outcome υ ε)) (h : κ) : Outcome υ ε :=
  match s.result h with
  | none => .value zero
  | some r => r

variable [DecidableEq α] [DecidableEq τ] [DecidableEq κ] [DecidableEq η]

/-- The steps of a call of `run_until`, up to its return. -/
def drive {ρ : Type} (setup : Setup α τ η) (s : Loop α τ κ ρ) :
    List (Label α τ κ ρ) → Option (Loop α τ κ ρ)
  | [] => if s.point = .outside then some s else none
  | label :: labels =>
    if s.point = .outside then none
    else (s.step setup label).bind (fun s' => drive setup s' labels)

/-- **`sync_wait`** of the handle of a runner: what it returns or throws, and the state
after it. -/
def syncWait (setup : Setup α τ η) (zero : υ) (s : Loop α τ κ (Outcome υ ε)) (h : κ)
    (labels : List (Label α τ κ (Outcome υ ε))) :
    Option (Outcome υ ε × Loop α τ κ (Outcome υ ε)) :=
  if (s.result h).isSome then some (s.syncWaitResult zero h, s)
  else
    ((s.step setup (.call (some h))).bind (fun s' => drive setup s' labels)).map
      (fun s' => (s'.syncWaitResult zero h, s'))

/-! ## Undisturbed calls -/

/-- **An undisturbed step** of a call: the executor is not stopped, the reactor does not
fail, and when all handles are resumed there is something to wait for. -/
def Undisturbed {ρ : Type} (s : Loop α τ κ ρ) : Label α τ κ ρ → Prop
  | .stop => False
  | .waitError => False
  | .tick => s.point = .idleTest → ¬ (s.executor.pendingIo = 0 ∧ s.executor.ready = [])
  | _ => True

instance {ρ : Type} (s : Loop α τ κ ρ) (label : Label α τ κ ρ) : Decidable (Undisturbed s label) :=
  match label with
  | .stop => .isFalse id
  | .waitError => .isFalse id
  | .tick => inferInstanceAs
    (Decidable (s.point = .idleTest → ¬ (s.executor.pendingIo = 0 ∧ s.executor.ready = [])))
  | .call _ | .event _ | .complete _ _ | .yield | .triggers _ => .isTrue trivial

section

variable {ρ : Type} {setup : Setup α τ η} {s s' : Loop α τ κ ρ} {label : Label α τ κ ρ} {h : κ}

/-- **A call that nothing disturbs** runs for its target, and returns when it is done. -/
structure Drives (h : κ) (s : Loop α τ κ ρ) : Prop where
  target : s.target = some h
  running : s.point ≠ .outside → s.running = true
  done : s.point = .outside → (s.result h).isSome = true

omit [DecidableEq α] [DecidableEq τ] [DecidableEq κ] in
/-- Where the thread moves inside the loop. -/
theorem Drives.move (hs : s.Drives h) (hinside : s.point ≠ .outside) {point : Point}
    (hpoint : point ≠ .outside) : Drives h { s with point := point } where
  target := hs.target
  running _ := hs.running hinside
  done houtside := absurd houtside hpoint

/-- **An undisturbed step keeps it so.** -/
theorem drives_step (hs : s.Drives h) (hinside : s.point ≠ .outside)
    (hundisturbed : Undisturbed s label) (hstep : s.step setup label = some s') :
    s'.Drives h := by
  have hrunning := hs.running hinside
  cases step_cases hstep with
  | call hpoint => exact absurd hpoint hinside
  | event hpoint hby hevent => exact { hs with }
  | stopOutside hpoint => exact hundisturbed.elim
  | stop hpoint => exact hundisturbed.elim
  | complete hpoint hnone => exact { hs with done := fun houtside => absurd houtside hinside }
  | outer hpoint => exact hs.move hinside (by simp [hrunning])
  | targetTest hpoint =>
    refine { hs with running := fun _ => hrunning, done := fun houtside => ?_ }
    have hdone : s.targetDone = (s.result h).isSome := by
      unfold targetDone
      rw [hs.target]
    cases hresult : (s.result h).isSome with
    | true => rfl
    | false =>
      rw [hdone, hresult] at houtside
      cases houtside
  | resume hpoint _ hresume =>
    exact {
      target := hs.target
      running := fun _ => hrunning
      done := fun houtside => by cases houtside }
  | leaveInner hpoint => exact hs.move hinside (by simp)
  | yield hpoint => exact hs.move hinside (by simp)
  | idleTest hpoint =>
    refine hs.move hinside ?_
    unfold afterInner
    rw [if_neg (by simp [hrunning]), if_neg (hundisturbed hpoint)]
    simp
  | triggers hpoint htrigger =>
    exact {
      target := hs.target
      running := fun _ => hrunning
      done := fun houtside => by cases houtside }
  | waitError hpoint => exact hundisturbed.elim

/-- **A call that nothing disturbs returns when its target is done.** -/
theorem Drives.drive (hs : s.Drives h) {labels : List (Label α τ κ ρ)}
    (halong : (machine setup).Along Undisturbed s labels)
    (hdrive : s.drive setup labels = some s') : (s'.result h).isSome = true := by
  induction labels generalizing s with
  | nil =>
    unfold Loop.drive at hdrive
    split at hdrive
    · rename_i houtside
      cases hdrive
      exact hs.done houtside
    · cases hdrive
  | cons label labels ih =>
    unfold Loop.drive at hdrive
    split at hdrive
    · cases hdrive
    · rename_i hinside
      obtain ⟨s₁, hstep, hrest⟩ := Option.bind_eq_some_iff.mp hdrive
      exact ih (drives_step hs hinside halong.1 hstep) (halong.2 s₁ hstep) hrest

omit [DecidableEq α] [DecidableEq τ] [DecidableEq κ] in
theorem drives_call (s : Loop α τ κ ρ) (h : κ) : (s.call (some h)).Drives h where
  target := rfl
  running _ := rfl
  done houtside := by cases houtside

end

/-! ## What `sync_wait` returns -/

/-- **Where nothing disturbs the call, `sync_wait` returns what the body returned, or
throws what it threw.** -/
theorem syncWait_of_undisturbed (setup : Setup α τ η) (zero : υ)
    (s s' : Loop α τ κ (Outcome υ ε)) (h : κ) (labels : List (Label α τ κ (Outcome υ ε)))
    (r : Outcome υ ε) (halong : (machine setup).Along Undisturbed (s.call (some h)) labels)
    (hwait : s.syncWait setup zero h labels = some (r, s')) : s'.result h = some r := by
  have hresult : ∀ s : Loop α τ κ (Outcome υ ε), (s.result h).isSome = true →
      s.result h = some (s.syncWaitResult zero h) := by
    intro s hsome
    obtain ⟨r, hr⟩ := Option.isSome_iff_exists.mp hsome
    unfold syncWaitResult
    rw [hr]
  unfold syncWait at hwait
  split at hwait
  · rename_i hdone
    cases hwait
    exact hresult s hdone
  · obtain ⟨s₁, hcall, heq⟩ := Option.map_eq_some_iff.mp hwait
    obtain ⟨s₂, hstep, hdrive⟩ := Option.bind_eq_some_iff.mp hcall
    cases heq
    cases step_cases hstep with
    | call hpoint => exact hresult s' ((drives_call s h).drive halong hdrive)

/-- A loop whose tasks return `stl::result<>`. -/
abbrev ResultLoop := Loop ℕ Unit ℕ (Outcome AwaitResult Unit)

/-- The runner 10 was spawned and waits for an awaiter. -/
def spawned : ResultLoop :=
  { (new : ResultLoop) with executor := Executor.new.coAwait plain 0 10 none }

/-- The reactor reports the awaiter, and the task returns an error. -/
def taskFails : List (Label ℕ Unit ℕ (Outcome AwaitResult Unit)) :=
  [.tick, .tick, .tick, .tick, .triggers [0], .tick, .tick, .tick,
    .complete 10 (.value (.error ['e'])), .yield, .tick]

/-- The error is returned. -/
theorem syncWait_of_undisturbed_taskFails :
    ∃ s' : ResultLoop, (machine plain).Along Undisturbed (spawned.call (some 10)) taskFails
      ∧ spawned.syncWait plain .success 10 taskFails = some (.value (.error ['e']), s')
      ∧ s'.result 10 = some (.value (.error ['e'])) := by
  have halong : (machine plain).Along Undisturbed (spawned.call (some 10)) taskFails := by
    refine .cons (by decide) rfl (.cons (by decide) rfl (.cons (by decide) rfl (.cons (by decide) rfl
      (.cons trivial rfl (.cons (by decide) rfl (.cons (by decide) rfl (.cons (by decide) rfl
      (.cons trivial rfl (.cons trivial rfl (.cons (by decide) rfl trivial))))))))))
  exact ⟨_, halong, rfl, syncWait_of_undisturbed plain .success spawned _ 10 taskFails _ halong rfl⟩

/-- **A result of a task that never completed**, three times: the reactor fails; another
coroutine stops the executor; the runner waits for something that nobody resumes. -/
theorem syncWait_fabricates :
    (∃ s : ResultLoop, (machine plain).Reachable spawned
        ∧ spawned.syncWait plain .success 10 [.tick, .tick, .tick, .tick, .waitError]
          = some (.value .success, s)
        ∧ s.result 10 = none)
      ∧ (∃ s₀ s : ResultLoop, (machine plain).Reachable s₀
        ∧ s₀.syncWait plain .success 10 [.tick, .tick, .tick, .stop, .yield, .tick, .tick, .tick]
          = some (.value .success, s)
        ∧ s.result 10 = none)
      ∧ ∃ s : ResultLoop, (machine plain).Reachable (new : ResultLoop)
        ∧ new.syncWait plain .success 10 [.tick, .tick, .tick, .tick] = some (.value .success, s)
        ∧ s.result 10 = none := by
  have hspawned : (machine plain).Reachable spawned :=
    .step (a := .event (.coAwait 0 10 none)) .init trivial rfl
  have hscheduled := Machine.ReachableBy.step (a := .event (.schedule 11)) hspawned trivial rfl
  exact ⟨⟨_, hspawned, rfl, rfl⟩, ⟨_, _, hscheduled, rfl, rfl⟩, _, .init, rfl, rfl⟩

end Loop

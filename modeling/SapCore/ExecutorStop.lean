import SapCore.ExecutorLoop

/-!
# `stop` from other threads

`stop` stores `false` in `m_running` and wakes the reactor; `run_until` stores `true` there when
it begins, and loads it at the head of its outer loop, at the head of the inner loop while there
are handles, and after the inner loop. `StopRace` is the loop of the executor with threads that
call `stop` beside it, in steps that each access the flag or the reactor once. So the call of
`run_until` and its store are two steps, and so are the load at the head of the inner loop and
the resumption that follows it.

`wait` returns when the reactor has something to report, and a wake that is pending is consumed
if it is among what is reported; it need not be, since a batch is limited.

The history of the present call is kept beside it: whether a `stop` whose store fell into the
call has returned, whether the flag was loaded since, and whether a coroutine was resumed after
that.
-/

/-- **The loop of the executor, and threads that call `stop`.** -/
structure StopRace (α τ κ ρ ι : Type) where
  loop : Loop α τ κ ρ
  /-- `run_until` was called with this target and has not stored to `m_running` yet. -/
  entering : Option (Option κ)
  /-- At the head of the inner loop `m_running` was loaded as true, and the handle is not popped. -/
  loaded : Bool
  /-- A wake is pending. -/
  wake : Bool
  /-- A thread is between the two steps of `stop`; and whether the first fell into the present
  call of `run_until`. -/
  stopping : ι → Option Bool
  /-- A `stop` whose store fell into the present call has returned. -/
  returned : Bool
  /-- `m_running` was loaded since. -/
  loadedSince : Bool
  /-- A coroutine was resumed after that load. -/
  lateResume : Bool

namespace StopRace

open Executor (Event)

variable {α τ κ η ρ ι : Type}

/-- What a thread does. -/
inductive Label (α τ κ ρ ι : Type) where
  /-- `run_until` is called. -/
  | enter (target : Option κ)
  /-- It stores `true`. -/
  | begin
  /-- A step of its loop. -/
  | tick
  /-- A handle is popped and resumed. -/
  | pop
  /-- An event that a coroutine or the code outside brings about. -/
  | event (e : Event α τ κ)
  /-- A coroutine comes to its end. -/
  | complete (h : κ) (r : ρ)
  /-- The coroutine that was resumed is suspended, or came to its end. -/
  | yield
  /-- `stop`, called by the thread of the executor. -/
  | ownStop
  /-- `wait` returns a batch of triggers, and a wake may be consumed. -/
  | triggers (tokens : List α) (takesWake : Bool)
  /-- `wait` returns an error. -/
  | waitError
  /-- Another thread calls `stop` and stores `false`. -/
  | stopStore (i : ι)
  /-- It wakes the reactor and returns. -/
  | stopWake (i : ι)

/-- Nothing has happened. -/
def new : StopRace α τ κ ρ ι := ⟨.new, none, false, false, fun _ => none, false, false, false⟩

/-- `run_until` was called and has not returned. -/
def inCall (s : StopRace α τ κ ρ ι) : Bool := s.entering.isSome || decide (s.loop.point ≠ .outside)

/-- `m_running` is loaded. -/
def load (s : StopRace α τ κ ρ ι) : StopRace α τ κ ρ ι :=
  { s with loadedSince := s.loadedSince || s.returned }

/-- The thread of the executor goes on. When `run_until` returns its history ends. -/
def advance (s : StopRace α τ κ ρ ι) (loop : Loop α τ κ ρ) : StopRace α τ κ ρ ι :=
  if loop.point = .outside then
    { s with
      loop := loop
      stopping := fun i => (s.stopping i).map (fun _ => false)
      returned := false
      loadedSince := false }
  else { s with loop := loop }

variable [DecidableEq α] [DecidableEq τ] [DecidableEq κ] [DecidableEq η] [DecidableEq ι]
  (setup : Setup α τ η)

/-- A step of the loop of `run_until`. -/
def tick (s : StopRace α τ κ ρ ι) : Option (StopRace α τ κ ρ ι) :=
  match s.loop.point with
  | .outer =>
    some (s.load.advance
      { s.loop with point := if s.loop.running then .targetTest else .outside })
  | .targetTest =>
    some (s.advance { s.loop with point := if s.loop.targetDone then .outside else .inner })
  | .inner =>
    if s.loaded then none
    else if s.loop.executor.ready = [] then some (s.advance { s.loop with point := .idleTest })
    else if s.loop.running then some { s.load with loaded := true }
    else some (s.load.advance { s.loop with point := .idleTest })
  | .idleTest => some (s.load.advance { s.loop with point := s.loop.afterInner })
  | _ => none

/-- A handle is popped and resumed. -/
def pop (s : StopRace α τ κ ρ ι) : Option (StopRace α τ κ ρ ι) :=
  if s.loaded then
    (s.loop.event setup .resume).map (fun loop =>
      { s with
        loop := { loop with point := .resumed }
        loaded := false
        lateResume := s.lateResume || s.loadedSince })
  else none

/-- **One step.** -/
def step (s : StopRace α τ κ ρ ι) : Label α τ κ ρ ι → Option (StopRace α τ κ ρ ι)
  | .enter target =>
    if s.inCall then none else some { s with entering := some target }
  | .begin =>
    s.entering.bind (fun target => (s.loop.step setup (.call target)).map (fun loop =>
      { s with loop := loop, entering := none }))
  | .tick => if s.entering = none then s.tick else none
  | .pop => if s.entering = none then s.pop setup else none
  | .event e =>
    if s.entering = none then (s.loop.step setup (.event e)).map s.advance else none
  | .complete h r =>
    if s.entering = none then (s.loop.step setup (.complete h r)).map s.advance else none
  | .yield => if s.entering = none then (s.loop.step setup .yield).map s.advance else none
  | .ownStop =>
    if s.entering = none then
      (s.loop.step setup .stop).map { s with wake := true, returned := true }.advance
    else none
  | .triggers tokens takesWake =>
    if s.entering = none ∧ (takesWake → s.wake) then
      (s.loop.step setup (.triggers tokens)).map
        { s with wake := s.wake && !takesWake }.advance
    else none
  | .waitError => if s.entering = none then (s.loop.step setup .waitError).map s.advance else none
  | .stopStore i =>
    if s.stopping i = none then
      some { s with
        loop := { s.loop with running := false }
        stopping := Function.update s.stopping i (some s.inCall) }
    else none
  | .stopWake i =>
    (s.stopping i).map (fun during =>
      { s with
        wake := true
        stopping := Function.update s.stopping i none
        returned := s.returned || during })

/-- The executor and the threads as a machine. -/
def machine : Machine (StopRace α τ κ ρ ι) (Label α τ κ ρ ι) := ⟨new, step setup⟩

/-! ## Nothing is lost once the loop runs -/

variable {setup} {s s' : StopRace α τ κ ρ ι} {loop : Loop α τ κ ρ}

/-- **The stop is heeded**: once it has returned, `run_until` is not in `wait` without a wake
pending, and resumes no coroutine after it next loads `m_running`. -/
def Heeds (s : StopRace α τ κ ρ ι) : Prop :=
  (s.returned = true → s.loop.point = .waiting → s.wake = true) ∧ s.lateResume = false

/-- **The condition on a step**: no other thread stores `false` between the call of `run_until`
and its own store. -/
def Timely (s : StopRace α τ κ ρ ι) : Label α τ κ ρ ι → Prop
  | .stopStore _ => s.entering = none
  | _ => True

/-- **The invariant.** While a stop that fell into the call is under way or has returned, the
flag is false; a wake is pending, or the next thing that is done is to load the flag. -/
structure Inv (s : StopRace α τ κ ρ ι) : Prop where
  stopped : s.returned = true ∨ (∃ i, s.stopping i = some true) →
    s.entering = none ∧ s.loop.point ≠ .outside ∧ s.loop.running = false
  wake : s.returned = true → s.wake = true ∨ s.loop.point = .outer
  since : s.loadedSince = true → s.returned = true ∧ s.loop.point = .idleTest
  loaded : s.loaded = true → s.loop.point = .inner
  late : s.lateResume = false

omit [DecidableEq α] [DecidableEq τ] [DecidableEq κ] [DecidableEq ι] in
theorem inv_new : Inv (new : StopRace α τ κ ρ ι) where
  stopped h := by
    obtain h | ⟨i, h⟩ := h <;> cases h
  wake h := by cases h
  since h := by cases h
  loaded h := by cases h
  late := rfl

omit [DecidableEq α] [DecidableEq τ] [DecidableEq κ] [DecidableEq ι] in
theorem Inv.heeds (hs : s.Inv) : s.Heeds := by
  refine ⟨fun hreturned hpoint => ?_, hs.late⟩
  obtain hwake | houter := hs.wake hreturned
  · exact hwake
  · rw [hpoint] at houter
    cases houter

omit [DecidableEq α] [DecidableEq τ] [DecidableEq κ] [DecidableEq ι] in
/-- The thread of the executor goes on. -/
theorem inv_advance (hentering : s.entering = none)
    (hstopped : s.returned = true ∨ (∃ i, s.stopping i = some true) → loop.running = false)
    (hwake : s.returned = true → loop.point = .outside ∨ s.wake = true ∨ loop.point = .outer)
    (hsince : s.loadedSince = true →
      loop.point = .outside ∨ (s.returned = true ∧ loop.point = .idleTest))
    (hloaded : s.loaded = true → loop.point = .inner) (hlate : s.lateResume = false) :
    (s.advance loop).Inv := by
  by_cases hpoint : loop.point = .outside
  · rw [advance, if_pos hpoint]
    refine ⟨fun h => ?_, fun h => (nomatch h), fun h => (nomatch h), hloaded, hlate⟩
    obtain h | ⟨i, h⟩ := h
    · cases h
    · obtain ⟨b, -, hb⟩ := Option.map_eq_some_iff.mp h
      cases hb
  · rw [advance, if_neg hpoint]
    exact ⟨fun h => ⟨hentering, hpoint, hstopped h⟩, fun h => (hwake h).resolve_left hpoint,
      fun h => (hsince h).resolve_left hpoint, hloaded, hlate⟩

omit [DecidableEq α] [DecidableEq τ] [DecidableEq κ] [DecidableEq ι] in
/-- The thread of the executor goes on without a load of the flag. -/
theorem Inv.advance (hs : s.Inv) (hentering : s.entering = none)
    (hrunning : loop.running = s.loop.running ∨ loop.running = false)
    (hpoint : s.loop.point ≠ .outer ∨ s.returned = false) (hidle : s.loop.point ≠ .idleTest)
    (hinner : s.loaded = false) : (s.advance loop).Inv := by
  refine inv_advance hentering (fun h => ?_) (fun h => ?_) (fun h => absurd (hs.since h).2 hidle)
    (fun h => by rw [hinner] at h; cases h) hs.late
  · obtain hsame | hfalse := hrunning
    · exact hsame.trans (hs.stopped h).2.2
    · exact hfalse
  · obtain hwake | houter := hs.wake h
    · exact Or.inr (Or.inl hwake)
    · obtain hpoint | hpoint := hpoint
      · exact absurd houter hpoint
      · rw [hpoint] at h
        cases h

omit [DecidableEq α] [DecidableEq τ] [DecidableEq κ] [DecidableEq ι] in
/-- **The flag is loaded, and the thread goes on.** If a stop has returned, the load finds `false`
and leads out of the loop, or from the head of the inner loop to the test after it. -/
theorem Inv.load_advance (hs : s.Inv) (hentering : s.entering = none) (hloaded : s.loaded = false)
    (hrunning : loop.running = s.loop.running)
    (hfalse : s.loop.running = false →
      loop.point = .outside ∨ (loop.point = .idleTest ∧ s.loop.point = .inner)) :
    (s.load.advance loop).Inv := by
  have hreturned : s.returned = true →
      loop.point = .outside ∨ (loop.point = .idleTest ∧ s.loop.point = .inner) := fun h =>
    hfalse (hs.stopped (Or.inl h)).2.2
  refine inv_advance hentering (fun h => hrunning.trans (hs.stopped h).2.2) (fun h => ?_)
    (fun h => ?_) (fun h => by rw [load, hloaded] at h; cases h) hs.late
  · obtain hout | ⟨-, hinner⟩ := hreturned h
    · exact Or.inl hout
    · obtain hwake | houter := hs.wake h
      · exact Or.inr (Or.inl hwake)
      · rw [hinner] at houter
        cases houter
  · have hret : s.returned = true := by
      rw [load, Bool.or_eq_true] at h
      exact h.elim (fun h => (hs.since h).1) id
    exact (hreturned hret).imp id (fun h => ⟨hret, h.1⟩)

omit [DecidableEq α] [DecidableEq τ] [DecidableEq κ] [DecidableEq ι] in
/-- A step of the loop. -/
theorem Inv.tick (hs : s.Inv) (hentering : s.entering = none) (h : s.tick = some s') : s'.Inv := by
  have hloaded : s.loop.point ≠ .inner → s.loaded = false := fun hpoint =>
    Bool.eq_false_iff.mpr (fun h => hpoint (hs.loaded h))
  unfold StopRace.tick at h
  split at h
  · rename_i hpoint
    cases h
    refine hs.load_advance hentering (hloaded (by rw [hpoint]; decide)) rfl (fun hfalse => ?_)
    exact Or.inl (if_neg (by rw [hfalse]; decide))
  · rename_i hpoint
    cases h
    exact hs.advance hentering (Or.inl rfl) (Or.inl (by rw [hpoint]; decide))
      (by rw [hpoint]; decide) (hloaded (by rw [hpoint]; decide))
  · rename_i hpoint
    split at h
    · cases h
    rename_i hnot
    have hnot := Bool.eq_false_iff.mpr hnot
    split at h
    · cases h
      exact hs.advance hentering (Or.inl rfl) (Or.inl (by rw [hpoint]; decide))
        (by rw [hpoint]; decide) hnot
    split at h
    · rename_i hrunning
      cases h
      have hnone : ¬ (s.returned = true ∨ ∃ i, s.stopping i = some true) := fun h => by
        rw [(hs.stopped h).2.2] at hrunning
        cases hrunning
      have hreturned : s.returned = false := Bool.eq_false_iff.mpr (fun h => hnone (Or.inl h))
      refine ⟨fun h => absurd h hnone, fun h => absurd (Or.inl h) hnone, fun h => ?_,
        fun _ => hpoint, hs.late⟩
      rw [load, hreturned, Bool.or_false] at h
      exact absurd (Or.inl (hs.since h).1) hnone
    · rename_i hrunning
      cases h
      exact hs.load_advance hentering hnot rfl (fun _ => Or.inr ⟨rfl, hpoint⟩)
  · rename_i hpoint
    cases h
    refine hs.load_advance hentering (hloaded (by rw [hpoint]; decide)) rfl (fun hfalse => ?_)
    exact Or.inl (if_pos hfalse)
  · cases h

omit [DecidableEq α] [DecidableEq τ] [DecidableEq κ] [DecidableEq ι] in
/-- Outside the loop, in a coroutine and in `wait` the flag was not loaded last. -/
theorem Inv.not_loaded (hs : s.Inv)
    (hpoint : s.loop.point = .outside ∨ s.loop.point = .resumed ∨ s.loop.point = .waiting) :
    s.loadedSince = false ∧ s.loaded = false := by
  refine ⟨Bool.eq_false_iff.mpr (fun h => ?_), Bool.eq_false_iff.mpr (fun h => ?_)⟩
  · rw [(hs.since h).2] at hpoint
    revert hpoint
    decide
  · rw [hs.loaded h] at hpoint
    revert hpoint
    decide

omit [DecidableEq α] [DecidableEq τ] [DecidableEq κ] [DecidableEq ι] in
/-- The thread goes on from there. -/
theorem Inv.advance_from (hs : s.Inv) (hentering : s.entering = none)
    (hrunning : loop.running = s.loop.running ∨ loop.running = false)
    (hpoint : s.loop.point = .outside ∨ s.loop.point = .resumed ∨ s.loop.point = .waiting) :
    (s.advance loop).Inv := by
  have hidle : s.loop.point ≠ .outer ∧ s.loop.point ≠ .idleTest := by
    obtain h | h | h := hpoint <;> rw [h] <;> decide
  exact hs.advance hentering hrunning (Or.inl hidle.1) hidle.2 (hs.not_loaded hpoint).2

omit [DecidableEq ι] in
/-- A handle is popped and resumed: the flag was loaded before any stop returned. -/
theorem Inv.pop (hs : s.Inv) (h : s.pop setup = some s') : s'.Inv := by
  rw [StopRace.pop, Option.ite_none_right_eq_some, Option.map_eq_some_iff] at h
  obtain ⟨hloaded, loop, hevent, rfl⟩ := h
  obtain ⟨executor, -, rfl⟩ := Loop.event_eq_some hevent
  have hinner := hs.loaded hloaded
  have hsince : s.loadedSince = false := Bool.eq_false_iff.mpr (fun h => by
    have hidle := (hs.since h).2
    rw [hinner] at hidle
    cases hidle)
  refine ⟨fun h => ?_, fun h => ?_, fun h => ?_, fun h => (nomatch h), ?_⟩
  · obtain ⟨hentering, -, hrunning⟩ := hs.stopped h
    exact ⟨hentering, fun hout => (nomatch hout), hrunning⟩
  · obtain hwake | houter := hs.wake h
    · exact Or.inl hwake
    · rw [hinner] at houter
      cases houter
  · rw [hsince] at h
    cases h
  · rw [hs.late, hsince]
    rfl

omit [DecidableEq ι] in
/-- `wait` returns. -/
theorem Inv.triggers (hs : s.Inv) (hentering : s.entering = none) {tokens : List α} (wake : Bool)
    (h : s.loop.step setup (.triggers tokens) = some loop) :
    ({ s with wake := wake }.advance loop).Inv := by
  cases Loop.step_cases h with
  | triggers hpoint hstep =>
    obtain ⟨hsince, hloaded⟩ := hs.not_loaded (Or.inr (Or.inr hpoint))
    refine inv_advance hentering (fun h => (hs.stopped h).2.2) (fun _ => Or.inr (Or.inr rfl))
      (fun h => ?_) (fun h => ?_) hs.late
    · cases hsince.symm.trans h
    · cases hloaded.symm.trans h

omit [DecidableEq ι] in
/-- `stop`, called by the thread of the executor. -/
theorem Inv.ownStop (hs : s.Inv) (hentering : s.entering = none)
    (h : s.loop.step setup .stop = some loop) :
    ({ s with wake := true, returned := true }.advance loop).Inv := by
  have hcases : loop.running = false ∧ (s.loop.point = .outside ∨ s.loop.point = .resumed) := by
    cases Loop.step_cases h with
    | stopOutside hpoint => exact ⟨rfl, Or.inl hpoint⟩
    | stop hpoint => exact ⟨rfl, Or.inr hpoint⟩
  obtain ⟨hsince, hloaded⟩ := hs.not_loaded (hcases.2.imp id Or.inl)
  refine inv_advance hentering (fun _ => hcases.1) (fun _ => Or.inr (Or.inl rfl))
    (fun h => ?_) (fun h => ?_) hs.late
  · cases hsince.symm.trans h
  · cases hloaded.symm.trans h

omit [DecidableEq α] [DecidableEq τ] [DecidableEq κ] in
/-- Another thread calls `stop` and stores `false`. -/
theorem Inv.stopStore (hs : s.Inv) (hentering : s.entering = none) (i : ι) :
    Inv { s with
      loop := { s.loop with running := false }
      stopping := Function.update s.stopping i (some s.inCall) } := by
  refine ⟨fun h => ⟨hentering, ?_, rfl⟩, hs.wake, hs.since, hs.loaded, hs.late⟩
  obtain h | ⟨j, hj⟩ := h
  · exact (hs.stopped (Or.inl h)).2.1
  · replace hj : Function.update s.stopping i (some s.inCall) j = some true := hj
    by_cases hji : j = i
    · subst hji
      rw [Function.update_self, inCall, hentering] at hj
      simpa using hj
    · rw [Function.update_of_ne hji] at hj
      exact (hs.stopped (Or.inr ⟨j, hj⟩)).2.1

omit [DecidableEq α] [DecidableEq τ] [DecidableEq κ] in
/-- It wakes the reactor and returns. -/
theorem Inv.stopWake (hs : s.Inv) {i : ι} {during : Bool} (hi : s.stopping i = some during) :
    Inv { s with
      wake := true
      stopping := Function.update s.stopping i none
      returned := s.returned || during } := by
  refine ⟨fun h => hs.stopped ?_, fun _ => Or.inl rfl, fun h => ?_, hs.loaded, hs.late⟩
  · obtain h | ⟨j, hj⟩ := h
    · rw [Bool.or_eq_true] at h
      exact h.imp id (fun h => ⟨i, by rw [hi, h]⟩)
    · replace hj : Function.update s.stopping i none j = some true := hj
      have hji : j ≠ i := fun hji => by
        rw [hji, Function.update_self] at hj
        cases hj
      rw [Function.update_of_ne hji] at hj
      exact Or.inr ⟨j, hj⟩
  · obtain ⟨hreturned, hidle⟩ := hs.since h
    exact ⟨by rw [hreturned]; rfl, hidle⟩

omit [DecidableEq ι] in
/-- `run_until` stores `true`: nothing was stopped in this call yet. -/
theorem Inv.begin (hs : s.Inv) {target : Option κ} (hentering : s.entering = some target)
    (h : s.loop.step setup (.call target) = some loop) :
    Inv { s with loop := loop, entering := none } := by
  have hnone : ¬ (s.returned = true ∨ ∃ i, s.stopping i = some true) := fun h => by
    rw [(hs.stopped h).1] at hentering
    cases hentering
  cases Loop.step_cases h with
  | call hpoint =>
    obtain ⟨hsince, hloaded⟩ := hs.not_loaded (Or.inl hpoint)
    refine ⟨fun h => absurd h hnone, fun h => absurd (Or.inl h) hnone, fun h => ?_, fun h => ?_,
      hs.late⟩
    · cases hsince.symm.trans h
    · cases hloaded.symm.trans h

/-- **One step.** -/
theorem Inv.step (hs : s.Inv) {label : Label α τ κ ρ ι} (htimely : s.Timely label)
    (h : s.step setup label = some s') : s'.Inv := by
  cases label with
  | enter target =>
    simp only [StopRace.step] at h
    split at h
    · cases h
    · rename_i hcall
      cases h
      simp only [inCall, Bool.or_eq_true, decide_eq_true_eq, not_or, not_not] at hcall
      refine ⟨fun h => absurd hcall.2 (hs.stopped h).2.1, hs.wake, hs.since, hs.loaded, hs.late⟩
  | begin =>
    rw [StopRace.step, Option.bind_eq_some_iff] at h
    obtain ⟨target, hentering, h⟩ := h
    obtain ⟨loop, hloop, rfl⟩ := Option.map_eq_some_iff.mp h
    exact hs.begin hentering hloop
  | tick =>
    rw [StopRace.step, Option.ite_none_right_eq_some] at h
    exact hs.tick h.1 h.2
  | pop =>
    rw [StopRace.step, Option.ite_none_right_eq_some] at h
    exact hs.pop h.2
  | event e =>
    rw [StopRace.step, Option.ite_none_right_eq_some, Option.map_eq_some_iff] at h
    obtain ⟨hentering, loop, hloop, rfl⟩ := h
    cases Loop.step_cases hloop with
    | event hpoint => exact hs.advance_from hentering (Or.inl rfl) (hpoint.imp id Or.inl)
  | complete k r =>
    rw [StopRace.step, Option.ite_none_right_eq_some, Option.map_eq_some_iff] at h
    obtain ⟨hentering, loop, hloop, rfl⟩ := h
    cases Loop.step_cases hloop with
    | complete hpoint => exact hs.advance_from hentering (Or.inl rfl) (hpoint.imp id Or.inl)
  | yield =>
    rw [StopRace.step, Option.ite_none_right_eq_some, Option.map_eq_some_iff] at h
    obtain ⟨hentering, loop, hloop, rfl⟩ := h
    cases Loop.step_cases hloop with
    | yield hpoint => exact hs.advance_from hentering (Or.inl rfl) (Or.inr (Or.inl hpoint))
  | ownStop =>
    rw [StopRace.step, Option.ite_none_right_eq_some, Option.map_eq_some_iff] at h
    obtain ⟨hentering, loop, hloop, rfl⟩ := h
    exact hs.ownStop hentering hloop
  | triggers tokens takesWake =>
    rw [StopRace.step, Option.ite_none_right_eq_some, Option.map_eq_some_iff] at h
    obtain ⟨⟨hentering, -⟩, loop, hloop, rfl⟩ := h
    exact hs.triggers hentering _ hloop
  | waitError =>
    rw [StopRace.step, Option.ite_none_right_eq_some, Option.map_eq_some_iff] at h
    obtain ⟨hentering, loop, hloop, rfl⟩ := h
    cases Loop.step_cases hloop with
    | waitError hpoint => exact hs.advance_from hentering (Or.inr rfl) (Or.inr (Or.inr hpoint))
  | stopStore i =>
    rw [StopRace.step, Option.ite_none_right_eq_some] at h
    obtain ⟨-, h⟩ := h
    cases h
    exact hs.stopStore htimely i
  | stopWake i =>
    rw [StopRace.step, Option.map_eq_some_iff] at h
    obtain ⟨during, hi, rfl⟩ := h
    exact hs.stopWake hi

/-- **No stop is lost once the loop runs.** In every interleaving in which no other thread stores
`false` between the call of `run_until` and its own store, every stop that falls into the call
is heeded. -/
theorem heeds_of_timely (setup : Setup α τ η) (s : StopRace α τ κ ρ ι)
    (hs : (machine setup).ReachableBy Timely s) : s.Heeds := by
  have hinv : s.Inv := hs.invariant inv_new (fun s label s' _ hs htimely hstep =>
    hs.step htimely hstep)
  exact hinv.heeds

/-- A coroutine awaits, and the loop goes to `wait`, where it is stopped. -/
def stopInWait : List (Label ℕ Unit ℕ Unit Unit) :=
  [.event (.coAwait 0 10 none), .enter none, .begin, .tick, .tick, .tick, .tick, .stopStore (),
    .stopWake ()]

/-- The wake is pending. -/
theorem heeds_of_timely_stopInWait :
    ∃ s, (machine Loop.plain).run new stopInWait = some s ∧ s.returned = true
      ∧ s.loop.point = .waiting ∧ s.wake = true := by
  have halong : (machine Loop.plain).Along Timely new stopInWait := by
    refine .cons trivial rfl (.cons trivial rfl (.cons trivial rfl (.cons trivial rfl ?_)))
    refine .cons trivial rfl (.cons trivial rfl (.cons trivial rfl (.cons ?_ rfl ?_)))
    · exact rfl
    · exact .cons trivial rfl trivial
  have hreach := Machine.ReachableBy.init.run_along halong rfl
  exact ⟨_, rfl, rfl, rfl, (heeds_of_timely Loop.plain _ hreach).1 rfl rfl⟩

/-- `stop` runs between the call of `run_until` and its store, and the wake is consumed by the
first `wait`. -/
def stopAtEntry : List (Label ℕ Unit ℕ Unit Unit) :=
  [.event (.coAwait 0 10 none), .enter none, .stopStore (), .stopWake (), .begin, .tick, .tick, .tick,
    .tick]

/-- **The stop is lost**: `run_until` is in `wait` again without a wake pending, and where the
reactor reports the awaiter, it resumes the coroutine. -/
theorem stopAtEntry_lost :
    (∃ s, (machine Loop.plain).run new
        (stopAtEntry ++ [.triggers [] true, .tick, .tick, .tick, .tick]) = some s
          ∧ s.returned = true ∧ s.loop.point = .waiting ∧ s.wake = false ∧ ¬ s.Heeds)
      ∧ ∃ s, (machine Loop.plain).run new
        (stopAtEntry ++ [.triggers [0] true, .tick, .tick, .tick, .pop]) = some s
          ∧ s.loop.executor.resumed = [10] ∧ s.lateResume = true := by
  refine ⟨⟨_, rfl, rfl, rfl, rfl, fun h => ?_⟩, _, rfl, rfl, rfl⟩
  exact absurd (h.1 rfl rfl) (by decide)

end StopRace

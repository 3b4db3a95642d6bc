import SapCore.TaskOperations

/-!
# When the operations of tasks are safe

A task is used properly if it is awaited once, or again when it is done, detached before it is
started, and left alone while someone awaits it. Then a coroutine that is suspended in a
`co_await` and the coroutine it awaits refer to each other, through the object and through the
continuation, and the transfer of control at the end of the one finds the other where it was left
(`Inv.complete`). No operation touches a frame that is missing or finished
(`faultless_of_proper`).

Neither the test for an empty handle nor that for a finished coroutine is made where it would be
needed, though, so the condition has to say so.
-/

namespace Tasks

variable {ν υ ξ : Type} {s s' : Tasks ν υ ξ} {f g a c : ℕ} {t u : ν}

/-- Some coroutine is suspended in the `co_await` of the object. -/
def Awaited (s : Tasks ν υ ξ) (t : ν) : Prop := ∃ c, s.point c = .awaiting t

/-- The coroutine of the object is not running. -/
def Idle (s : Tasks ν υ ξ) (t : ν) : Prop :=
  ∀ f, s.handle t = some (some f) → s.point f ≠ .running

/-- **The condition on a step.** A task is awaited if it is not empty and its coroutine has not
been started or is done; it is detached if it is empty or its coroutine has not been started.
While a coroutine awaits an object this is not moved from, assigned to or destroyed; a coroutine
that runs is not destroyed; and when the coroutine of a task ends, the one that awaits it has
not been destroyed. -/
def Proper (s : Tasks ν υ ξ) : Label ν υ ξ → Prop
  | .moveConstruct _ u => ¬ s.Awaited u
  | .moveAssign t u => t = u ∨ ¬ s.Awaited t ∧ s.Idle t ∧ ¬ s.Awaited u
  | .drop t => ¬ s.Awaited t ∧ s.Idle t
  | .coAwait _ t =>
    ∃ f, s.handle t = some (some f) ∧ (s.point f = .initial ∨ s.point f = .final)
  | .detach t => ∀ f, s.handle t = some (some f) → s.point f = .initial
  | .complete a _ => (s.promise a).detached = false →
      ∀ c, (s.promise a).continuation = some c → s.point c ≠ .destroyed
  | _ => True

/-- **What the operations keep.** A task owns its coroutine, which is there. A coroutine that
awaits an object is the continuation of the coroutine of that object, which is underway; and the
continuation of a coroutine that is underway awaits it, or was destroyed. -/
structure Inv (s : Tasks ν υ ξ) : Prop where
  faults : s.faults = []
  unique : ∀ t u f, s.handle t = some (some f) → s.handle u = some (some f) → t = u
  owned : ∀ t f, s.handle t = some (some f) →
    s.point f ≠ .unborn ∧ s.point f ≠ .destroyed ∧ (s.promise f).detached = false
  awaiting : ∀ c t, s.point c = .awaiting t → ∃ f, s.handle t = some (some f)
    ∧ (s.promise f).continuation = some c ∧ (s.point f).underway = true
  continues : ∀ f c, (s.point f).underway = true → (s.promise f).detached = false →
    (s.promise f).continuation = some c →
    s.point c = .destroyed ∨ ∃ t, s.point c = .awaiting t ∧ s.handle t = some (some f)
  stored : ∀ f, s.point f = .final → (s.promise f).outcome ≠ none

theorem inv_new : Inv (new : Tasks ν υ ξ) where
  faults := rfl
  unique _ _ _ ht := (nomatch ht)
  owned _ _ ht := (nomatch ht)
  awaiting _ _ hc := (nomatch hc)
  continues _ _ hf := (nomatch hf)
  stored _ hf := (nomatch hf)

/-! ## What the writes do -/

@[grind =] theorem point_setPoint (s : Tasks ν υ ξ) (f g : ℕ) (p : CoroutinePoint ν) :
    (s.setPoint f p).point g = if g = f then p else s.point g := by
  simp only [point, setPoint, Function.update_apply]
  split <;> rfl

@[grind =] theorem promise_setPoint (s : Tasks ν υ ξ) (f g : ℕ) (p : CoroutinePoint ν) :
    (s.setPoint f p).promise g = s.promise g := by
  simp only [promise, setPoint, Function.update_apply]
  split
  · rename_i heq
    rw [heq]
  · rfl

@[grind =] theorem handle_setPoint (s : Tasks ν υ ξ) (f : ℕ) (p : CoroutinePoint ν) (t : ν) :
    (s.setPoint f p).handle t = s.handle t := rfl

@[grind =] theorem point_setPromise (s : Tasks ν υ ξ) (f g : ℕ) (p : Async.Promise υ ξ) :
    (s.setPromise f p).point g = s.point g := by
  simp only [point, setPromise, Function.update_apply]
  split
  · rename_i heq
    rw [heq]
  · rfl

@[grind =] theorem promise_setPromise (s : Tasks ν υ ξ) (f g : ℕ) (p : Async.Promise υ ξ) :
    (s.setPromise f p).promise g = if g = f then p else s.promise g := by
  simp only [promise, setPromise, Function.update_apply]
  split <;> rfl

@[grind =] theorem handle_setPromise (s : Tasks ν υ ξ) (f : ℕ) (p : Async.Promise υ ξ) (t : ν) :
    (s.setPromise f p).handle t = s.handle t := rfl

@[grind =] theorem point_birth (s : Tasks ν υ ξ) (f g : ℕ) (p : CoroutinePoint ν) :
    (s.birth f p).point g = if g = f then p else s.point g := by
  simp only [point, birth, Function.update_apply]
  split <;> rfl

@[grind =] theorem promise_birth (s : Tasks ν υ ξ) (f g : ℕ) (p : CoroutinePoint ν) :
    (s.birth f p).promise g = if g = f then .new else s.promise g := by
  simp only [promise, birth, Function.update_apply]
  split <;> rfl

@[grind =] theorem handle_birth (s : Tasks ν υ ξ) (f : ℕ) (p : CoroutinePoint ν) (t : ν) :
    (s.birth f p).handle t = s.handle t := rfl

variable [DecidableEq ν]

@[grind =] theorem handle_setHandle (s : Tasks ν υ ξ) (t u : ν) (h : Option (Option ℕ)) :
    (s.setHandle t h).handle u = if u = t then h else s.handle u :=
  Function.update_apply _ _ _ _

@[grind =] theorem point_setHandle (s : Tasks ν υ ξ) (t : ν) (h : Option (Option ℕ)) (f : ℕ) :
    (s.setHandle t h).point f = s.point f := rfl

@[grind =] theorem promise_setHandle (s : Tasks ν υ ξ) (t : ν) (h : Option (Option ℕ)) (f : ℕ) :
    (s.setHandle t h).promise f = s.promise f := rfl

/-- What is stored can be taken. -/
theorem outcome_store (p : Async.Promise υ ξ) (o : Outcome υ ξ) : (p.store o).outcome ≠ none := by
  cases o with
  | value v => cases h : p.exc <;> simp [Async.Promise.store, Async.Promise.outcome, h]
  | exception e => simp [Async.Promise.store, Async.Promise.outcome]

/-! ## The operations keep the invariant -/

omit [DecidableEq ν] in
/-- A coroutine that runs is suspended, or one that is suspended goes on. -/
theorem Inv.setPoint_underway (hs : s.Inv) (hf : s.point f = .running ∨ s.point f = .suspended)
    {p : CoroutinePoint ν} (hp : p = .running ∨ p = .suspended) : (s.setPoint f p).Inv where
  faults := hs.faults
  unique := hs.unique
  owned t g ht := by
    have howned := hs.owned t g ht
    grind
  awaiting c t hc := by
    have hawaiting := hs.awaiting c t
    grind [CoroutinePoint.underway]
  continues g c hg := by
    have hcontinues := hs.continues g c
    grind [CoroutinePoint.underway]
  stored g hg := by
    have hstored := hs.stored g
    grind

omit [DecidableEq ν] in
/-- A coroutine of another type is called. -/
theorem Inv.enter (hs : s.Inv) (ha : s.point a = .unborn) : (s.birth a .running).Inv where
  faults := hs.faults
  unique := hs.unique
  owned t g ht := by
    have howned := hs.owned t g ht
    grind
  awaiting c t hc := by
    have hawaiting := hs.awaiting c t
    grind [CoroutinePoint.underway]
  continues g c hg := by
    have hcontinues := hs.continues g c
    grind [CoroutinePoint.underway, Async.Promise.new]
  stored g hg := by
    have hstored := hs.stored g
    grind

theorem Inv.call (hs : s.Inv) (hf : s.point f = .unborn) (ht : s.handle t = none) :
    ((s.birth f .initial).setHandle t (some (some f))).Inv where
  faults := hs.faults
  unique x y g hx hy := by
    have hunique := hs.unique x y g
    have howned := hs.owned x g
    have howned' := hs.owned y g
    grind
  owned x g hx := by
    have howned := hs.owned x g
    grind [Async.Promise.new]
  awaiting c x hc := by
    have hawaiting := hs.awaiting c x
    grind [CoroutinePoint.underway]
  continues g c hg := by
    have hcontinues := hs.continues g c
    grind [CoroutinePoint.underway]
  stored g hg := by
    have hstored := hs.stored g
    grind

/-- An object that holds nothing is written to. -/
theorem Inv.setHandle (hs : s.Inv) (ht : ∀ f, s.handle t ≠ some (some f))
    {h : Option (Option ℕ)} (hh : ∀ f, h ≠ some (some f)) : (s.setHandle t h).Inv where
  faults := hs.faults
  unique x y g hx hy := by
    have hunique := hs.unique x y g
    grind
  owned x g hx := by
    have howned := hs.owned x g
    grind
  awaiting c x hc := by
    have hawaiting := hs.awaiting c x
    grind
  continues g c hg := by
    have hcontinues := hs.continues g c
    grind
  stored := hs.stored

/-- What an object holds goes to one that holds nothing. -/
theorem Inv.take (hs : s.Inv) (ht : ∀ f, s.handle t ≠ some (some f))
    (hu : ¬ s.Awaited u) : (s.take t u).Inv where
  faults := hs.faults
  unique x y g hx hy := by
    have hunique := hs.unique x y g
    have hunique' := hs.unique x u g
    have hunique'' := hs.unique u y g
    grind [Tasks.take]
  owned x g hx := by
    have howned := hs.owned x g
    have howned' := hs.owned u g
    grind [Tasks.take]
  awaiting c x hc := by
    have hawaiting := hs.awaiting c x
    have hnot := not_exists.mp hu c
    grind [Tasks.take]
  continues g c hg hdetached hcontinuation := by
    refine (hs.continues g c hg hdetached hcontinuation).imp_right ?_
    rintro ⟨x, hc, hx⟩
    have hnot := not_exists.mp hu c
    exact ⟨x, hc, by grind [Tasks.take]⟩
  stored := hs.stored

omit [DecidableEq ν] in
theorem handle_cases (s : Tasks ν υ ξ) (t : ν) :
    (s.handle t).getD none = none ∧ (∀ f, s.handle t ≠ some (some f))
      ∨ ∃ f, s.handle t = some (some f) := by
  match s.handle t with
  | none => exact .inl ⟨rfl, fun f hf => nomatch hf⟩
  | some none => exact .inl ⟨rfl, fun f hf => nomatch hf⟩
  | some (some f) => exact .inr ⟨f, rfl⟩

omit [DecidableEq ν] in
/-- The coroutine of an object that does not run is destroyed as it should be. -/
theorem Inv.destroy_eq (hs : s.Inv) (hf : s.handle t = some (some f)) (hidle : s.Idle t) :
    s.destroy (some f) = s.setPoint f .destroyed := by
  obtain ⟨hborn, halive, -⟩ := hs.owned t f hf
  have hidle := hidle f hf
  unfold destroy
  dsimp only
  split
  · rename_i hrunning
    exact absurd hrunning hidle
  · rename_i hunborn
    exact absurd hunborn hborn
  · rename_i hdestroyed
    exact absurd hdestroyed halive
  · rfl

/-- **An object gives up its coroutine**, which is destroyed. -/
theorem Inv.release (hs : s.Inv) (ht : ¬ s.Awaited t) (hidle : s.Idle t)
    {h : Option (Option ℕ)} (hh : ∀ f, h ≠ some (some f)) :
    ((s.destroy ((s.handle t).getD none)).setHandle t h).Inv := by
  obtain ⟨hempty, hnone⟩ | ⟨f, hf⟩ := s.handle_cases t
  · rw [hempty]
    exact hs.setHandle hnone hh
  · rw [hf, Option.getD_some, hs.destroy_eq hf hidle]
    exact {
      faults := hs.faults
      unique := fun x y g hx hy => by
        have hunique := hs.unique x y g
        grind
      owned := fun x g hx => by
        have howned := hs.owned x g
        have hunique := hs.unique x t f
        grind
      awaiting := fun c x hc => by
        -- the coroutine that is awaited is another, for no one awaits `t`
        have hnot := not_exists.mp ht c
        have hawaiting := hs.awaiting c x
        have hunique := hs.unique x t f
        grind
      continues := fun g c hg hdetached hcontinuation => by
        have hnot := not_exists.mp ht c
        have hcontinues := hs.continues g c
        grind [CoroutinePoint.underway]
      stored := fun g hg => by
        have hstored := hs.stored g
        grind }

theorem resume_initial (hf : s.point f = .initial) : s.resume f = s.setPoint f .running := by
  rw [resume, hf]

theorem coAwait_initial (ha : s.point a = .running) (hf : s.handle t = some (some f))
    (hinitial : s.point f = .initial) :
    s.coAwait a t
      = ((s.setPoint a (.awaiting t)).setPromise f
          { s.promise f with continuation := some a }).setPoint f .running := by
  have hne : f ≠ a := by
    rintro rfl
    cases hinitial.symm.trans ha
  have hready : s.awaitReady (some f) = false := by
    rw [awaitReady, hinitial]
    rfl
  rw [coAwait, hf, Option.getD_some, hready, if_neg Bool.false_ne_true, awaitSuspend,
    promise_setPoint, resume_initial]
  rw [point_setPromise, point_setPoint, if_neg hne, hinitial]

omit [DecidableEq ν] in
theorem point_destroy (s : Tasks ν υ ξ) (h : Option ℕ) (c : ℕ) :
    (s.destroy h).point c = s.point c ∨ (s.destroy h).point c = .destroyed := by
  unfold destroy
  split
  · exact .inl rfl
  · rename_i f
    have hset : (s.setPoint f .destroyed).point c = s.point c
        ∨ (s.setPoint f .destroyed).point c = .destroyed := by
      rw [point_setPoint]
      by_cases hcf : c = f
      · exact .inr (if_pos hcf)
      · exact .inl (if_neg hcf)
    split
    · exact hset
    · exact .inl rfl
    · exact .inl rfl
    · exact hset

/-- **Move assignment**: the object is empty between its two halves. -/
theorem Inv.moveAssign (hs : s.Inv)
    (hproper : t = u ∨ ¬ s.Awaited t ∧ s.Idle t ∧ ¬ s.Awaited u) : (s.moveAssign t u).Inv := by
  unfold Tasks.moveAssign
  split
  · exact hs
  · rename_i hne
    obtain ⟨ht, hidle, hu⟩ := hproper.resolve_left hne
    have hrelease := hs.release ht hidle (h := some none) (by simp)
    have hempty : ∀ f, ((s.destroy ((s.handle t).getD none)).setHandle t (some none)).handle t
        ≠ some (some f) := by
      simp [handle_setHandle]
    have hu' : ¬ ((s.destroy ((s.handle t).getD none)).setHandle t (some none)).Awaited u := by
      rintro ⟨c, hc⟩
      rw [point_setHandle] at hc
      obtain hsame | hdestroyed := s.point_destroy ((s.handle t).getD none) c
      · exact hu ⟨c, hsame.symm.trans hc⟩
      · cases hdestroyed.symm.trans hc
    have htake := hrelease.take hempty hu'
    have hsame : ((s.destroy ((s.handle t).getD none)).setHandle t (some none)).take t u
        = (s.destroy ((s.handle t).getD none)).take t u := by
      simp only [Tasks.take, handle_setHandle, if_neg (Ne.symm hne)]
      simp only [Tasks.setHandle, Function.update_idem]
    rwa [hsame] at htake

/-- **A task that was not started is awaited**: its coroutine runs, and the awaiting one is its
continuation. -/
theorem Inv.coAwait_initial (hs : s.Inv) (ha : s.point a = .running)
    (hf : s.handle t = some (some f)) (hinitial : s.point f = .initial) :
    (s.coAwait a t).Inv := by
  rw [Tasks.coAwait_initial ha hf hinitial]
  exact {
    faults := hs.faults
    unique := hs.unique
    owned := fun x g hx => by
      have howned := hs.owned x g
      grind
    awaiting := fun c x hc => by
      have hawaiting := hs.awaiting c x
      grind [CoroutinePoint.underway]
    continues := fun g c hg hdetached hcontinuation => by
      -- the awaiting coroutine was running, so it was nobody's continuation
      have hcontinues := hs.continues g c
      grind [CoroutinePoint.underway]
    stored := fun g hg => by
      have hstored := hs.stored g
      grind }

theorem awaitResume_eq (hf : s.handle t = some (some f)) (halive : s.point f ≠ .destroyed)
    {o : Outcome υ ξ} (ho : (s.promise f).outcome = some o) :
    s.awaitResume a t = { s with results := s.results ++ [(a, o)] } := by
  simp only [awaitResume, hf, if_neg halive, ho]

/-- **A task that is done is awaited**: its result is taken. -/
theorem Inv.awaitResume (hs : s.Inv) (hf : s.handle t = some (some f))
    (hfinal : s.point f = .final) : (s.awaitResume a t).Inv := by
  obtain ⟨o, ho⟩ := Option.ne_none_iff_exists'.mp (hs.stored f hfinal)
  rw [awaitResume_eq hf (by simp [hfinal]) ho]
  exact { hs with }

theorem Inv.coAwait_final (hs : s.Inv) (hf : s.handle t = some (some f))
    (hfinal : s.point f = .final) : (s.coAwait a t).Inv := by
  rw [coAwait, hf, Option.getD_some, awaitReady, if_pos (decide_eq_true hfinal)]
  exact hs.awaitResume hf hfinal

theorem detach_initial (hf : s.handle t = some (some f)) (hinitial : s.point f = .initial) :
    s.detach t
      = ((s.setPromise f { s.promise f with detached := true }).setHandle t (some none)).setPoint
          f .running := by
  simp only [detach, hf, Option.getD_some]
  refine resume_initial ?_
  rw [point_setHandle, point_setPromise, hinitial]

/-- **A task that was not started is detached**: its coroutine runs, and belongs to no one. -/
theorem Inv.detach_initial (hs : s.Inv) (hf : s.handle t = some (some f))
    (hinitial : s.point f = .initial) : (s.detach t).Inv := by
  rw [Tasks.detach_initial hf hinitial]
  exact {
    faults := hs.faults
    unique := fun x y g hx hy => by
      have hunique := hs.unique x y g
      grind
    owned := fun x g hx => by
      have howned := hs.owned x g
      have hunique := hs.unique x t f
      grind
    awaiting := fun c x hc => by
      have hawaiting := hs.awaiting c x
      have hunique := hs.unique x t f
      grind [CoroutinePoint.underway]
    continues := fun g c hg hdetached hcontinuation => by
      have hcontinues := hs.continues g c
      grind [CoroutinePoint.underway]
    stored := fun g hg => by
      have hstored := hs.stored g
      grind }

/-! ## The end of a body -/

/-- The coroutine of a body that ended, at its final suspend point. -/
def ended (s : Tasks ν υ ξ) (a : ℕ) (o : Outcome υ ξ) : Tasks ν υ ξ :=
  (s.setPromise a ((s.promise a).store o)).setPoint a .final

omit [DecidableEq ν] in
@[grind =] theorem point_ended (s : Tasks ν υ ξ) (a g : ℕ) (o : Outcome υ ξ) :
    (s.ended a o).point g = if g = a then .final else s.point g := by
  rw [ended, point_setPoint, point_setPromise]

omit [DecidableEq ν] in
@[grind =] theorem promise_ended (s : Tasks ν υ ξ) (a g : ℕ) (o : Outcome υ ξ) :
    (s.ended a o).promise g = if g = a then (s.promise a).store o else s.promise g := by
  rw [ended, promise_setPoint, promise_setPromise]

omit [DecidableEq ν] in
@[grind =] theorem handle_ended (s : Tasks ν υ ξ) (a : ℕ) (o : Outcome υ ξ) (t : ν) :
    (s.ended a o).handle t = s.handle t := rfl

omit [DecidableEq ν] in
/-- A detached coroutine destroys itself. -/
theorem Inv.complete_detached (hs : s.Inv) (hdetached : (s.promise a).detached = true)
    (o : Outcome υ ξ) :
    ((s.ended a o).setPoint a .destroyed).Inv where
  faults := hs.faults
  unique := hs.unique
  owned x g hx := by
    have howned := hs.owned x g
    grind
  awaiting c x hc := by
    have hawaiting := hs.awaiting c x
    have howned := hs.owned x a
    grind
  continues g c hg hdetached' hcontinuation := by
    have hcontinues := hs.continues g c
    grind [CoroutinePoint.underway]
  stored g hg := by
    have hstored := hs.stored g
    grind

omit [DecidableEq ν] in
/-- A coroutine that no one awaits comes to its end. -/
theorem Inv.complete_alone (hs : s.Inv) (ha : s.point a = .running)
    (hcontinuation : (s.promise a).continuation = none) (o : Outcome υ ξ) :
    (s.ended a o).Inv where
  faults := hs.faults
  unique := hs.unique
  owned x g hx := by
    have howned := hs.owned x g
    grind [Async.Promise.store_detached]
  awaiting c x hc := by
    have hawaiting := hs.awaiting c x
    grind
  continues g c hg hdetached hcontinuation' := by
    have hcontinues := hs.continues g c
    grind [CoroutinePoint.underway]
  stored g hg := by
    have hstored := hs.stored g
    grind [outcome_store]

omit [DecidableEq ν] in
/-- **A coroutine comes to its end, and the one that awaits it goes on.** -/
theorem Inv.complete_awaited (hs : s.Inv) (ha : s.point a = .running)
    (hcontinuation : (s.promise a).continuation = some c) (hc : s.point c = .awaiting t)
    (ht : s.handle t = some (some a)) (o : Outcome υ ξ) :
    ((s.ended a o).setPoint c .running).Inv where
  faults := hs.faults
  unique := hs.unique
  owned x g hx := by
    have howned := hs.owned x g
    grind [Async.Promise.store_detached]
  awaiting d x hd := by
    -- another coroutine awaits another object, whose coroutine is not `a`
    have hawaiting := hs.awaiting d x
    grind [CoroutinePoint.underway]
  continues g d hg hdetached hcontinuation' := by
    have hcontinues := hs.continues g d
    have hunique := hs.unique t
    grind [CoroutinePoint.underway]
  stored g hg := by
    have hstored := hs.stored g
    grind [outcome_store]

theorem Inv.complete (hs : s.Inv) (ha : s.point a = .running)
    (hproper : (s.promise a).detached = false →
      ∀ c, (s.promise a).continuation = some c → s.point c ≠ .destroyed)
    (o : Outcome υ ξ) : (s.complete a o).Inv := by
  have hpromise : (s.ended a o).promise a = (s.promise a).store o := by
    rw [promise_ended, if_pos rfl]
  have hfinal : (s.ended a o).point a = .final := by
    rw [point_ended, if_pos rfl]
  show ((s.ended a o).finalSuspend a).Inv
  rw [finalSuspend, hpromise, Async.Promise.store_detached, Async.Promise.store_continuation]
  split
  · rename_i hdetached
    rw [destroy, hfinal]
    exact hs.complete_detached hdetached o
  · rename_i hdetached
    split
    · rename_i hcontinuation
      exact hs.complete_alone ha hcontinuation o
    · rename_i c hcontinuation
      rw [Bool.not_eq_true] at hdetached
      have hunderway : (s.point a).underway = true := by
        rw [ha]
        rfl
      obtain ⟨t, hc, ht⟩ := (hs.continues a c hunderway hdetached hcontinuation).resolve_left
        (hproper hdetached c hcontinuation)
      have hca : c ≠ a := by
        rintro rfl
        cases hc.symm.trans ha
      rw [resume, point_ended, if_neg hca, hc]
      refine (hs.complete_awaited ha hcontinuation hc ht o).awaitResume ht ?_
      rw [point_setPoint, if_neg hca.symm, hfinal]

/-! ## Runs -/

/-- **One step.** -/
theorem Inv.step (hs : s.Inv) {label : Label ν υ ξ} (hproper : s.Proper label)
    (h : s.step label = some s') : s'.Inv := by
  cases label with
  | construct t =>
    obtain ⟨ht, h⟩ := Option.ite_none_right_eq_some.mp h
    cases h
    exact hs.setHandle (by simp [ht]) (by simp)
  | call t f =>
    obtain ⟨⟨ht, hf⟩, h⟩ := Option.ite_none_right_eq_some.mp h
    cases h
    exact hs.call hf ht
  | moveConstruct t u =>
    obtain ⟨⟨ht, -⟩, h⟩ := Option.ite_none_right_eq_some.mp h
    cases h
    exact hs.take (by simp [ht]) hproper
  | moveAssign t u =>
    obtain ⟨-, h⟩ := Option.ite_none_right_eq_some.mp h
    cases h
    exact hs.moveAssign hproper
  | drop t =>
    obtain ⟨-, h⟩ := Option.ite_none_right_eq_some.mp h
    cases h
    exact hs.release hproper.1 hproper.2 (by simp)
  | coAwait a t =>
    obtain ⟨⟨ha, -⟩, h⟩ := Option.ite_none_right_eq_some.mp h
    cases h
    obtain ⟨f, hf, hinitial | hfinal⟩ := hproper
    · exact hs.coAwait_initial ha hf hinitial
    · exact hs.coAwait_final hf hfinal
  | detach t =>
    obtain ⟨-, h⟩ := Option.ite_none_right_eq_some.mp h
    cases h
    obtain ⟨hempty, -⟩ | ⟨f, hf⟩ := s.handle_cases t
    · rw [detach, hempty]
      exact hs
    · exact hs.detach_initial hf (hproper f hf)
  | enter a =>
    obtain ⟨ha, h⟩ := Option.ite_none_right_eq_some.mp h
    cases h
    exact hs.enter ha
  | suspend a =>
    obtain ⟨ha, h⟩ := Option.ite_none_right_eq_some.mp h
    cases h
    exact hs.setPoint_underway (.inl ha) (.inr rfl)
  | wakeUp a =>
    obtain ⟨ha, h⟩ := Option.ite_none_right_eq_some.mp h
    cases h
    exact hs.setPoint_underway (.inr ha) (.inl rfl)
  | complete a o =>
    obtain ⟨ha, h⟩ := Option.ite_none_right_eq_some.mp h
    cases h
    exact hs.complete ha hproper o

/-- **The operations of tasks are safe where they are used properly.** In every run whose steps
meet the condition no operation does what it may not do. Two parts of the condition cannot be
dropped in any state: to await an empty task is to use the promise of an empty handle, and to
detach one that is done is to resume it at its final suspend point. -/
theorem faultless_of_proper :
    (∀ s : Tasks ν υ ξ, machine.ReachableBy Proper s → s.faults = [])
    ∧ (∀ (s : Tasks ν υ ξ) (a : ℕ) (t : ν), s.point a = .running → s.handle t = some none →
      s.step (.coAwait a t) = some (s.fault .promiseOfEmpty))
    ∧ ∀ (s : Tasks ν υ ξ) (t : ν) (f : ℕ), s.handle t = some (some f) → s.point f = .final →
      ∃ s', s.step (.detach t) = some s' ∧ .resumedFinished ∈ s'.faults := by
  refine ⟨fun s hs => ?_, fun s a t ha ht => ?_, fun s t f ht hf => ?_⟩
  · have hinv : s.Inv :=
      hs.invariant inv_new (fun _ _ _ _ hs hproper hstep => hs.step hproper hstep)
    exact hinv.faults
  · simp [step, ha, ht, coAwait, awaitReady, awaitResume]
  · refine ⟨s.detach t, if_pos (by simp [ht]), ?_⟩
    have hfinal : ((s.setPromise f { s.promise f with detached := true }).setHandle t
        (some none)).point f = .final := by
      rw [point_setHandle, point_setPromise, hf]
    simp only [detach, ht, Option.getD_some, resume, hfinal]
    exact List.mem_append_right _ (List.mem_singleton_self _)

/-- A task is awaited twice, the second time when it is done, and another one detached. -/
def awaitedTwice : List (Label Bool ℕ Unit) :=
  [.call true 0, .enter 1, .coAwait 1 true, .complete 0 (.value 5), .coAwait 1 true,
    .call false 2, .detach false, .complete 2 (.value 6)]

/-- **Tasks that are used properly.** -/
theorem faultless_of_proper_awaitedTwice :
    ∃ s, machine.run new awaitedTwice = some s
      ∧ s.results = [(1, .value 5), (1, .value 5)] ∧ s.faults = [] := by
  have hreach : ∀ s, machine.run new awaitedTwice = some s → machine.ReachableBy Proper s := by
    intro s hrun
    refine Machine.ReachableBy.init.run_along (.cons ?_ rfl (.cons ?_ rfl (.cons ?_ rfl
      (.cons ?_ rfl (.cons ?_ rfl (.cons ?_ rfl (.cons ?_ rfl (.cons ?_ rfl ?_)))))))) hrun
    · trivial
    · trivial
    · exact ⟨0, rfl, .inl rfl⟩
    · intro _ c hc
      cases hc
      exact (by decide : CoroutinePoint.awaiting true ≠ .destroyed)
    · exact ⟨0, rfl, .inr rfl⟩
    · trivial
    · intro f hf
      cases hf
      rfl
    · exact fun hdetached => nomatch hdetached
    · trivial
  exact ⟨_, rfl, rfl, faultless_of_proper.1 _ (hreach _ rfl)⟩

/-- **An empty task that is awaited, and one that is done and detached.** The first was default
constructed, the second detached before; the third has been awaited. -/
theorem emptyAwaited_faults :
    (∃ s, machine.run (new : Tasks Bool ℕ Unit)
        [.construct true, .enter 0, .coAwait 0 true] = some s ∧ s.faults = [.promiseOfEmpty])
      ∧ (∃ s, machine.run (new : Tasks Bool ℕ Unit)
        [.call true 0, .detach true, .complete 0 (.value 5), .enter 1, .coAwait 1 true] = some s
          ∧ s.faults = [.promiseOfEmpty])
      ∧ ∃ s, machine.run (new : Tasks Bool ℕ Unit)
        [.call true 0, .enter 1, .coAwait 1 true, .complete 0 (.value 5), .detach true] = some s
          ∧ s.faults = [.resumedFinished] :=
  ⟨⟨_, rfl, rfl⟩, ⟨_, rfl, rfl⟩, _, rfl, rfl⟩

end Tasks

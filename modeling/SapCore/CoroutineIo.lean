import SapCore.CoroutineRefinement
import SapCore.ExecutorAccounting
import SapCore.ExecutorQueue

/-!
# Coroutines that wait for I/O

A coroutine that awaits an `IoAwaiter` is handed to the executor, which holds it
(`suspendedIn`) until the loop takes it from the ready queue. In between the executor does
many things – it takes events from the reactor, it calls the callbacks of a stop – and none
of them changes which coroutines it holds (`Keeps`). So a thread that waits for I/O waits
until the loop resumes it, and then gets the result that `await_resume` returns.
-/

namespace Executor

variable {α τ κ η : Type} [DecidableEq α] [DecidableEq τ] [DecidableEq κ] [DecidableEq η]
  {setup : Setup α τ η} {s s₁ : Executor α τ κ}

/-- An event that suspends and resumes nobody. -/
theorem keeps_step {event : Event α τ κ} (hstep : s.step setup event = some s₁)
    (hevent : (∃ tokens, event = .trigger tokens) ∨ (∃ t, event = .requestStop t)
      ∨ event = .turn ∨ ∃ a, event = .destroy a) : Keeps s s₁ := by
  cases step_cases hstep with
  | turn => exact keeps_turn s _
  | trigger => exact keeps_enqueueAll s _
  | requestStop => exact keeps_requestStop s _
  | destroy => exact keeps_destroy s _
  | coAwait => simp at hevent
  | resume => simp at hevent
  | schedule => simp at hevent

/-- **The ready queue has what was pushed for awaiters**, where nothing is scheduled
otherwise. -/
theorem owned_step {event : Event α τ κ} (hstep : s.step setup event = some s₁)
    (hevent : ∀ h, event ≠ .schedule h) (howned : ∀ entry ∈ s.ready, entry.2 ≠ none) :
    ∀ entry ∈ s₁.ready, entry.2 ≠ none := by
  cases step_cases hstep with
  | turn => exact (keeps_turn s _).owned howned
  | trigger => exact (keeps_enqueueAll s _).owned howned
  | requestStop => exact (keeps_requestStop s _).owned howned
  | destroy => exact (keeps_destroy s _).owned howned
  | @coAwait a h add =>
    cases hready : s.awaitReady setup a with
    | true =>
      rw [coAwait_of_ready hready]
      exact Keeps.owned ⟨_, queues_awaitResume s a⟩ howned
    | false => exact (keeps_coAwait hready add).owned howned
  | resume =>
    obtain ⟨h, owner, hready, -⟩ := resume_of_step hstep
    rw [hready] at howned
    exact fun entry hentry => howned entry (List.mem_cons_of_mem _ hentry)
  | schedule => exact absurd rfl (hevent _)

end Executor

namespace Coroutines

variable {σ ω τ η α υ ξ : Type} [DecidableEq α] [DecidableEq τ] [DecidableEq η]
  {setup : Setup α τ η} {prog : σ → Instr σ ω τ η υ ξ} {c : Runtime σ ω α τ υ ξ}
  {A : Threads σ ω υ ξ} {L : Layout σ υ ξ} {busy : Set ℕ} {t r : ℕ} {s : σ} {a : α}
  {f : Frame σ α υ ξ} {next : AwaitResult → σ}

/-! ## Awaiting -/

/-- A coroutine awaits an awaiter that is ready, and goes on. -/
theorem Sim.awaitIo_ready (hS : Sim setup prog c A L {t}) (hmain : Stacked c.callers)
    (he : Executing c A L t r s f) (hinstr : prog s = .io (setup.handle a) (setup.token a) next)
    (hready : c.executor.awaitReady setup a = true) (add : Option AddError)
    (hstep : c.executor.step setup (.coAwait a r add)
      = some (c.executor.coAwait setup a r add)) :
    ∃ c' A' L' busy', c.awaitIo setup r a add next = some c'
      ∧ c.executor.step setup (.coAwait a r add) = some c'.executor
      ∧ Threads.Steps prog A (c.input setup (.await a add) c') A'
      ∧ Sim setup prog c' A' L' busy' := by
  rw [Executor.coAwait_of_ready hready] at hstep
  have hphase : ((c.executor.awaitResume setup a).awaiter a).phase
      = .resumed (c.executor.awaitResult setup a) := by
    simp [Executor.awaitResume, Executor.modify]
  refine ⟨{ c with
      executor := c.executor.awaitResume setup a
      control := .exec r (next (c.executor.awaitResult setup a)) },
    A.set t (.running (next (c.executor.awaitResult setup a)) (L.cont r)), L, {t}, ?_, hstep,
    .inr ⟨.answer t (c.executor.awaitResult setup a), ?_, ?_⟩, ?_,
    .thread (.exec (f := f) rfl { he with thread := Function.update_self _ _ _ }), hS.trace,
    hmain⟩
  · unfold Runtime.awaitIo
    rw [hstep, Option.bind_some, hphase]
  · rw [Threads.step_answer he.thread, hinstr]
    rfl
  · rw [Threads.input_answer he.thread hinstr]
    exact (Runtime.result_of_phase setup hphase).symm
  · rw [show ({ c with
        executor := c.executor.awaitResume setup a
        control := .exec r (next (c.executor.awaitResult setup a)) } :
          Runtime σ ω α τ υ ξ).executor.suspendedIn = c.executor.suspendedIn from
      (Executor.queues_awaitResume c.executor a).suspendedIn]
    exact hS.rel.set_thread (he.root hS.rel) rfl he.called_leaf _

/-- **A coroutine awaits an awaiter that is not ready**, and the executor holds it. -/
theorem Sim.awaitIo_suspends (hS : Sim setup prog c A L {t}) (hmain : Stacked c.callers)
    (he : Executing c A L t r s f) (hinstr : prog s = .io (setup.handle a) (setup.token a) next)
    (hready : c.executor.awaitReady setup a = false) (add : Option AddError)
    (hstep : c.executor.step setup (.coAwait a r add)
      = some (c.executor.coAwait setup a r add)) :
    ∃ c' A' L' busy', c.awaitIo setup r a add next = some c'
      ∧ c.executor.step setup (.coAwait a r add) = some c'.executor
      ∧ Threads.Steps prog A (c.input setup (.await a add) c') A'
      ∧ Sim setup prog c' A' L' busy' := by
  have hR := hS.rel
  have hphase : ((c.executor.coAwait setup a r add).awaiter a).phase = .suspended := by
    rw [Executor.coAwait_awaiter hready, Function.update_self, Executor.suspended_phase]
  have hsuspended : (c.executor.coAwait setup a r add).suspendedIn
      = Function.update c.executor.suspendedIn r (some a) :=
    (Executor.keeps_coAwait hready add).suspendedIn
  have hok : (f.goTo (.awaitingIo a next)).Ok :=
    (hR.kept.ok he.frame).goTo (by rw [he.code]; rfl) (he.param hR) (by simp) (by simp)
  have hr := Function.update_self r (some (f.goTo (.awaitingIo a next))) c.frame
  have hwaiting := hR.set_task he.home he.leaf rfl (he.unheld hR) he.frame hok (he.param hR) rfl
    rfl rfl
  have hheld := hwaiting.others.suspend hwaiting.kept.tree he.home he.leaf rfl hr rfl
  refine ⟨(({ c with executor := c.executor.coAwait setup a r add } :
      Runtime σ ω α τ υ ξ).setFrame r (f.goTo (.awaitingIo a next))).go (.transfer none),
    A, L, ∅, ?_, hstep, .inl ⟨rfl, ?_⟩, ?_, .nobody rfl, hS.trace, hmain⟩
  · unfold Runtime.awaitIo
    rw [hstep, Option.bind_some, hphase, he.frame]
    rfl
  · exact Runtime.result_of_suspended setup hphase
  · rw [show ((({ c with executor := c.executor.coAwait setup a r add } :
        Runtime σ ω α τ υ ξ).setFrame r (f.goTo (.awaitingIo a next))).go
          (.transfer none)).executor.suspendedIn
        = Function.update c.executor.suspendedIn r (some a) from hsuspended]
    refine { hwaiting with others := hheld.settle (fun u _ hu _ => ?_) }
    obtain rfl := Set.mem_singleton_iff.mp hu
    refine .io (f := f.goTo (.awaitingIo a next)) ?_ rfl ?_ hinstr ?_
    · rw [he.leaf]
      exact hr
    · rw [he.leaf]
      exact Function.update_self _ _ _
    · rw [he.leaf]
      exact he.thread

variable (setup) in
/-- **A coroutine awaits I/O.** -/
theorem Sim.awaitIo (hS : Sim setup prog c A L busy) (hcontrol : c.control = .exec r s)
    (hinstr : prog s = .io (setup.handle a) (setup.token a) next)
    (hdraining : c.executor.draining = none) (hidle : (c.executor.awaiter a).phase = .idle)
    (add : Option AddError) :
    ∃ c' A' L' busy', c.awaitIo setup r a add next = some c'
      ∧ c.executor.step setup (.coAwait a r add) = some c'.executor
      ∧ Threads.Steps prog A (c.input setup (.await a add) c') A'
      ∧ Sim setup prog c' A' L' busy' := by
  have hmain : Stacked c.callers := by
    have hattended := hS.attended
    rw [hcontrol] at hattended
    exact hattended
  obtain ⟨t, f, rfl, he⟩ := hS.executing hcontrol
  have hstep : c.executor.step setup (.coAwait a r add)
      = some (c.executor.coAwait setup a r add) := by
    unfold Executor.step
    rw [hdraining]
    exact if_neg (by simp [hidle, (he.unheld hS.rel).suspended])
  cases hready : c.executor.awaitReady setup a with
  | true => exact hS.awaitIo_ready hmain he hinstr hready add hstep
  | false => exact hS.awaitIo_suspends hmain he hinstr hready add hstep

/-! ## The loop -/

/-- **The loop resumes the coroutine at the front of the ready queue**: its thread goes on with
the result of its I/O. -/
theorem Sim.loop (hS : Sim setup prog c A L busy) (hcontrol : c.control = .idle)
    (hdraining : c.executor.draining = none) (hbooks : Executor.Books setup c.executor)
    (howned : ∀ entry ∈ c.executor.ready, entry.2 ≠ none) (hready : c.executor.ready ≠ []) :
    ∃ c' A' L' busy', c.resumeFront setup = some c'
      ∧ c.executor.step setup .resume = some c'.executor
      ∧ Threads.Steps prog A (c.input setup .loop c') A' ∧ Sim setup prog c' A' L' busy' := by
  obtain ⟨⟨h, owner⟩, rest, hfront⟩ := List.exists_cons_of_ne_nil hready
  obtain ⟨a, rfl⟩ := Option.ne_none_iff_exists'.mp
    (howned (h, owner) (by rw [hfront]; exact List.mem_cons_self))
  have hin := (hbooks.front hfront).2.2.2
  have hstep : c.executor.step setup .resume
      = some (c.executor.resumeFront setup h (some a) rest) := by
    unfold Executor.step
    rw [hdraining, hfront]
  rw [Executor.resumeFront_owner hin] at hstep
  have hempty := hS.busy_eq_empty (.inl hcontrol)
  subst hempty
  have hR := hS.rel
  obtain ⟨t, s, next, f, hhome, hleaf, hf, hcode, hinstr, hthread⟩ :=
    hR.waiter hin (fun t _ _ => Set.notMem_empty t)
  have hcallers : c.callers = [] := by
    have hattended := hS.attended
    rw [hcontrol] at hattended
    exact hattended
  have hwoken := hR.others.wake hR.kept.tree hhome
  rw [insert_empty_eq] at hwoken
  have hunheld : Unheld c.frame c.callers (Function.update c.executor.suspendedIn h none) L h := {
    called := fun s' hs' => by
      rw [hcallers] at hs'
      cases hs'
    awaited := fun h' g haw => by
      obtain ⟨-, -, -, f', next', hf', hcode'⟩ := hwoken.awaited haw
      rw [hf] at hf'
      cases hf'
      rw [hcode] at hcode'
      cases hcode'
    suspended := Function.update_self _ _ _ }
  have hnone := (hR.kept.ok hf).awaitingIo hcode
  have hok : (f.goTo .running).Ok :=
    (hR.kept.ok hf).goTo (by rw [hcode]; rfl) hnone (by simp) (by simp)
  have hwoken' : Rel setup prog c.frame c.next c.callers
      (Function.update c.executor.suspendedIn h none) A.thread L {t} ∅ :=
    ⟨hR.kept, hwoken, hR.numbers⟩
  have hgone := hwoken'.set_task hhome hleaf rfl hunheld hf hok hnone rfl rfl rfl
  have hcalled : ∀ s', .coroutine (L.leaf t) s' ∉ c.callers := by
    rw [hleaf]
    exact hunheld.called
  have hthreads := hgone.set_thread (hR.kept.tree.root hhome) rfl hcalled
    (.running (next (c.executor.awaitResult setup a)) (L.cont h))
  have hphase : (((c.executor.deregister setup a).finish a h rest
      (c.executor.awaitResult setup a)).awaiter a).phase
      = .resumed (c.executor.awaitResult setup a) := by
    simp [Executor.finish]
  have hsuspended : ((c.executor.deregister setup a).finish a h rest
      (c.executor.awaitResult setup a)).suspendedIn
      = Function.update c.executor.suspendedIn h none := by
    show Function.update (c.executor.deregister setup a).suspendedIn h none = _
    rw [(Executor.queues_deregister c.executor a).suspendedIn]
  refine ⟨{ c.setFrame h (f.goTo .running) with
      executor := (c.executor.deregister setup a).finish a h rest (c.executor.awaitResult setup a)
      control := .exec h (next (c.executor.awaitResult setup a))
      callers := .main :: c.callers },
    A.set t (.running (next (c.executor.awaitResult setup a)) (L.cont h)), L, {t}, ?_, hstep,
    .inr ⟨.answer t (c.executor.awaitResult setup a), ?_, ?_⟩, ?_,
    .thread (.exec (f := f.goTo .running) rfl ⟨hhome, hleaf, Function.update_self _ _ _, rfl, ?_,
      Function.update_self _ _ _⟩), hS.trace, hcallers⟩
  · unfold Runtime.resumeFront
    rw [hfront, hstep]
    simp [hf, hcode, hphase]
  · rw [Threads.step_answer hthread, hinstr]
    rfl
  · rw [Threads.input_answer hthread hinstr]
    unfold Runtime.input
    rw [hfront]
    exact (Runtime.result_of_phase setup hphase).symm
  · refine ⟨hthreads.kept, ?_, hthreads.numbers⟩
    show Others setup prog _ _ ((c.executor.deregister setup a).finish a h rest
      (c.executor.awaitResult setup a)).suspendedIn _ _ _
    rw [hsuspended]
    exact hthreads.others.push_main
  · intro s' hs'
    obtain hs' | hs' := List.mem_cons.mp hs'
    · cases hs'
    · exact hunheld.called s' hs'

/-! ## The other events -/

omit [DecidableEq α] [DecidableEq τ] [DecidableEq η] in
/-- An event that leaves the coroutines with whoever holds them. -/
theorem Sim.event (hS : Sim setup prog c A L busy) {e : Executor α τ ℕ}
    (hkeeps : Executor.Keeps c.executor e) : Sim setup prog { c with executor := e } A L busy where
  rel := by
    show Rel setup prog c.frame c.next c.callers e.suspendedIn A.thread L busy ∅
    rw [hkeeps.suspendedIn]
    exact hS.rel
  turn := by
    cases hS.turn with
    | idle h => exact .idle h
    | nobody h => exact .nobody h
    | thread hcurrent =>
      cases hcurrent with
      | exec h he =>
        exact .thread (.exec h ⟨he.home, he.leaf, he.frame, he.code, he.called, he.thread⟩)
      | start h hhome hleaf hf hcode hthread =>
        exact .thread (.start h hhome hleaf hf hcode hthread)
      | startRunner h hhome hleaf hf hcode hcontinuation hg hstart hheld hx hparams hthread =>
        exact .thread (.startRunner h hhome hleaf hf hcode hcontinuation hg hstart hheld hx hparams
          hthread)
      | returned h hhome hleaf hne hf hfinal hnone htaken houtcome hcontinuation hinstr hthread =>
        exact .thread (.returned h hhome hleaf hne hf hfinal hnone htaken houtcome hcontinuation
          hinstr hthread)
      | joined h hhome hleaf hf hcode hinstr hthread hg hfinal hparam htaken houtcome hdone =>
        exact .thread (.joined h hhome hleaf hf hcode hinstr hthread hg hfinal hparam htaken
          houtcome hdone)
  trace := hS.trace
  attended := hS.attended

end Coroutines

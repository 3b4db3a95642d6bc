import SapCore.CoroutineSteps

/-!
# The runtime runs the threads

`Sim` relates a state of the runtime and a state of the threads: the frames are those of the
threads, and the thread that has control, if there is one, is where the runtime is
(`Current`). Every step of the runtime that can be taken – and the lemmas say of each that
it can, so that nothing is done that is undefined – is a step of the threads, or none.

What happens between the end of a task and the next statement of the coroutine that awaited
it is one step of the threads, the return; it is taken when the outcome is taken out of the
promise.
-/

namespace Coroutines

variable {σ ω τ η α υ ξ : Type}

/-- The loop of the executor, or the program around it, called `resume` first, and
coroutines after that. -/
def Stacked : List (Caller σ) → Prop
  | [] => False
  | .main :: callers => callers = []
  | .coroutine _ _ :: callers => Stacked callers

/-- No call of `resume` is open while nobody has control. -/
def Attended : Control σ → List (Caller σ) → Prop
  | .idle, callers => callers = []
  | _, callers => Stacked callers

section

variable (setup : Setup α τ η) (prog : σ → Instr σ ω τ η υ ξ) (c : Runtime σ ω α τ υ ξ)
  (A : Threads σ ω υ ξ) (L : Layout σ υ ξ)

/-- A thread is at a point, and its last coroutine is running. -/
structure Executing (t r : ℕ) (s : σ) (f : Frame σ α υ ξ) : Prop where
  home : L.home r = some t
  leaf : L.leaf t = r
  frame : c.frame r = some f
  code : f.code = .running
  called : ∀ s, .coroutine r s ∉ c.callers
  thread : A.thread t = some (.running s (L.cont r))

/-- **The thread that has control.** -/
inductive Current (t : ℕ) : Prop
  | exec {r : ℕ} {s : σ} {f : Frame σ α υ ξ} (hcontrol : c.control = .exec r s)
      (hexec : Executing c A L t r s f)
  /-- Control is transferred to a task that begins. -/
  | start {r : ℕ} {s : σ} {f : Frame σ α υ ξ} (hcontrol : c.control = .transfer (some r))
      (hhome : L.home r = some t) (hleaf : L.leaf t = r) (hframe : c.frame r = some f)
      (hcode : f.code = .start s) (hthread : A.thread t = some (.running s (L.cont r)))
  /-- Control is transferred to a runner that begins. -/
  | startRunner {x : ℕ} {s : σ} {f g : Frame σ α υ ξ} (hcontrol : c.control = .transfer (some t))
      (hhome : L.home t = some t) (hleaf : L.leaf t = t) (hframe : c.frame t = some f)
      (hcode : f.code = .startRunner x) (hcontinuation : f.promise.continuation = none)
      (htask : c.frame x = some g) (hstart : g.code = .start s) (hheld : g.promise.detached = false)
      (hx : L.home x = none) (hparam : ∀ p q, c.frame p = some q → q.param = some x → p = t)
      (hthread : A.thread t = some (.running s []))
  /-- A task ended, and control is transferred to the coroutine that awaits it. -/
  | returned {x p : ℕ} {s : σ} {o : Outcome υ ξ} {f : Frame σ α υ ξ}
      (hcontrol : c.control = .transfer (some p)) (hhome : L.home x = some t)
      (hleaf : L.leaf t = x) (hne : x ≠ t) (hframe : c.frame x = some f) (hcode : f.code = .final)
      (hnone : f.param = none) (htaken : f.taken = false)
      (houtcome : f.promise.outcome = some o) (hcontinuation : f.promise.continuation = some p)
      (hinstr : prog s = .coReturn o) (hthread : A.thread t = some (.running s (L.cont x)))
  /-- A runner ended, and control is transferred to the coroutine that awaits its handle. -/
  | joined {r h : ℕ} {s : σ} {o : Outcome υ ξ} {f g : Frame σ α υ ξ} {next : Outcome υ ξ → σ}
      (hcontrol : c.control = .transfer (some r)) (hhome : L.home r = some t)
      (hleaf : L.leaf t = r) (hframe : c.frame r = some f) (hcode : f.code = .awaitingSpawn h next)
      (hinstr : prog s = .join h next) (hthread : A.thread t = some (.running s (L.cont r)))
      (hrunner : c.frame h = some g) (hfinal : g.code = .final) (hparam : g.param ≠ none)
      (htaken : g.taken = false) (houtcome : g.promise.outcome = some o)
      (hdone : A.thread h = some (.done o))

/-- **Whose turn it is.** -/
inductive Turn : Set ℕ → Prop
  | idle (hcontrol : c.control = .idle) : Turn ∅
  | nobody (hcontrol : c.control = .transfer none) : Turn ∅
  | thread {t : ℕ} (hcurrent : Current prog c A L t) : Turn {t}

/-- **The runtime and the threads are in the same state.** -/
structure Sim (busy : Set ℕ) : Prop where
  rel : Rel setup prog c.frame c.next c.callers c.executor.suspendedIn A.thread L busy ∅
  turn : Turn prog c A L busy
  trace : A.trace = c.trace
  attended : Attended c.control c.callers

/-- A step of the threads with some input, or none without. -/
def Threads.Steps (input : Option (Input σ τ η)) (A' : Threads σ ω υ ξ) : Prop :=
  (A' = A ∧ input = none)
    ∨ ∃ label, A.step prog label = some A' ∧ A.input prog label = input

/-- **A step of the runtime can be taken, and is one of the threads or none**, without input;
it does not concern the executor. -/
def Goes (result : Option (Runtime σ ω α τ υ ξ)) : Prop :=
  ∃ c' A' L' busy', result = some c' ∧ c'.executor = c.executor ∧ Threads.Steps prog A none A'
    ∧ Sim setup prog c' A' L' busy'

end

variable {setup : Setup α τ η} {prog : σ → Instr σ ω τ η υ ξ} {c : Runtime σ ω α τ υ ξ}
  {A : Threads σ ω υ ξ} {L : Layout σ υ ξ} {busy : Set ℕ} {t r h x p : ℕ} {s : σ}
  {f g : Frame σ α υ ξ} {o : Outcome υ ξ}

namespace Executing

theorem unheld (he : Executing c A L t r s f)
    (hR : Rel setup prog c.frame c.next c.callers c.executor.suspendedIn A.thread L busy ∅) :
    Unheld c.frame c.callers c.executor.suspendedIn L r :=
  hR.others.unheld_of_running he.frame he.code he.called

theorem param (he : Executing c A L t r s f)
    (hR : Rel setup prog c.frame c.next c.callers c.executor.suspendedIn A.thread L busy ∅) :
    f.param = none :=
  (hR.kept.ok he.frame).running he.code

theorem root (he : Executing c A L t r s f)
    (hR : Rel setup prog c.frame c.next c.callers c.executor.suspendedIn A.thread L busy ∅) :
    L.home t = some t :=
  hR.kept.tree.root he.home

theorem called_leaf (he : Executing c A L t r s f) (s' : σ) :
    .coroutine (L.leaf t) s' ∉ c.callers := by
  rw [he.leaf]
  exact he.called s'

end Executing

/-- Where a coroutine runs, its thread has control. -/
theorem Sim.executing (hS : Sim setup prog c A L busy) (hcontrol : c.control = .exec r s) :
    ∃ t f, busy = {t} ∧ Executing c A L t r s f := by
  cases hS.turn with
  | idle h => cases hcontrol.symm.trans h
  | nobody h => cases hcontrol.symm.trans h
  | @thread t hcurrent =>
    cases hcurrent with
    | exec h he =>
      cases hcontrol.symm.trans h
      exact ⟨t, _, rfl, he⟩
    | start h => cases hcontrol.symm.trans h
    | startRunner h => cases hcontrol.symm.trans h
    | returned h => cases hcontrol.symm.trans h
    | joined h => cases hcontrol.symm.trans h

/-- Where no coroutine is about to run, no thread has control. -/
theorem Sim.busy_eq_empty (hS : Sim setup prog c A L busy)
    (hcontrol : c.control = .idle ∨ c.control = .transfer none) : busy = ∅ := by
  have hnot : ∀ r s, c.control ≠ .exec r s ∧ c.control ≠ .transfer (some r) := by
    intro r s
    obtain h | h := hcontrol
    · simp [h]
    · simp [h]
  cases hS.turn with
  | idle => rfl
  | nobody => rfl
  | thread hcurrent =>
    cases hcurrent with
    | exec h => exact absurd h (hnot _ _).1
    | @start r s f h => exact absurd h (hnot r s).2
    | @startRunner x s f g h => exact absurd h (hnot _ s).2
    | @returned x p s o f h => exact absurd h (hnot p s).2
    | @joined r h s o f g next hc => exact absurd hc (hnot r s).2

/-! ## A coroutine runs -/

/-- An effect is performed. -/
theorem Sim.effect (hS : Sim setup prog c A L {t}) (hmain : Stacked c.callers)
    (he : Executing c A L t r s f) {w : ω} {next : σ}
    (hinstr : prog s = .effect w next) : Goes setup prog c A (c.exec r (prog s)) := by
  rw [hinstr]
  refine ⟨_, { A.set t (.running next (L.cont r)) with trace := A.trace ++ [w] }, L, {t}, rfl, rfl,
    .inr ⟨.act t, ?_, rfl⟩, ?_, .thread (.exec (f := f) rfl { he with thread := ?_ }), ?_, hmain⟩
  · rw [Threads.step_act he.thread, hinstr]
    rfl
  · exact hS.rel.set_thread (he.root hS.rel) rfl he.called_leaf _
  · exact Function.update_self _ _ _
  · show A.trace ++ [w] = c.trace ++ [w]
    rw [hS.trace]

/-- **A task is awaited**, which is created in place. -/
theorem Sim.coAwait (hS : Sim setup prog c A L {t}) (hmain : Stacked c.callers)
    (he : Executing c A L t r s f) {task : σ}
    {next : Outcome υ ξ → σ} (hinstr : prog s = .coAwait task next) :
    Goes setup prog c A (c.exec r (prog s)) := by
  have hR := hS.rel
  have hrx : r ≠ c.next := ne_of_lt (hR.kept.lt he.frame)
  have hstep : c.exec r (prog s) = some
      ((((c.create (.task task)).setFrame r (f.goTo (.awaiting c.next (.statement next)))).setFrame
        c.next ((Frame.task task).continueWith r)).go (.transfer (some c.next))) := by
    have htask : (c.create (.task task)).frame c.next = some (.task task) :=
      Function.update_self _ _ _
    have hr : (c.create (.task task)).frame r = some f :=
      (Function.update_of_ne hrx _ _).trans he.frame
    rw [hinstr]
    show (c.create (.task task)).await r c.next (.statement next) = _
    unfold Runtime.await
    rw [htask, hr]
    rfl
  have hcreated := hR.create (Frame.ok_task task) (fun x hx => by cases hx)
  have hr : Function.update c.frame c.next (some (Frame.task task)) r = some f :=
    (Function.update_of_ne hrx _ _).trans he.frame
  have hok : (f.goTo (.awaiting c.next (.statement next))).Ok :=
    (hR.kept.ok he.frame).goTo (by rw [he.code]; rfl) (he.param hR) (by simp) (by simp)
  have hawait := hcreated.await he.home he.leaf rfl
    (hcreated.others.unheld_of_running hr he.code he.called) hr hR.home_next
    (Function.update_self _ _ _) hok (fun hparam => absurd (he.param hR) hparam) rfl rfl (by simp)
    (fun p g hg hx => ?_) (.running task (next :: L.cont r))
  · refine ⟨_, A.set t (.running task (next :: L.cont r)), L.push t c.next (next :: L.cont r), {t},
      hstep, rfl, .inr ⟨.act t, ?_, rfl⟩, ?_,
      .thread (.start (f := (Frame.task task).continueWith r) rfl Layout.push_home_self
        Layout.push_leaf_self (Function.update_self _ _ _) rfl ?_), hS.trace, hmain⟩
    · rw [Threads.step_act he.thread, hinstr]
      rfl
    · exact hawait.unspare (Rel.notMem_insert_diff c.next)
    · rw [Layout.push_cont_self]
      exact Function.update_self _ _ _
  · by_cases hpn : p = c.next
    · subst hpn
      rw [Function.update_self] at hg
      cases hg
      cases hx
    · rw [Function.update_of_ne hpn] at hg
      exact absurd hx (hR.param_ne_next hg)

/-- A coroutine calls `resume`: its thread waits until that returns. -/
theorem Executing.park (he : Executing c A L t r s f)
    (hR : Rel setup prog c.frame c.next c.callers c.executor.suspendedIn A.thread L {t} ∅)
    (s' : σ) :
    Rel setup prog c.frame c.next (.coroutine r s' :: c.callers) c.executor.suspendedIn
      (Function.update A.thread t (some (.running s' (L.cont r)))) L ∅ ∅ := by
  have hthread := hR.set_thread (he.root hR) rfl he.called_leaf (.running s' (L.cont r))
  have hcalled := hthread.others.push_caller he.home he.leaf he.frame he.code he.called
    (Function.update_self _ _ _)
  refine { hthread with others := hcalled.settle (fun u _ hu _ => ?_) }
  obtain rfl := Set.mem_singleton_iff.mp hu
  refine .called (f := f) (s := s') ?_ he.code ?_ ?_
  · rw [he.leaf]
    exact he.frame
  · rw [he.leaf]
    exact List.mem_cons_self
  · rw [he.leaf]
    exact Function.update_self _ _ _

/-- A task is detached by whoever calls `resume` on it. -/
theorem sim_detach {back : Caller σ} (htrace : A.trace = c.trace)
    (hmain : Stacked (back :: c.callers))
    (hR : Rel setup prog c.frame c.next (back :: c.callers) c.executor.suspendedIn A.thread L ∅ ∅) :
    Sim setup prog (c.detach s back) (A.set c.next (.running s [])) (L.push c.next c.next [])
      {c.next} where
  rel := hR.detach s
  turn := .thread (.start (f := (Frame.task s).release) rfl Layout.push_home_self
    Layout.push_leaf_self (Function.update_self _ _ _) rfl (by
      rw [Layout.push_cont_self]
      exact Function.update_self _ _ _))
  trace := htrace
  attended := hmain

/-- A task is spawned by whoever calls `resume` on its runner. -/
theorem sim_spawn {back : ℕ → Caller σ} (htrace : A.trace = c.trace)
    (hmain : Stacked (back (c.next + 1) :: c.callers))
    (hR : Rel setup prog c.frame c.next (back (c.next + 1) :: c.callers) c.executor.suspendedIn
      A.thread L ∅ ∅) :
    Sim setup prog (c.spawn s back) (A.set (c.next + 1) (.running s []))
      (L.push (c.next + 1) (c.next + 1) []) {c.next + 1} := by
  have hne : c.next ≠ c.next + 1 := Nat.ne_of_lt (Nat.lt_succ_self c.next)
  refine ⟨hR.spawn s, .thread (.startRunner (x := c.next) (f := .runner c.next) (g := .task s) rfl
    Layout.push_home_self Layout.push_leaf_self (Function.update_self _ _ _) rfl rfl ?_ rfl rfl ?_
    (fun p q hq hqx => ?_) (Function.update_self _ _ _)), htrace, hmain⟩
  · exact (Function.update_of_ne hne _ _).trans (Function.update_self _ _ _)
  · exact (Layout.push_home_of_ne hne).trans hR.home_next
  · by_contra hpn
    have hq' := (Function.update_of_ne hpn _ _).symm.trans hq
    by_cases hpx : p = c.next
    · subst hpx
      have htask : (c.create (.task s)).frame c.next = some (.task s) := Function.update_self _ _ _
      rw [htask] at hq'
      cases hq'
      cases hqx
    · exact hR.param_ne_next ((Function.update_of_ne hpx _ _).symm.trans hq') hqx

theorem Sim.detach (hS : Sim setup prog c A L {t}) (hmain : Stacked c.callers)
    (he : Executing c A L t r s f) {task next : σ}
    (hinstr : prog s = .detach task next) : Goes setup prog c A (c.exec r (prog s)) := by
  refine ⟨c.detach task (.coroutine r next),
    (A.set t (.running next (L.cont r))).set c.next (.running task []), _, _, by rw [hinstr]; rfl,
    rfl, .inr ⟨.fork t c.next, ?_, rfl⟩,
    sim_detach hS.trace hmain (he.park hS.rel next)⟩
  rw [Threads.step_fork he.thread (hS.rel.thread_of_le (Nat.le_refl _)), hinstr]
  rfl

theorem Sim.spawn (hS : Sim setup prog c A L {t}) (hmain : Stacked c.callers)
    (he : Executing c A L t r s f) {task : σ}
    {next : ℕ → σ} (hinstr : prog s = .spawn task next) :
    Goes setup prog c A (c.exec r (prog s)) := by
  refine ⟨c.spawn task (fun h => .coroutine r (next h)),
    (A.set t (.running (next (c.next + 1)) (L.cont r))).set (c.next + 1) (.running task []), _, _,
    by rw [hinstr]; rfl, rfl, .inr ⟨.fork t (c.next + 1), ?_, rfl⟩,
    sim_spawn hS.trace hmain (he.park hS.rel (next (c.next + 1)))⟩
  rw [Threads.step_fork he.thread (hS.rel.thread_of_le (Nat.le_succ _)), hinstr]
  rfl

/-! ## Handles -/

/-- **A handle may be awaited**: it holds a runner, and no coroutine awaited it before. -/
def Runtime.Joinable (c : Runtime σ ω α τ υ ξ) (h : ℕ) : Prop :=
  ∃ g, c.frame h = some g ∧ g.param ≠ none ∧ g.promise.detached = false
    ∧ g.promise.continuation = none ∧ g.taken = false

instance (c : Runtime σ ω α τ υ ξ) (h : ℕ) : Decidable (c.Joinable h) :=
  decidable_of_iff (∃ g ∈ c.frame h, g.param ≠ none ∧ g.promise.detached = false
    ∧ g.promise.continuation = none ∧ g.taken = false) Iff.rfl

/-- **A handle may be dropped**: it holds a runner, and no coroutine is waiting for it. -/
def Runtime.Droppable (c : Runtime σ ω α τ υ ξ) (h : ℕ) : Prop :=
  ∃ g, c.frame h = some g ∧ g.param ≠ none ∧ g.promise.detached = false
    ∧ (g.code.done = false → g.promise.continuation = none)

instance (c : Runtime σ ω α τ υ ξ) (h : ℕ) : Decidable (c.Droppable h) :=
  decidable_of_iff (∃ g ∈ c.frame h, g.param ≠ none ∧ g.promise.detached = false
    ∧ (g.code.done = false → g.promise.continuation = none)) Iff.rfl

/-- The runner of a handle is not the coroutine that uses the handle. -/
theorem Executing.ne_runner (he : Executing c A L t r s f)
    (hR : Rel setup prog c.frame c.next c.callers c.executor.suspendedIn A.thread L busy ∅)
    (hg : c.frame h = some g) (hrunner : g.param ≠ none) : r ≠ h := by
  rintro rfl
  rw [he.frame] at hg
  cases hg
  exact hrunner (he.param hR)

/-- A runner that is done is not that of a thread that is running. -/
theorem Executing.ne_done (he : Executing c A L t r s f)
    (hR : Rel setup prog c.frame c.next c.callers c.executor.suspendedIn A.thread L busy ∅)
    (hg : c.frame h = some g) (hrunner : g.param ≠ none) (hfinal : g.code = .final) : h ≠ t := by
  rintro rfl
  have hleaf := hR.leaf_of_done hg hrunner hfinal
  exact he.ne_runner hR hg hrunner (he.leaf.symm.trans hleaf)

/-- **A handle whose runner is done is awaited.** -/
theorem Sim.join_done (hS : Sim setup prog c A L {t}) (hmain : Stacked c.callers)
    (he : Executing c A L t r s f)
    {next : Outcome υ ξ → σ} (hinstr : prog s = .join h next) (hg : c.frame h = some g)
    (hrunner : g.param ≠ none) (htaken : g.taken = false) (hfinal : g.code = .final) :
    Goes setup prog c A (c.exec r (prog s)) := by
  have hR := hS.rel
  have hbusy : h ∉ ({t} : Set ℕ) := he.ne_done hR hg hrunner hfinal
  obtain ⟨o, hthread, houtcome⟩ := hR.thread_of_done hg hrunner hfinal hbusy
  have hresult : g.result = some o := (Frame.result_eq htaken).trans houtcome
  have hstep : c.exec r (prog s)
      = some ((c.setFrame h { g with taken := true }).go (.exec r (next o))) := by
    rw [hinstr]
    show c.join r h next = _
    unfold Runtime.join Runtime.take
    rw [hg, he.frame]
    simp [hfinal, Code.done, hresult]
  have hok : ({ g with taken := true } : Frame σ α υ ξ).Ok :=
    (hR.kept.ok hg).congr rfl rfl (fun hdone => by
      rw [hfinal] at hdone
      cases hdone)
  have hnot : g.code.done ≠ false := by
    rw [hfinal]
    simp [Code.done]
  have htook := hR.set_runner hg hrunner hok rfl rfl
    (fun _ => ⟨rfl, rfl⟩) (fun hdone => absurd hdone hnot) (fun _ hdone => absurd hdone hnot)
  refine ⟨_, A.set t (.running (next o) (L.cont r)), L, {t}, hstep, rfl, .inr ⟨.act t, ?_, rfl⟩,
    htook.set_thread (he.root hR) rfl he.called_leaf _,
    .thread (.exec (f := f) rfl { he with frame := ?_, thread := Function.update_self _ _ _ }),
    hS.trace, hmain⟩
  · exact Threads.step_join he.thread hinstr hthread
  · exact (Function.update_of_ne (he.ne_runner hR hg hrunner) _ _).trans he.frame

/-- **A handle is awaited**: the coroutine goes on at once, or when the runner ends. -/
theorem Sim.join (hS : Sim setup prog c A L {t}) (hmain : Stacked c.callers)
    (he : Executing c A L t r s f)
    {next : Outcome υ ξ → σ} (hinstr : prog s = .join h next) (hjoin : c.Joinable h) :
    Goes setup prog c A (c.exec r (prog s)) := by
  obtain ⟨g, hg, hrunner, hheld, hcontinuation, htaken⟩ := hjoin
  have hR := hS.rel
  have hne := he.ne_runner hR hg hrunner
  cases hdone : g.code.done with
  | true => exact hS.join_done hmain he hinstr hg hrunner htaken (Code.done_iff.mp hdone)
  | false =>
    have hstep : c.exec r (prog s) = some (((c.setFrame r (f.goTo (.awaitingSpawn h next))).setFrame
        h (g.continueWith r)).go (.transfer none)) := by
      rw [hinstr]
      show c.join r h next = _
      unfold Runtime.join
      rw [hg, he.frame]
      simp [hdone]
    have hok : (f.goTo (.awaitingSpawn h next)).Ok :=
      (hR.kept.ok he.frame).goTo (by rw [he.code]; rfl) (he.param hR) (by simp) (by simp)
    have hsuspended := hR.set_task he.home he.leaf rfl (he.unheld hR) he.frame hok (he.param hR)
      rfl rfl rfl
    have hg' :=
      (Function.update_of_ne hne.symm (some (f.goTo (.awaitingSpawn h next))) c.frame).trans
      hg
    have hok' : (g.continueWith r).Ok :=
      (hR.kept.ok hg).congr rfl rfl (fun _ => ⟨rfl, rfl, rfl⟩)
    have hawaited := hsuspended.set_runner hg' hrunner hok' rfl rfl
      (fun hfinal => by rw [hfinal] at hdone; cases hdone) (fun _ => hcontinuation)
      (fun r' _ hr' => ?_)
    · refine ⟨_, A, L, ∅, hstep, rfl, .inl ⟨rfl, rfl⟩,
        { hawaited with others := hawaited.others.settle (fun u _ hu _ => ?_) }, .nobody rfl,
        hS.trace, hmain⟩
      obtain rfl := Set.mem_singleton_iff.mp hu
      have hr : Function.update (Function.update c.frame r
          (some (f.goTo (.awaitingSpawn h next)))) h (some (g.continueWith r)) (L.leaf u)
          = some (f.goTo (.awaitingSpawn h next)) := by
        rw [he.leaf, Function.update_of_ne hne, Function.update_self]
      refine .join hr rfl hinstr ?_ ⟨hR.kept.home_runner hg hrunner, Function.update_self _ _ _,
        hrunner, hdone, ?_⟩ hheld
      · rw [he.leaf]
        exact he.thread
      · rw [he.leaf]
        rfl
    · cases hr'
      exact ⟨t, he.home, he.leaf, f.goTo (.awaitingSpawn h next), next, Function.update_self _ _ _,
        rfl⟩

/-- **A handle is dropped**, whoever does it. -/
theorem Rel.drop
    (hR : Rel setup prog c.frame c.next c.callers c.executor.suspendedIn A.thread L busy ∅)
    (hbusy : ∀ {g}, c.frame h = some g → g.param ≠ none → g.code = .final → h ∉ busy)
    (hdrop : c.Droppable h) :
    ∃ c' L', c.drop h = some c'
      ∧ Rel setup prog c'.frame c.next c.callers c.executor.suspendedIn A.thread L' busy ∅
      ∧ c' = { c with frame := c'.frame } ∧ L'.cont = L.cont ∧ L'.leaf = L.leaf
      ∧ ∀ x t, L.home x = some t → x ≠ h → L'.home x = some t ∧ c'.frame x = c.frame x := by
  obtain ⟨g, hg, hrunner, hheld, hcontinuation⟩ := hdrop
  have hhome := hR.kept.home_runner hg hrunner
  unfold Runtime.drop
  rw [hg]
  cases hdone : g.code.done with
  | true =>
    have hfinal := Code.done_iff.mp hdone
    have hleaf := hR.leaf_of_done hg hrunner hfinal
    obtain ⟨o, hthread, -⟩ := hR.thread_of_done hg hrunner hfinal (hbusy hg hrunner hfinal)
    have hunheld := hR.others.unheld_of_code hg (by simp [hfinal])
      (fun _ _ hcode => by rw [hfinal] at hcode; cases hcode) (by simp [hfinal])
    have herased := hR.erase_root hhome hleaf hunheld hthread (fun u g' _ _ haw => ?_) hg
    · refine ⟨_, L.uproot h, by simp [hdone, Runtime.destroy, hg]; rfl, herased, rfl, rfl, rfl,
        fun x t hx hne => ⟨(Layout.uproot_home_of_ne hne).trans hx, if_neg ?_⟩⟩
      -- the parameter of a runner that is done belongs to no thread
      rintro (hxh | hparam)
      · exact hne hxh
      · obtain hx' | hx' := (hR.kept.param hg hparam).2.2.2
        · rw [hx'] at hx
          cases hx
        · exact hne (hR.kept.tree.eq_of_leaf hleaf hx')
    · have hpending := haw.pending
      have hframe := haw.frame
      rw [hg] at hframe
      cases hframe
      rw [hdone] at hpending
      cases hpending
  | false =>
    have hok : g.release.Ok := (hR.kept.ok hg).congr rfl rfl (fun _ => ⟨rfl, rfl, rfl⟩)
    have hreleased := hR.set_runner hg hrunner hok rfl rfl
      (fun hfinal => by rw [hfinal] at hdone; cases hdone) hcontinuation
      (fun r hdone' hr => by
        rw [show g.release.promise.continuation = g.promise.continuation from rfl,
          hcontinuation hdone'] at hr
        cases hr)
    exact ⟨c.setFrame h g.release, L, by simp [hdone], hreleased, rfl, rfl, rfl,
      fun x t hx hne => ⟨hx, Function.update_of_ne hne _ _⟩⟩

theorem Sim.drop (hS : Sim setup prog c A L {t}) (hmain : Stacked c.callers)
    (he : Executing c A L t r s f) {next : σ}
    (hinstr : prog s = .drop h next) (hdrop : c.Droppable h) :
    Goes setup prog c A (c.exec r (prog s)) := by
  have hR := hS.rel
  obtain ⟨c', L', hc', hR', hsame, hcont, hleaf, hkeep⟩ :=
    hR.drop (fun hg hrunner hfinal => he.ne_done hR hg hrunner hfinal) hdrop
  obtain ⟨g, hg, hrunner, -⟩ := hdrop
  obtain ⟨hhome, hframe⟩ := hkeep r t he.home (he.ne_runner hR hg hrunner)
  have hcalled : ∀ s', .coroutine (L'.leaf t) s' ∉ c.callers := by
    rw [hleaf]
    exact he.called_leaf
  have hthread := hR'.set_thread (hR'.kept.tree.root hhome) rfl hcalled (.running next (L.cont r))
  rw [hsame] at hc'
  refine ⟨({ c with frame := c'.frame } : Runtime σ ω α τ υ ξ).go (.exec r next),
    A.set t (.running next (L.cont r)), L', {t}, ?_, rfl, .inr ⟨.act t, ?_, rfl⟩, hthread,
    .thread (.exec (f := f) rfl ⟨hhome, ?_, ?_, he.code,
      he.called, ?_⟩), hS.trace, hmain⟩
  · rw [hinstr]
    show (c.drop h).map _ = _
    rw [hc']
    rfl
  · rw [Threads.step_act he.thread, hinstr]
    rfl
  · rw [hleaf]
    exact he.leaf
  · exact hframe.trans he.frame
  · rw [hcont]
    exact Function.update_self _ _ _

/-! ## The end of a body -/

/-- **The body of a task ends**: it was detached, and its thread ends with it, or control is
transferred to the coroutine that awaits it. -/
theorem Sim.coReturn (hS : Sim setup prog c A L {t}) (hmain : Stacked c.callers)
    (he : Executing c A L t r s f)
    (hinstr : prog s = .coReturn o) : Goes setup prog c A (c.exec r (prog s)) := by
  have hR := hS.rel
  have hdone : f.code.done = false := by
    rw [he.code]
    rfl
  have hok := Frame.ok_finish f o
  have hpromise : (f.finish o).promise.continuation = f.promise.continuation
      ∧ (f.finish o).promise.detached = f.promise.detached := by
    simp [Frame.finish]
  have hfinished := hR.set_task he.home he.leaf rfl (he.unheld hR) he.frame hok (he.param hR) rfl
    hpromise.1 hpromise.2
  have hcomplete : c.exec r (prog s) = (c.setFrame r (f.finish o)).finalSuspend r (f.finish o) := by
    rw [hinstr]
    show c.complete r o = _
    unfold Runtime.complete
    rw [he.frame]
    rfl
  have hr : Function.update c.frame r (some (f.finish o)) r = some (f.finish o) :=
    Function.update_self _ _ _
  obtain ⟨f₁, hf₁, hplaced⟩ := hR.kept.tree.placed he.home
  rw [he.frame] at hf₁
  cases hf₁
  unfold Runtime.finalSuspend at hcomplete
  cases hplaced with
  | root hroot hcont =>
    subst hroot
    have hdetached := hR.kept.tree.detached he.home he.frame (he.param hR)
    rw [if_pos (hpromise.2.trans hdetached)] at hcomplete
    have hended := hfinished.set_thread he.home rfl he.called_leaf (.done o)
    have hgone := hended.vanish he.home he.leaf hr rfl (Function.update_self _ _ _)
    refine ⟨({ c with
        frame := fun i => if i = r ∨ (f.finish o).param = some i then none
          else Function.update c.frame r (some (f.finish o)) i } : Runtime σ ω α τ υ ξ).go
        (.transfer none), A.set r (.done o), L.uproot r, ∅, ?_, rfl, .inr ⟨.act r, ?_, rfl⟩, hgone,
      .nobody rfl, hS.trace, hmain⟩
    · rw [hcomplete]
      unfold Runtime.destroy
      rw [show (c.setFrame r (f.finish o)).frame r = some (f.finish o) from hr]
      rfl
    · rw [Threads.step_act he.thread, hinstr, hcont]
      rfl
  | @called p g after hne hcontinuation hheld hparent hhome hinner hcode hcont hrunner =>
    rw [if_neg (by rw [hpromise.2, hheld]; simp)] at hcomplete
    refine ⟨_, A, L, {t}, hcomplete, rfl, .inl ⟨rfl, rfl⟩, hfinished,
      .thread (.returned (x := r) (p := p) (f := f.finish o) ?_ he.home he.leaf hne hr rfl (he.param hR)
      ((hR.kept.ok he.frame).blank hdone).2.2 (Frame.outcome_finish (hR.kept.ok he.frame) hdone o)
      (hpromise.1.trans hcontinuation) hinstr he.thread), hS.trace, hmain⟩
    rw [hpromise.1, hcontinuation]
    rfl

/-! ## Control is transferred -/

/-- A task begins. -/
theorem Sim.resume_start (hS : Sim setup prog c A L {t}) (hmain : Stacked c.callers)
    (hhome : L.home r = some t)
    (hleaf : L.leaf t = r) (hf : c.frame r = some f) (hcode : f.code = .start s)
    (hthread : A.thread t = some (.running s (L.cont r))) : Goes setup prog c A (c.resume r) := by
  have hR := hS.rel
  have hnone := (hR.kept.ok hf).start hcode
  have hunheld := hR.others.unheld_of_code hf (by simp [hcode])
    (fun _ _ hc => by rw [hcode] at hc; cases hc) (by simp [hcode])
  have hok : (f.goTo .running).Ok :=
    (hR.kept.ok hf).goTo (by rw [hcode]; rfl) hnone (by simp) (by simp)
  refine ⟨(c.setFrame r (f.goTo .running)).go (.exec r s), A, L, {t}, ?_, rfl, .inl ⟨rfl, rfl⟩,
    hR.set_task hhome hleaf rfl hunheld hf hok hnone rfl rfl rfl, .thread (.exec rfl
      ⟨hhome, hleaf, Function.update_self _ _ _, rfl, hunheld.called, hthread⟩), hS.trace, hmain⟩
  unfold Runtime.resume
  rw [hf]
  simp [hcode]

/-- **A runner begins**: it awaits its task. -/
theorem Sim.resume_startRunner (hS : Sim setup prog c A L {t}) (hmain : Stacked c.callers)
    (hhome : L.home t = some t)
    (hleaf : L.leaf t = t) (hf : c.frame t = some f) (hcode : f.code = .startRunner x)
    (hcontinuation : f.promise.continuation = none) (hg : c.frame x = some g)
    (hstart : g.code = .start s) (hheld : g.promise.detached = false) (hx : L.home x = none)
    (hparams : ∀ p q, c.frame p = some q → q.param = some x → p = t)
    (hthread : A.thread t = some (.running s [])) : Goes setup prog c A (c.resume t) := by
  have hR := hS.rel
  have hparam := (hR.kept.ok hf).startRunner hcode
  have hne : t ≠ x := by
    rintro rfl
    rw [hx] at hhome
    cases hhome
  have hstep : c.resume t = some (((c.setFrame t (f.goTo (.awaiting x .runner))).setFrame x
      (g.continueWith t)).go (.transfer (some x))) := by
    have hx' : (c.setFrame t (f.goTo .running)).frame x = some g :=
      (Function.update_of_ne hne.symm _ _).trans hg
    have ht' : (c.setFrame t (f.goTo .running)).frame t = some (f.goTo .running) :=
      Function.update_self _ _ _
    unfold Runtime.resume
    rw [hf]
    simp only [hcode, Option.bind_some]
    unfold Runtime.await
    rw [hx', ht']
    simp [hstart, Code.done, Runtime.setFrame, Runtime.go, Frame.goTo]
  have hunheld := hR.others.unheld_of_code hf (by simp [hcode])
    (fun _ _ hc => by rw [hcode] at hc; cases hc) (by simp [hcode])
  have hok : (f.goTo (.awaiting x .runner)).Ok := {
    start := fun hc => by cases hc
    startRunner := fun hc => by cases hc
    running := fun hc => by cases hc
    statement := fun hc => by cases hc
    runner := fun hc => by cases hc; exact hparam
    awaitingSpawn := fun hc => by cases hc
    awaitingIo := fun hc => by cases hc
    blank := fun _ => (hR.kept.ok hf).blank (by rw [hcode]; rfl) }
  have hcont := hR.kept.tree.cont_root hhome
  have hawait := hR.await hhome hleaf rfl hunheld hf hx hg hok (fun _ => hcontinuation) hheld
    ((hR.kept.ok hg).start hstart) (fun _ => rfl) hparams (.running s [])
  have hsame : Function.update A.thread t (some (.running s [])) = A.thread := by
    rw [← hthread]
    exact Function.update_eq_self t A.thread
  rw [hsame] at hawait
  refine ⟨_, A, L.push t x (L.cont t), {t}, hstep, rfl, .inl ⟨rfl, rfl⟩,
    hawait.unspare (fun y hy => ?_),
    .thread (.start (f := g.continueWith t) rfl Layout.push_home_self Layout.push_leaf_self
      (Function.update_self _ _ _) hstart ?_), hS.trace, hmain⟩
  · exact Set.notMem_empty y hy.1
  · rw [Layout.push_cont_self, hcont]
    exact hthread

/-- What `await_resume` finds when a task has ended and control is transferred back. -/
theorem Runtime.resume_awaiting (c : Runtime σ ω α τ υ ξ) {after : After σ υ ξ}
    (hg : c.frame p = some g) (hcode : g.code = .awaiting x after) (hpx : p ≠ x)
    (hf : c.frame x = some f) (hresult : f.result = some o) :
    c.resume p = match after with
      | .statement next => (((c.setFrame p (g.goTo .running)).setFrame x
          { f with taken := true }).destroy x).map (fun c' => c'.go (.exec p (next o)))
      | .runner => ((c.setFrame p (g.goTo .running)).setFrame x
          { f with taken := true }).complete p o := by
  have hx : (c.setFrame p (g.goTo .running)).frame x = some f :=
    (Function.update_of_ne hpx.symm _ _).trans hf
  unfold Runtime.resume
  rw [hg]
  simp only [hcode, Option.bind_some]
  unfold Runtime.awaitResume Runtime.take
  rw [hx]
  simp only [hresult, Option.map_some, Option.bind_some]
  cases after with
  | statement next => rfl
  | runner => rfl

/-- **A task returns to a coroutine**, which goes on in its body. -/
theorem Sim.return_statement (hS : Sim setup prog c A L {t}) (hmain : Stacked c.callers)
    (hhome : L.home x = some t)
    (hleaf : L.leaf t = x) (hne : x ≠ t) (hf : c.frame x = some f) (hfinal : f.code = .final)
    (hnone : f.param = none) (hresult : f.result = some o) (hinstr : prog s = .coReturn o)
    (hthread : A.thread t = some (.running s (L.cont x))) (hp : L.home p = some t) (hpx : p ≠ x)
    (hg : c.frame p = some g) {next : Outcome υ ξ → σ}
    (hcode : g.code = .awaiting x (.statement next)) (hcont : L.cont x = next :: L.cont p) :
    Goes setup prog c A (c.resume p) := by
  have htaken := hS.rel.take hhome hleaf hne rfl hf hfinal hnone hp hpx hg hcode
  have hx := Function.update_self x (some ({ f with taken := true } : Frame σ α υ ξ)) c.frame
  have hp' : (L.pop t x p).home p = some t := (Layout.pop_home_of_ne hpx).trans hp
  have hgone := htaken.goOn hx hnone hp' rfl hpx ((Function.update_of_ne hpx _ _).trans hg) hcode
    (.running (next o) (L.cont p))
  refine ⟨({ c with
      frame := Function.update (fun i => if i = x ∨ f.param = some i then none
        else Function.update c.frame x (some { f with taken := true }) i) p
        (some (g.goTo .running)) } : Runtime σ ω α τ υ ξ).go (.exec p (next o)),
    A.set t (.running (next o) (L.cont p)), L.pop t x p, {t}, ?_, rfl, .inr ⟨.act t, ?_, rfl⟩,
    hgone,
    .thread (.exec (f := g.goTo .running) rfl ⟨hp', Layout.pop_leaf_self, ?_, rfl, fun s' => ?_,
      Function.update_self _ _ _⟩), hS.trace, hmain⟩
  · rw [c.resume_awaiting hg hcode hpx hf hresult]
    dsimp only
    unfold Runtime.destroy
    rw [show ((c.setFrame p (g.goTo .running)).setFrame x { f with taken := true }).frame x
      = some { f with taken := true } from Function.update_self _ _ _]
    simp only [Option.map_some, Runtime.setFrame, Runtime.go]
    congr 2
    funext i
    by_cases hip : i = p
    · subst hip
      rw [if_neg (by rw [hnone]; simp [hpx]), Function.update_of_ne hpx, Function.update_self,
        Function.update_self]
    · rw [Function.update_of_ne hip]
      split
      · rfl
      · rename_i hnot
        rw [not_or] at hnot
        rw [Function.update_of_ne hnot.1, Function.update_of_ne hnot.1, Function.update_of_ne hip]
  · rw [Threads.step_act hthread, hinstr, hcont]
    rfl
  · simp [Runtime.go]
  · have hunheld := hS.rel.others.unheld_of_code hg (by simp [hcode])
      (fun _ _ hc => by rw [hcode] at hc; cases hc) (by simp [hcode])
    exact hunheld.called s'

/-- **A runner ends** after its task returned to it: it is destroyed, where the handle was
dropped; a coroutine that awaits the handle goes on; or nobody does. -/
theorem Sim.return_runner (hS : Sim setup prog c A L {t}) (hmain : Stacked c.callers)
    (hhome : L.home x = some t)
    (hleaf : L.leaf t = x) (hne : x ≠ t) (hf : c.frame x = some f) (hfinal : f.code = .final)
    (hnone : f.param = none) (hresult : f.result = some o) (hinstr : prog s = .coReturn o)
    (hthread : A.thread t = some (.running s (L.cont x))) (ht : L.home t = some t)
    (hg : c.frame t = some g) (hcode : g.code = .awaiting x .runner) (hcont : L.cont x = []) :
    Goes setup prog c A (c.resume t) := by
  have hR := hS.rel
  have hparam := (hR.kept.ok hg).runner hcode
  have hpending : g.code.done = false := by
    rw [hcode]
    rfl
  -- the result of the task is taken, and the task stays a parameter
  have htaken := hR.take hhome hleaf hne rfl hf hfinal hnone ht hne.symm hg hcode
  have hg' := (Function.update_of_ne hne.symm (some ({ f with taken := true } : Frame σ α υ ξ))
    c.frame).trans hg
  have hkept : Rel setup prog (Function.update c.frame x (some { f with taken := true })) c.next
      c.callers c.executor.suspendedIn A.thread (L.pop t x t) {t} ∅ := by
    refine { htaken with kept := htaken.kept.shrink (fun y q hq hy _ => ?_) }
    obtain rfl | hy := Set.mem_insert_iff.mp hy
    · rw [Function.update_self] at hq
      cases hq
      exact ⟨hnone, t, g, hg', hparam⟩
    · exact absurd hy (Set.notMem_empty y)
  have ht' : (L.pop t x t).home t = some t := (Layout.pop_home_of_ne hne.symm).trans ht
  have hleaf' : (L.pop t x t).leaf t = t := Layout.pop_leaf_self
  have hpromise : (g.finish o).promise.continuation = g.promise.continuation
      ∧ (g.finish o).promise.detached = g.promise.detached := by
    simp [Frame.finish]
  have houtcome := Frame.outcome_finish (hR.kept.ok hg) hpending o
  have hact : A.step prog (.act t) = some (A.set t (.done o)) := by
    rw [Threads.step_act hthread, hinstr, hcont]
    rfl
  have hstep : c.resume t = ({ c with
      frame := Function.update (Function.update c.frame x (some { f with taken := true })) t
        (some (g.finish o)) } : Runtime σ ω α τ υ ξ).finalSuspend t (g.finish o) := by
    rw [c.resume_awaiting hg hcode hne.symm hf hresult]
    dsimp only
    unfold Runtime.complete
    rw [show ((c.setFrame t (g.goTo .running)).setFrame x { f with taken := true }).frame t
      = some (g.goTo .running) from (Function.update_of_ne hne.symm _ _).trans
        (Function.update_self _ _ _)]
    simp only [Option.bind_some, Runtime.setFrame]
    rw [Function.update_comm hne.symm, Function.update_idem]
    rfl
  unfold Runtime.finalSuspend at hstep
  rw [hpromise.1, hpromise.2] at hstep
  have hrunner : (g.finish o).param ≠ none := by
    rw [show (g.finish o).param = g.param from rfl, hparam]
    simp
  have hend : Function.update (Function.update c.frame x (some { f with taken := true })) t
      (some (g.finish o)) t = some (g.finish o) := Function.update_self _ _ _
  have hawaited : ∀ {y g'}, Awaited (Function.update c.frame x (some { f with taken := true }))
      (L.pop t x t) t y g' → g.promise.continuation = some y := by
    intro y g' haw
    have hframe := haw.frame
    rw [hg'] at hframe
    cases hframe
    exact haw.continuation
  cases hcontinuation : g.promise.continuation with
  | none =>
    have hended := hkept.runner_ends ht' hleaf' rfl hg' hcode (fun u g' _ _ haw => by
      cases hcontinuation.symm.trans (hawaited haw)) o
    cases hdetached : g.promise.detached with
    | true =>
      rw [hdetached, if_pos rfl] at hstep
      refine ⟨({ c with
          frame := fun i => if i = t ∨ (g.finish o).param = some i then none
            else Function.update (Function.update c.frame x (some { f with taken := true })) t
              (some (g.finish o)) i } : Runtime σ ω α τ υ ξ).go (.transfer none),
        A.set t (.done o), (L.pop t x t).uproot t, ∅, ?_, rfl, .inr ⟨.act t, hact, rfl⟩,
        hended.vanish ht' hleaf' hend rfl (Function.update_self _ _ _), .nobody rfl, hS.trace,
        hmain⟩
      rw [hstep]
      unfold Runtime.destroy
      simp only [hend, Option.map_some]
    | false =>
      rw [hdetached, if_neg (by simp), hcontinuation] at hstep
      rw [← insert_empty_eq] at hended
      exact ⟨_, A.set t (.done o), L.pop t x t, ∅, hstep, rfl, .inr ⟨.act t, hact, rfl⟩,
        hended.finished hleaf' hend rfl hrunner (hpromise.2.trans hdetached)
          (Function.update_self _ _ _) houtcome, .nobody rfl, hS.trace, hmain⟩
  | some j =>
    obtain ⟨hheld, u, s', next, fj, hut, hu, hl, hfj, hcodej, hinstrj, hthreadj⟩ :=
      hkept.joiner_of_runner ht' hleaf' hg' hcode hcontinuation
    rw [hheld, if_neg (by simp), hcontinuation] at hstep
    have hboth : Rel setup prog (Function.update c.frame x (some { f with taken := true })) c.next
        c.callers c.executor.suspendedIn A.thread (L.pop t x t) (insert t {u}) ∅ :=
      { hkept with others := hkept.others.settle (fun v _ hv hv' =>
          absurd (Set.mem_insert_iff.mpr (.inl (Set.mem_singleton_iff.mp hv))) hv') }
    have hended := hboth.runner_ends ht' hleaf' (Set.mem_insert _ _) hg' hcode
      (fun v g' hv hv' haw => ?_) o
    · have hjt : j ≠ t := by
        rintro rfl
        rw [hg'] at hfj
        cases hfj
        rw [hcode] at hcodej
        cases hcodej
      refine ⟨_, A.set t (.done o), L.pop t x t, {u}, hstep, rfl, .inr ⟨.act t, hact, rfl⟩,
        hended.finished hleaf' hend rfl hrunner (hpromise.2.trans hheld)
          (Function.update_self _ _ _) houtcome,
        .thread (.joined (r := j) (h := t) (f := fj) (g := g.finish o) rfl hu hl
          ((Function.update_of_ne hjt _ _).trans hfj) hcodej hinstrj
          ((Function.update_of_ne hut _ _).trans hthreadj) hend rfl hrunner
          ((hR.kept.ok hg).blank hpending).2.2 houtcome (Function.update_self _ _ _)), hS.trace,
        hmain⟩
    · -- only one coroutine waits for the runner
      have hvj := (hcontinuation.symm.trans (hawaited haw))
      have hv₁ := hkept.kept.tree.leaf hv
      rw [← Option.some.inj hvj, hu] at hv₁
      cases hv₁
      exact hv' (Set.mem_insert_of_mem _ rfl)

/-- **A coroutine goes on after the `co_await` of a handle**, whose runner ended. -/
theorem Sim.resume_joined (hS : Sim setup prog c A L {t}) (hmain : Stacked c.callers)
    {next : Outcome υ ξ → σ} (hhome : L.home r = some t) (hleaf : L.leaf t = r)
    (hf : c.frame r = some f) (hcode : f.code = .awaitingSpawn h next)
    (hinstr : prog s = .join h next) (hthread : A.thread t = some (.running s (L.cont r)))
    (hg : c.frame h = some g) (hfinal : g.code = .final) (hparam : g.param ≠ none)
    (htaken : g.taken = false) (houtcome : g.promise.outcome = some o)
    (hdone : A.thread h = some (.done o)) : Goes setup prog c A (c.resume r) := by
  have hR := hS.rel
  have hnone := (hR.kept.ok hf).awaitingSpawn hcode
  have hne : r ≠ h := by
    rintro rfl
    rw [hf] at hg
    cases hg
    exact hparam hnone
  have hunheld := hR.others.unheld_of_code hf (by simp [hcode])
    (fun h' next' hc => by
      rw [hcode] at hc
      cases hc
      exact ⟨g, hg, Code.done_iff.mpr hfinal⟩) (by simp [hcode])
  have hok : (f.goTo .running).Ok :=
    (hR.kept.ok hf).goTo (by rw [hcode]; rfl) hnone (by simp) (by simp)
  have hgone := hR.set_task hhome hleaf rfl hunheld hf hok hnone rfl rfl rfl
  have hg' := (Function.update_of_ne hne.symm (some (f.goTo .running)) c.frame).trans hg
  have hnot : g.code.done ≠ false := by
    rw [hfinal]
    simp [Code.done]
  have hok' : ({ g with taken := true } : Frame σ α υ ξ).Ok :=
    (hR.kept.ok hg).congr rfl rfl (fun hpending => absurd hpending hnot)
  have htook := hgone.set_runner hg' hparam hok' rfl rfl (fun _ => ⟨rfl, rfl⟩)
    (fun hpending => absurd hpending hnot) (fun _ hpending => absurd hpending hnot)
  have hcalled : ∀ s', .coroutine (L.leaf t) s' ∉ c.callers := by
    rw [hleaf]
    exact hunheld.called
  refine ⟨((c.setFrame r (f.goTo .running)).setFrame h { g with taken := true }).go
      (.exec r (next o)), A.set t (.running (next o) (L.cont r)), L, {t}, ?_, rfl,
    .inr ⟨.act t, ?_, rfl⟩, htook.set_thread (hR.kept.tree.root hhome) rfl hcalled _,
    .thread (.exec (f := f.goTo .running) rfl ⟨hhome, hleaf, ?_, rfl, hunheld.called,
      Function.update_self _ _ _⟩), hS.trace, hmain⟩
  · have hh : (c.setFrame r (f.goTo .running)).frame h = some g := hg'
    unfold Runtime.resume
    rw [hf]
    simp only [hcode, Option.bind_some]
    unfold Runtime.take
    rw [hh]
    simp only [(Frame.result_eq htaken).trans houtcome, Option.bind_some, Option.map_some]
  · exact Threads.step_join hthread hinstr hdone
  · exact (Function.update_of_ne hne _ _).trans (Function.update_self _ _ _)

/-- **Control is transferred to a coroutine, and it goes on.** -/
theorem Sim.resume (hS : Sim setup prog c A L busy) (hcontrol : c.control = .transfer (some r)) :
    Goes setup prog c A (c.resume r) := by
  have hmain : Stacked c.callers := by
    have hattended := hS.attended
    rw [hcontrol] at hattended
    exact hattended
  have hR := hS.rel
  cases hS.turn with
  | idle h => cases hcontrol.symm.trans h
  | nobody h => cases hcontrol.symm.trans h
  | thread hcurrent =>
    cases hcurrent with
    | exec h => cases hcontrol.symm.trans h
    | start h hhome hleaf hf hcode hthread =>
      cases hcontrol.symm.trans h
      exact hS.resume_start hmain hhome hleaf hf hcode hthread
    | startRunner h hhome hleaf hf hcode hcontinuation hg hstart hheld hx hparams hthread =>
      cases hcontrol.symm.trans h
      exact hS.resume_startRunner hmain hhome hleaf hf hcode hcontinuation hg hstart hheld hx
        hparams hthread
    | @returned x p s o f h hhome hleaf hne hf hfinal hnone htaken houtcome hcontinuation hinstr
        hthread =>
      cases hcontrol.symm.trans h
      have hresult := (Frame.result_eq htaken).trans houtcome
      obtain ⟨f', hf', hplaced⟩ := hR.kept.tree.placed hhome
      rw [hf] at hf'
      cases hf'
      cases hplaced with
      | root hroot => exact absurd hroot hne
      | @called q g after _ hq hheld hg hp hinner hcode hcont hrunner =>
        cases hcontinuation.symm.trans hq
        rw [hleaf] at hinner
        cases after with
        | statement next =>
          exact hS.return_statement hmain hhome hleaf hne hf hfinal hnone hresult hinstr hthread hp
            hinner hg hcode hcont
        | runner =>
          obtain rfl := hrunner rfl
          exact hS.return_runner hmain hhome hleaf hne hf hfinal hnone hresult hinstr hthread hp hg
            hcode (hcont.trans (hR.kept.tree.cont_root hp))
    | joined h hhome hleaf hf hcode hinstr hthread hg hfinal hparam htaken houtcome hdone =>
      cases hcontrol.symm.trans h
      exact hS.resume_joined hmain hhome hleaf hf hcode hinstr hthread hg hfinal hparam htaken
        houtcome hdone

/-- **A call of `resume` returns.** -/
theorem Sim.returned (hS : Sim setup prog c A L busy) (hcontrol : c.control = .transfer none) :
    Goes setup prog c A c.returned := by
  have hmain : Stacked c.callers := by
    have hattended := hS.attended
    rw [hcontrol] at hattended
    exact hattended
  have hempty := hS.busy_eq_empty (.inr hcontrol)
  subst hempty
  have hR := hS.rel
  unfold Runtime.returned
  cases hcallers : c.callers with
  | nil =>
    rw [hcallers] at hmain
    exact hmain.elim
  | cons caller callers =>
    rw [hcallers] at hR hmain
    cases caller with
    | main =>
      exact ⟨_, A, L, ∅, rfl, rfl, .inl ⟨rfl, rfl⟩, { hR with others := hR.others.pop_main },
        .idle rfl, hS.trace, hmain⟩
    | coroutine r s =>
      obtain ⟨t, hhome, hleaf, hthread, f, hf, hcode⟩ := hR.others.called List.mem_cons_self
      have hpopped := hR.others.pop_caller hR.kept.tree hhome
      rw [insert_empty_eq] at hpopped
      exact ⟨_, A, L, {t}, rfl, rfl, .inl ⟨rfl, rfl⟩, { hR with others := hpopped },
        .thread (.exec (f := f) rfl ⟨hhome, hleaf, hf, hcode, hR.others.not_mem_callers, hthread⟩),
        hS.trace, hmain⟩

/-- **The handles that a coroutine uses at a point may be used.** -/
def Runtime.Proper (prog : σ → Instr σ ω τ η υ ξ) (c : Runtime σ ω α τ υ ξ) (s : σ) : Prop :=
  (∀ h next, prog s = .join h next → c.Joinable h)
    ∧ ∀ h next, prog s = .drop h next → c.Droppable h

instance (prog : σ → Instr σ ω τ η υ ξ) (c : Runtime σ ω α τ υ ξ) (s : σ) :
    Decidable (c.Proper prog s) :=
  match hinstr : prog s with
  | .join h _ => decidable_of_iff (c.Joinable h) (by unfold Runtime.Proper; rw [hinstr]; simp)
  | .drop h _ => decidable_of_iff (c.Droppable h) (by unfold Runtime.Proper; rw [hinstr]; simp)
  | .coReturn _ | .effect _ _ | .coAwait _ _ | .detach _ _ | .spawn _ _ | .io _ _ _ =>
    .isTrue (by unfold Runtime.Proper; rw [hinstr]; simp)

/-- **A coroutine does what it does at a point.** -/
theorem Sim.exec (hS : Sim setup prog c A L busy) (hcontrol : c.control = .exec r s)
    (hproper : c.Proper prog s) (hio : ∀ handle token next, prog s ≠ .io handle token next) :
    Goes setup prog c A (c.exec r (prog s)) := by
  have hmain : Stacked c.callers := by
    have hattended := hS.attended
    rw [hcontrol] at hattended
    exact hattended
  obtain ⟨t, f, rfl, he⟩ := hS.executing hcontrol
  cases hinstr : prog s with
  | coReturn o => exact hinstr ▸ hS.coReturn hmain he hinstr
  | effect w next => exact hinstr ▸ hS.effect hmain he hinstr
  | coAwait task next => exact hinstr ▸ hS.coAwait hmain he hinstr
  | detach task next => exact hinstr ▸ hS.detach hmain he hinstr
  | spawn task next => exact hinstr ▸ hS.spawn hmain he hinstr
  | join h next => exact hinstr ▸ hS.join hmain he hinstr (hproper.1 h next hinstr)
  | drop h next => exact hinstr ▸ hS.drop hmain he hinstr (hproper.2 h next hinstr)
  | io handle token next => exact absurd hinstr (hio handle token next)

end Coroutines

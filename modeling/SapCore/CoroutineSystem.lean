import SapCore.CoroutineIo

/-!
# Every run of the runtime

In every run in which handles are used properly – a handle is awaited once, by one
coroutine, and not dropped while that waits –, with whatever the kernel reports, refuses
or is slow with, whenever a stop is requested:

* the runtime does what threads would do to which the same tasks and the same results of I/O
  come in the same order (`refines_threads`);
* nothing that is undefined is done (`never_undefined`);
* when the loop finds nothing to do, every task that was started has ended, but for those that
  wait for each other (`drained`);
* when every task has ended, the frames that are left are those that handles hold
  (`no_leak`).
-/

namespace Coroutines

variable {σ ω τ η α υ ξ : Type} [DecidableEq α] [DecidableEq τ] [DecidableEq η]
  {setup : Setup α τ η} {prog : σ → Instr σ ω τ η υ ξ} {c c' : Runtime σ ω α τ υ ξ}
  {A : Threads σ ω υ ξ} {L : Layout σ υ ξ} {busy : Set ℕ}

namespace Runtime

/-- **A careful step**: handles are used properly. -/
def Careful (prog : σ → Instr σ ω τ η υ ξ) (c : Runtime σ ω α τ υ ξ) : Label σ α τ → Prop
  | .run => ∀ r s, c.control = .exec r s → c.Proper prog s
  | .drop h => c.Droppable h
  | _ => True

instance (prog : σ → Instr σ ω τ η υ ξ) (c : Runtime σ ω α τ υ ξ) :
    ∀ label : Label σ α τ, Decidable (Careful prog c label)
  | .run =>
    match hcontrol : c.control with
    | .exec r s => decidable_of_iff (c.Proper prog s) (by unfold Careful; rw [hcontrol]; simp)
    | .idle | .transfer _ => .isTrue (by unfold Careful; rw [hcontrol]; simp)
  | .drop h => inferInstanceAs (Decidable (c.Droppable h))
  | .await _ _ | .loop | .trigger _ | .requestStop _ | .turn | .destroyAwaiter _ | .detach _
  | .spawn _ => .isTrue trivial

/-- **What holds in every state.** -/
structure Inv (setup : Setup α τ η) (prog : σ → Instr σ ω τ η υ ξ) (c : Runtime σ ω α τ υ ξ)
    (A : Threads σ ω υ ξ) : Prop where
  sim : ∃ L busy, Sim setup prog c A L busy
  executor : (Executor.machine setup).ReachableBy Executor.AwaitedOnce c.executor
  owned : ∀ entry ∈ c.executor.ready, entry.2 ≠ none

theorem Inv.books (hI : Inv setup prog c A) : Executor.Inv setup c.executor :=
  Executor.inv_of_awaitedOnce hI.executor

omit [DecidableEq α] [DecidableEq τ] [DecidableEq η] in
theorem sim_new : Sim setup prog (new : Runtime σ ω α τ υ ξ) .new .new ∅ where
  rel := {
    kept := kept_new
    others := {
      parked := fun ht => by cases ht
      called := fun hr => by cases hr
      nodup := List.nodup_nil
      awaited := fun haw => by cases haw.frame
      suspended := fun hr => by cases hr
      threads := fun ht => by cases ht }
    numbers := fun ht => by cases ht }
  turn := .idle rfl
  trace := rfl
  attended := rfl

theorem inv_new : Inv setup prog (new : Runtime σ ω α τ υ ξ) .new where
  sim := ⟨.new, ∅, sim_new⟩
  executor := .init
  owned entry hentry := by cases hentry

/-! ## Steps -/

/-- An event of the executor. -/
theorem Inv.event (hI : Inv setup prog c A) {e : Executor.Event α τ ℕ}
    (honce : Executor.AwaitedOnce c.executor e)
    (hkeeps : ∀ ex, c.executor.step setup e = some ex → Executor.Keeps c.executor ex)
    (hstep : c.event setup e = some c') : Inv setup prog c' A := by
  obtain ⟨ex, hex, rfl⟩ := Option.map_eq_some_iff.mp hstep
  obtain ⟨L, busy, hS⟩ := hI.sim
  exact ⟨⟨L, busy, hS.event (hkeeps ex hex)⟩, hI.executor.step honce hex,
    (hkeeps ex hex).owned hI.owned⟩

/-- A step that does not concern the executor. -/
theorem Inv.goes (hI : Inv setup prog c A) {result : Option (Runtime σ ω α τ υ ξ)}
    (hgoes : Goes setup prog c A result) (hstep : result = some c') :
    ∃ A', Threads.Steps prog A none A' ∧ Inv setup prog c' A' := by
  obtain ⟨c₁, A', L', busy', hresult, hexecutor, hsteps, hS⟩ := hgoes
  cases hresult.symm.trans hstep
  exact ⟨A', hsteps, ⟨L', busy', hS⟩, hexecutor ▸ hI.executor, hexecutor ▸ hI.owned⟩

/-- A coroutine awaits I/O. -/
theorem Inv.await (hI : Inv setup prog c A) {r : ℕ} {s : σ} {a : α} {add : Option AddError}
    {next : AwaitResult → σ} (hcontrol : c.control = .exec r s)
    (hinstr : prog s = .io (setup.handle a) (setup.token a) next)
    (hdraining : c.executor.draining = none) (hidle : (c.executor.awaiter a).phase = .idle)
    (hstep : c.awaitIo setup r a add next = some c') :
    ∃ A', Threads.Steps prog A (c.input setup (.await a add) c') A' ∧ Inv setup prog c' A' := by
  obtain ⟨L, busy, hS⟩ := hI.sim
  obtain ⟨c₁, A', L', busy', hresult, hex, hsteps, hS'⟩ :=
    hS.awaitIo setup hcontrol hinstr hdraining hidle add
  cases hresult.symm.trans hstep
  have hscheduled : (r, none) ∉ c.executor.ready := fun hmem => hI.owned _ hmem rfl
  exact ⟨A', hsteps, ⟨L', busy', hS'⟩, hI.executor.step (by exact ⟨hidle, hscheduled⟩) hex,
    Executor.owned_step hex (by simp) hI.owned⟩

/-- The loop resumes a coroutine. -/
theorem Inv.loop (hI : Inv setup prog c A) (hcontrol : c.control = .idle)
    (hdraining : c.executor.draining = none) (hstep : c.resumeFront setup = some c') :
    ∃ A', Threads.Steps prog A (c.input setup .loop c') A' ∧ Inv setup prog c' A' := by
  obtain ⟨L, busy, hS⟩ := hI.sim
  have hready : c.executor.ready ≠ [] := by
    intro hempty
    unfold resumeFront at hstep
    rw [hempty] at hstep
    cases hstep
  obtain ⟨c₁, A', L', busy', hresult, hex, hsteps, hS'⟩ :=
    hS.loop hcontrol hdraining hI.books.books hI.owned hready
  cases hresult.symm.trans hstep
  exact ⟨A', hsteps, ⟨L', busy', hS'⟩, hI.executor.step (by exact trivial) hex,
    Executor.owned_step hex (by simp) hI.owned⟩

/-- The program around the loop starts a task. -/
theorem Inv.outside (hI : Inv setup prog c A) (hcontrol : c.control = .idle) {s : σ} {child : ℕ}
    (hchild : c.next ≤ child)
    (hsim : ∀ L, Stacked (.main :: c.callers) →
      Rel setup prog c.frame c.next (.main :: c.callers) c.executor.suspendedIn A.thread L ∅ ∅ →
      ∃ L' busy', Sim setup prog c' (A.set child (.running s [])) L' busy')
    (hexecutor : c'.executor = c.executor) :
    ∃ A', Threads.Steps prog A (some (.task child s)) A' ∧ Inv setup prog c' A' := by
  obtain ⟨L, busy, hS⟩ := hI.sim
  have hempty := hS.busy_eq_empty (.inl hcontrol)
  subst hempty
  have hcallers : c.callers = [] := by
    have hattended := hS.attended
    rw [hcontrol] at hattended
    exact hattended
  have hR := hS.rel
  refine ⟨A.set child (.running s []), .inr ⟨.start child s, ?_, rfl⟩,
    hsim L hcallers { hR with others := hR.others.push_main }, hexecutor ▸ hI.executor,
    hexecutor ▸ hI.owned⟩
  exact Threads.step_start (hR.thread_of_le hchild) s

/-- The program around the loop drops a handle. -/
theorem Inv.drop (hI : Inv setup prog c A) (hcontrol : c.control = .idle) {h : ℕ}
    (hdrop : c.Droppable h) : ∃ c', c.drop h = some c' ∧ Inv setup prog c' A := by
  obtain ⟨L, busy, hS⟩ := hI.sim
  have hempty := hS.busy_eq_empty (.inl hcontrol)
  subst hempty
  obtain ⟨c₁, L', hc₁, hR', hsame, -⟩ :=
    hS.rel.drop (fun _ _ _ => Set.notMem_empty h) hdrop
  refine ⟨c₁, hc₁, ?_⟩
  rw [hsame]
  exact ⟨⟨L', ∅, hR', .idle hcontrol, hS.trace, hS.attended⟩, hI.executor, hI.owned⟩

/-- **Every careful step of the runtime is a step of the threads with the same input, or
none.** -/
theorem Inv.step (hI : Inv setup prog c A) {label : Label σ α τ} (hcareful : Careful prog c label)
    (hstep : c.step setup prog label = some c') :
    ∃ A', Threads.Steps prog A (c.input setup label c') A' ∧ Inv setup prog c' A' := by
  have hevent : ∀ {e : Executor.Event α τ ℕ}, Executor.AwaitedOnce c.executor e →
      ((∃ tokens, e = .trigger tokens) ∨ (∃ t, e = .requestStop t) ∨ e = .turn
        ∨ ∃ a, e = .destroy a) → c.event setup e = some c' →
      ∃ A', Threads.Steps prog A none A' ∧ Inv setup prog c' A' :=
    fun honce hkind he => ⟨A, .inl ⟨rfl, rfl⟩, hI.event honce
      (fun ex hex => Executor.keeps_step hex hkind) he⟩
  obtain ⟨L, busy, hS⟩ := hI.sim
  unfold Runtime.step at hstep
  cases hdraining : c.executor.draining with
  | some d =>
    rw [hdraining] at hstep
    cases label with
    | turn => exact hevent (by exact trivial) (by simp) hstep
    | _ => cases hstep
  | none =>
    rw [hdraining] at hstep
    cases label with
    | turn => cases hstep
    | requestStop t => exact hevent (by exact trivial) (by simp) hstep
    | destroyAwaiter a => exact hevent (by exact trivial) (by simp) hstep
    | run =>
      dsimp only at hstep
      unfold Runtime.run at hstep
      cases hcontrol : c.control with
      | idle =>
        rw [hcontrol] at hstep
        cases hstep
      | exec r s =>
        rw [hcontrol] at hstep
        refine hI.goes (hS.exec hcontrol (hcareful r s hcontrol)
          (fun handle token next hinstr => ?_)) hstep
        -- I/O has a label of its own
        dsimp only at hstep
        rw [hinstr] at hstep
        cases hstep
      | transfer target =>
        rw [hcontrol] at hstep
        cases target with
        | some r => exact hI.goes (hS.resume hcontrol) hstep
        | none => exact hI.goes (hS.returned hcontrol) hstep
    | await a add =>
      dsimp only at hstep
      split at hstep
      · rename_i r s hcontrol
        split at hstep
        · rename_i handle token next hinstr
          split at hstep
          · rename_i hguard
            obtain ⟨hidle, rfl, rfl⟩ := hguard
            exact hI.await hcontrol hinstr hdraining hidle hstep
          · cases hstep
        · cases hstep
      · cases hstep
    | loop =>
      cases hcontrol : c.control with
      | idle =>
        rw [hcontrol] at hstep
        exact hI.loop hcontrol hdraining hstep
      | _ =>
        rw [hcontrol] at hstep
        cases hstep
    | trigger tokens =>
      cases hcontrol : c.control with
      | idle =>
        rw [hcontrol] at hstep
        exact hevent (by exact trivial) (by simp) hstep
      | _ =>
        rw [hcontrol] at hstep
        cases hstep
    | detach s =>
      cases hcontrol : c.control with
      | idle =>
        rw [hcontrol] at hstep
        cases hstep
        exact hI.outside hcontrol (Nat.le_refl _)
          (fun L hmain hR => ⟨_, _, sim_detach hS.trace hmain hR⟩) rfl
      | _ =>
        rw [hcontrol] at hstep
        cases hstep
    | spawn s =>
      cases hcontrol : c.control with
      | idle =>
        rw [hcontrol] at hstep
        cases hstep
        exact hI.outside hcontrol (Nat.le_succ _)
          (fun L hmain hR => ⟨_, _, sim_spawn hS.trace hmain hR⟩) rfl
      | _ =>
        rw [hcontrol] at hstep
        cases hstep
    | drop h =>
      cases hcontrol : c.control with
      | idle =>
        rw [hcontrol] at hstep
        obtain ⟨c₁, hc₁, hI'⟩ := hI.drop hcontrol hcareful
        cases hc₁.symm.trans hstep
        exact ⟨A, .inl ⟨rfl, rfl⟩, hI'⟩
      | _ =>
        rw [hcontrol] at hstep
        cases hstep

/-- **Every run of the runtime is one of the threads, on the same input.** -/
theorem inv_of_observed {inputs : List (Input σ τ η)}
    (hc : (observed setup prog).ReachableBy (fun d label => Careful prog d.1 label) (c, inputs)) :
    ∃ A, (Threads.observed prog).Reachable (A, inputs) ∧ Inv setup prog c A := by
  suffices ∀ d, (observed setup prog).ReachableBy (fun d label => Careful prog d.1 label) d →
      ∃ A, (Threads.observed prog).Reachable (A, d.2) ∧ Inv setup prog d.1 A from this _ hc
  intro d hd
  induction hd with
  | init => exact ⟨.new, .init, inv_new⟩
  | step _ hcareful hstep ih =>
    obtain ⟨A, hA, hI⟩ := ih
    obtain ⟨hstep, hinputs⟩ := Machine.recording_step hstep
    obtain ⟨A', hsteps, hI'⟩ := hI.step hcareful hstep
    refine ⟨A', ?_, hI'⟩
    rw [hinputs]
    obtain ⟨rfl, hnone⟩ | ⟨label, hlabel, hinput⟩ := hsteps
    · rw [hnone, Option.toList_none, List.append_nil]
      exact hA
    · rw [← hinput]
      exact hA.step trivial (Option.map_eq_some_iff.mpr ⟨A', hlabel, rfl⟩)

theorem inv_of_reachable (hc : (machine setup prog).ReachableBy (Careful prog) c) :
    ∃ A, Inv setup prog c A := by
  obtain ⟨inputs, hrecorded⟩ := hc.recorded
    (fun c label c' inputs => inputs ++ (c.input setup label c').toList) []
  obtain ⟨A, -, hI⟩ := inv_of_observed hrecorded
  exact ⟨A, hI⟩

theorem frame_lt (hc : (machine setup prog).ReachableBy (Careful prog) c) {r : ℕ}
    {f : Frame σ α υ ξ} (hf : c.frame r = some f) : r < c.next := by
  obtain ⟨A, hI⟩ := inv_of_reachable hc
  obtain ⟨L, busy, hS⟩ := hI.sim
  exact hS.rel.kept.lt hf

/-! ## What the threads say of the runtime -/

omit [DecidableEq α] [DecidableEq τ] [DecidableEq η] in
/-- A runner that is done is not that of the thread that has control. -/
theorem notMem_busy_of_done (hS : Sim setup prog c A L busy) {h : ℕ} {g : Frame σ α υ ξ}
    (hg : c.frame h = some g) (hrunner : g.param ≠ none) (hfinal : g.code = .final) :
    h ∉ busy := by
  have hleaf := hS.rel.leaf_of_done hg hrunner hfinal
  cases hS.turn with
  | idle => exact Set.notMem_empty h
  | nobody => exact Set.notMem_empty h
  | thread hcurrent =>
    rintro rfl
    cases hcurrent with
    | exec _ he => exact he.ne_done hS.rel hg hrunner hfinal rfl
    | start _ _ hl hf hcode =>
      rw [← hl, hleaf, hg] at hf
      cases hf
      cases hfinal.symm.trans hcode
    | startRunner _ _ _ hf hcode =>
      rw [hg] at hf
      cases hf
      cases hfinal.symm.trans hcode
    | returned _ _ hl hne => exact hne (hl.symm.trans hleaf)
    | joined _ _ hl hf hcode =>
      rw [← hl, hleaf, hg] at hf
      cases hf
      cases hfinal.symm.trans hcode

omit [DecidableEq α] [DecidableEq τ] [DecidableEq η] in
/-- The last coroutine of the thread that has control is not one that the executor holds. -/
theorem notMem_busy_of_suspended (hS : Sim setup prog c A L busy) {r t : ℕ} {a : α}
    (hin : c.executor.suspendedIn r = some a) (hleaf : L.leaf t = r) : t ∉ busy := by
  obtain ⟨-, -, -, f, next, hf, hcode⟩ := hS.rel.others.suspended hin
  have hnot : ∀ {x g}, L.leaf t = x → c.frame x = some g → g.code = .awaitingIo a next := by
    intro x g hx hg
    rw [← hx, hleaf, hf] at hg
    cases hg
    exact hcode
  cases hS.turn with
  | idle => exact Set.notMem_empty t
  | nobody => exact Set.notMem_empty t
  | thread hcurrent =>
    rintro rfl
    cases hcurrent with
    | exec _ he => cases he.code.symm.trans (hnot he.leaf he.frame)
    | start _ _ hl hf hcode => cases hcode.symm.trans (hnot hl hf)
    | startRunner _ _ hl hf hcode => cases hcode.symm.trans (hnot hl hf)
    | returned _ _ hl _ hf hcode => cases hcode.symm.trans (hnot hl hf)
    | joined _ _ hl hf hcode => cases hcode.symm.trans (hnot hl hf)

omit [DecidableEq α] [DecidableEq τ] [DecidableEq η] in
/-- No coroutine called `resume` while none runs. -/
theorem not_called (hS : Sim setup prog c A L busy) (hcontrol : c.control = .idle)
    (caller : Caller σ) : caller ∉ c.callers := by
  have hattended := hS.attended
  rw [hcontrol] at hattended
  rw [show c.callers = [] from hattended]
  exact List.not_mem_nil

omit [DecidableEq α] [DecidableEq τ] [DecidableEq η] in
/-- The thread of a runner that is awaited has not ended. -/
theorem awaited_running (hS : Sim setup prog c A L ∅) {h r : ℕ}
    {g : Frame σ α υ ξ} (haw : Awaited c.frame L h r g) :
    ∃ s stack, A.thread h = some (.running s stack) := by
  cases hS.rel.others.parked haw.home (Set.notMem_empty h) with
  | called _ _ _ hthread => exact ⟨_, _, hthread⟩
  | io _ _ _ _ hthread => exact ⟨_, _, hthread⟩
  | join _ _ _ hthread => exact ⟨_, _, hthread⟩
  | finished _ hf hfinal =>
    cases haw.frame.symm.trans hf
    have hpending := haw.pending
    rw [hfinal] at hpending
    cases hpending

/-- **The threads are where the coroutines are**: `coroutine` says in which one a thread is. -/
structure Mirrors (setup : Setup α τ η) (prog : σ → Instr σ ω τ η υ ξ) (c : Runtime σ ω α τ υ ξ)
    (A : Threads σ ω υ ξ) (coroutine : ℕ → ℕ) : Prop where
  trace : A.trace = c.trace
  /-- No two threads are in one coroutine. -/
  apart : ∀ t t' s s' stack stack', A.thread t = some (.running s stack) →
    A.thread t' = some (.running s' stack') → coroutine t = coroutine t' → t = t'
  /-- The thread of a runner that is done has ended, with the outcome in its promise. -/
  done : ∀ h g, c.frame h = some g → g.param ≠ none → g.code = .final →
    ∃ o, g.promise.outcome = some o ∧ A.thread h = some (.done o)
  /-- The thread of the coroutine that is running is at the same point. -/
  running : ∀ r s, c.control = .exec r s →
    ∃ t stack, coroutine t = r ∧ A.thread t = some (.running s stack)
  /-- The thread of a coroutine that is suspended in an awaiter is at the `co_await` of I/O, with
  the handle and the token of the awaiter. -/
  io : ∀ r a, c.executor.suspendedIn r = some a → ∃ t s stack next, coroutine t = r
    ∧ A.thread t = some (.running s stack) ∧ prog s = .io (setup.handle a) (setup.token a) next
  /-- While no coroutine runs, no thread can go on by itself: each waits for I/O, and so does its
  coroutine, or for a thread that has not ended. -/
  idle : c.control = .idle → ∀ t s stack, A.thread t = some (.running s stack) →
    (∃ a next, c.executor.suspendedIn (coroutine t) = some a
      ∧ prog s = .io (setup.handle a) (setup.token a) next)
    ∨ ∃ h next s' stack', prog s = .join h next ∧ A.thread h = some (.running s' stack')

theorem Inv.mirrors (hI : Inv setup prog c A) : ∃ coroutine, Mirrors setup prog c A coroutine := by
  obtain ⟨L, busy, hS⟩ := hI.sim
  have hR := hS.rel
  have hroot : ∀ {t s stack}, A.thread t = some (.running s stack) → L.home t = some t := by
    intro t s stack hthread
    obtain ht | ⟨o, ho⟩ := hR.others.threads hthread
    · exact ht
    · cases ho
  refine ⟨L.leaf, {
    trace := hS.trace
    apart := fun t t' s s' stack stack' hthread hthread' hleaf => ?_
    done := fun h g hg hrunner hfinal => ?_
    running := fun r s hcontrol => ?_
    io := fun r a hin => ?_
    idle := fun hcontrol t s stack hthread => ?_ }⟩
  · have hhome := hR.kept.tree.leaf (hroot hthread)
    rw [hleaf, hR.kept.tree.leaf (hroot hthread')] at hhome
    exact (Option.some.inj hhome).symm
  · obtain ⟨o, hthread, houtcome⟩ :=
      hR.thread_of_done hg hrunner hfinal (notMem_busy_of_done hS hg hrunner hfinal)
    exact ⟨o, houtcome, hthread⟩
  · obtain ⟨t, f, -, he⟩ := hS.executing hcontrol
    exact ⟨t, _, he.leaf, he.thread⟩
  · obtain ⟨t, s, next, f, -, hleaf, -, -, hinstr, hthread⟩ :=
      hR.waiter hin (fun t _ hleaf => notMem_busy_of_suspended hS hin hleaf)
    exact ⟨t, s, _, next, hleaf, hthread, hinstr⟩
  · have hempty := hS.busy_eq_empty (.inl hcontrol)
    subst hempty
    cases hR.others.parked (hroot hthread) (Set.notMem_empty t) with
    | called _ _ hcaller => exact absurd hcaller (not_called hS hcontrol _)
    | io _ _ hin hinstr hth =>
      cases hthread.symm.trans hth
      exact .inl ⟨_, _, hin, hinstr⟩
    | join _ _ hinstr hth hawaited _ =>
      cases hthread.symm.trans hth
      obtain ⟨s', stack', hth'⟩ := awaited_running hS hawaited
      exact .inr ⟨_, _, s', stack', hinstr, hth'⟩
    | finished _ _ _ _ _ hth => cases hthread.symm.trans hth

/-- **The coroutines are threads.** For every careful run of the runtime there is a run of the
threads to which the same tasks and the same results of I/O come in the same order, and after
which the threads are where the coroutines are. -/
theorem refines_threads {inputs : List (Input σ τ η)}
    (hc : (observed setup prog).ReachableBy (fun d label => Careful prog d.1 label) (c, inputs)) :
    ∃ A coroutine, (Threads.observed prog).Reachable (A, inputs)
      ∧ Mirrors setup prog c A coroutine := by
  obtain ⟨A, hA, hI⟩ := inv_of_observed hc
  obtain ⟨coroutine, hmirrors⟩ := hI.mirrors
  exact ⟨A, coroutine, hA, hmirrors⟩

/-- A task that spawns a reader, goes on, and awaits the handle. The reader waits for
descriptor 5. Another task awaits a third one in place. A point is a place in the text and the
value of the variable `h`. -/
def readAndJoin : ℕ × ℕ → Instr (ℕ × ℕ) String ℕ ℕ ℕ String
  | (0, _) => .spawn (5, 0) (fun h => (1, h))
  | (1, h) => .effect "started" (2, h)
  | (2, h) => .join h (fun _ => (3, h))
  | (3, h) => .drop h (4, h)
  | (4, _) => .coReturn (.value 0)
  | (5, _) => .io 5 none (fun _ => (6, 0))
  | (6, _) => .effect "read" (7, 0)
  | (8, _) => .coAwait (7, 0) (fun _ => (7, 0))
  | _ => .coReturn (.value 7)

/-- Awaiters for descriptor 5. -/
def descriptor5 : Setup ℕ ℕ ℕ := ⟨fun _ => 5, fun _ => none⟩

/-- The task is detached and runs until it waits for the reader, and that for its descriptor. -/
def untilWaiting : List (Label (ℕ × ℕ) ℕ ℕ) :=
  [.detach (0, 0), .run, .run, .run, .run, .await 0 none, .run, .run, .run, .run]

/-- The descriptor is reported, and the reader runs to its end. -/
def untilRead : List (Label (ℕ × ℕ) ℕ ℕ) :=
  untilWaiting ++ [.trigger [0], .loop, .run, .run, .run]

/-- The task takes the result, drops the handle and ends. -/
def untilEnd : List (Label (ℕ × ℕ) ℕ ℕ) :=
  untilRead ++ [.run, .run, .run, .run]

/-- One task was started, one read had a result, and the thread of the reader has ended with what
it returned. -/
theorem refines_threads_readAndJoin :
    ∃ c A coroutine, (observed descriptor5 readAndJoin).run (.new, []) untilRead
        = some (c, [.task 0 (0, 0), .result 5 none .success])
      ∧ (Threads.observed readAndJoin).Reachable (A, [.task 0 (0, 0), .result 5 none .success])
      ∧ Mirrors descriptor5 readAndJoin c A coroutine
      ∧ c.trace = ["started", "read"] ∧ A.trace = ["started", "read"]
      ∧ A.thread 2 = some (.done (.value 7)) := by
  obtain ⟨c, hrun, htrace, g, hg, hrunner, hfinal, houtcome⟩ :
      ∃ c, (observed descriptor5 readAndJoin).run (.new, []) untilRead
          = some (c, [.task 0 (0, 0), .result 5 none .success])
        ∧ c.trace = ["started", "read"] ∧ ∃ g, c.frame 2 = some g ∧ g.param ≠ none
          ∧ g.code = .final ∧ g.promise.outcome = some (.value 7) :=
    ⟨_, rfl, rfl, _, rfl, by decide, rfl, rfl⟩
  obtain ⟨A, coroutine, hA, hmirrors⟩ :=
    refines_threads (.run_along .init (by decide +kernel) hrun)
  obtain ⟨o, ho, hthread⟩ := hmirrors.done 2 g hg hrunner hfinal
  cases houtcome.symm.trans ho
  exact ⟨c, A, coroutine, hrun, hA, hmirrors, htrace, hmirrors.trace.trans htrace, hthread⟩

/-- **Nothing undefined is done.** In every state of a careful run in which no stop is calling
its callbacks, whoever has control can go on: a coroutine to which control is transferred is
there and suspended, and what it takes out of a promise was stored there and not moved out; a
call of `resume` that returns has a caller; a coroutine that runs can do what it does next, if
it uses handles properly; and a coroutine that the loop takes from the ready queue is there, and
suspended in the awaiter it was pushed for. -/
theorem never_undefined (hc : (machine setup prog).ReachableBy (Careful prog) c)
    (hdraining : c.executor.draining = none) :
    (∀ target, c.control = .transfer target → ∃ c', c.step setup prog .run = some c')
      ∧ (∀ r s, c.control = .exec r s → c.Proper prog s →
        (∀ handle token next, prog s ≠ .io handle token next) →
          ∃ c', c.step setup prog .run = some c')
      ∧ (∀ r s handle token next a add, c.control = .exec r s → prog s = .io handle token next →
        (c.executor.awaiter a).phase = .idle → setup.handle a = handle → setup.token a = token →
          ∃ c', c.step setup prog (.await a add) = some c')
      ∧ (c.control = .idle → c.executor.ready ≠ [] → ∃ c', c.step setup prog .loop = some c') := by
  obtain ⟨A, hI⟩ := inv_of_reachable hc
  obtain ⟨L, busy, hS⟩ := hI.sim
  have hrun : c.step setup prog .run = c.run prog := by
    unfold step
    rw [hdraining]
  refine ⟨fun target hcontrol => ?_, fun r s hcontrol hproper hio => ?_,
    fun r s handle token next a add hcontrol hinstr hidle hhandle htoken => ?_,
    fun hcontrol hready => ?_⟩
  · rw [hrun]
    unfold run
    rw [hcontrol]
    cases target with
    | some r =>
      obtain ⟨c', -, -, -, hstep, -⟩ := hS.resume hcontrol
      exact ⟨c', hstep⟩
    | none =>
      obtain ⟨c', -, -, -, hstep, -⟩ := hS.returned hcontrol
      exact ⟨c', hstep⟩
  · rw [hrun]
    unfold run
    rw [hcontrol]
    obtain ⟨c', -, -, -, hstep, -⟩ := hS.exec hcontrol hproper hio
    exact ⟨c', hstep⟩
  · subst hhandle htoken
    obtain ⟨c', -, -, -, hstep, -⟩ := hS.awaitIo setup hcontrol hinstr hdraining hidle add
    refine ⟨c', ?_⟩
    unfold step
    rw [hdraining]
    dsimp only
    rw [hcontrol]
    dsimp only
    rw [hinstr]
    dsimp only
    rw [if_pos ⟨hidle, rfl, rfl⟩]
    exact hstep
  · obtain ⟨c', -, -, -, hstep, -⟩ := hS.loop hcontrol hdraining hI.books.books hI.owned hready
    refine ⟨c', ?_⟩
    unfold step
    rw [hdraining]
    dsimp only
    rw [hcontrol]
    exact hstep

/-- When the descriptor is reported, the loop can resume the reader. -/
theorem never_undefined_readAndJoin :
    ∃ c c', (machine descriptor5 readAndJoin).run .new (untilWaiting ++ [.trigger [0]]) = some c
      ∧ c.step descriptor5 readAndJoin .loop = some c' := by
  obtain ⟨c, hrun, hdraining, hcontrol, hready⟩ :
      ∃ c, (machine descriptor5 readAndJoin).run .new (untilWaiting ++ [.trigger [0]]) = some c
        ∧ c.executor.draining = none ∧ c.control = .idle ∧ c.executor.ready ≠ [] :=
    ⟨_, rfl, rfl, rfl, by decide⟩
  obtain ⟨-, -, -, hloop⟩ :=
    never_undefined (.run_along .init (by decide +kernel) hrun) hdraining
  obtain ⟨c', hstep⟩ := hloop hcontrol hready
  exact ⟨c, c', hrun, hstep⟩

/-- The executor holds no coroutine, if there is none in its queue and no I/O is pending. -/
theorem Inv.suspendedIn_eq_none (hI : Inv setup prog c A) (hready : c.executor.ready = [])
    (hpending : c.executor.pendingIo = 0) (r : ℕ) : c.executor.suspendedIn r = none := by
  cases hin : c.executor.suspendedIn r with
  | none => rfl
  | some a =>
    obtain ⟨hphase, -⟩ := ((hI.books.books.fits a).suspendedIn_iff r).mp hin
    obtain hregistered | hqueued := hI.books.remembered a hphase
    · obtain ⟨registered, hmem, hcount⟩ := hI.books.books.count
      rw [hpending] at hcount
      have hcard : registered.card = 0 := by exact_mod_cast hcount.symm
      have hmember := (hmem a).mpr hregistered
      rw [Finset.card_eq_zero.mp hcard] at hmember
      cases hmember
    · have howner := (hI.books.books.fits a).mem_owners.mpr ⟨hphase, hqueued⟩
      rw [hready] at howner
      cases howner

/-- **No task is forgotten.** When `run_until` finds the ready queue empty and no I/O pending,
there is a run of the threads with the same effects, to which the same tasks and the same results
of I/O came in the same order, and which cannot go on: every task that was started has a thread,
and every thread has ended, or is at the `co_await` of a handle whose thread has not ended
either. -/
theorem drained {inputs : List (Input σ τ η)}
    (hc : (observed setup prog).ReachableBy (fun d label => Careful prog d.1 label) (c, inputs))
    (hcontrol : c.control = .idle) (hready : c.executor.ready = [])
    (hpending : c.executor.pendingIo = 0) :
    ∃ A, (Threads.observed prog).Reachable (A, inputs) ∧ A.trace = c.trace
      ∧ (∀ t s, .task t s ∈ inputs → A.thread t ≠ none)
      ∧ ∀ t s stack, A.thread t = some (.running s stack) →
        ∃ h next s' stack', prog s = .join h next ∧ A.thread h = some (.running s' stack') := by
  obtain ⟨A, hA, hI⟩ := inv_of_observed hc
  obtain ⟨coroutine, hmirrors⟩ := hI.mirrors
  refine ⟨A, hA, hmirrors.trace, fun t s ht => Threads.thread_of_input hA ht,
    fun t s stack hthread => ?_⟩
  obtain ⟨a, next, hin, -⟩ | hjoin := hmirrors.idle hcontrol t s stack hthread
  · rw [hI.suspendedIn_eq_none hready hpending] at hin
    cases hin
  · exact hjoin

/-- In the end the thread of the task has ended. -/
theorem drained_readAndJoin :
    ∃ c A, (observed descriptor5 readAndJoin).run (.new, []) untilEnd
        = some (c, [.task 0 (0, 0), .result 5 none .success])
      ∧ c.trace = ["started", "read"] ∧ c.executor.ready = [] ∧ c.executor.pendingIo = 0
      ∧ (Threads.observed readAndJoin).Reachable (A, [.task 0 (0, 0), .result 5 none .success])
      ∧ A.trace = c.trace ∧ A.thread 0 ≠ none
      ∧ ∀ t s stack, A.thread t = some (.running s stack) →
        ∃ h next, readAndJoin s = .join h next := by
  obtain ⟨c, hrun, htrace, hcontrol, hready, hpending⟩ :
      ∃ c, (observed descriptor5 readAndJoin).run (.new, []) untilEnd
          = some (c, [.task 0 (0, 0), .result 5 none .success])
        ∧ c.trace = ["started", "read"] ∧ c.control = .idle ∧ c.executor.ready = []
        ∧ c.executor.pendingIo = 0 :=
    ⟨_, rfl, rfl, rfl, rfl, rfl⟩
  obtain ⟨A, hA, htrace', hstarted, hthreads⟩ :=
    drained (.run_along .init (by decide +kernel) hrun) hcontrol hready hpending
  refine ⟨c, A, hrun, htrace, hready, hpending, hA, htrace', hstarted 0 (0, 0) (by decide),
    fun t s stack hthread => ?_⟩
  obtain ⟨h, next, -, -, hinstr, -⟩ := hthreads t s stack hthread
  exact ⟨h, next, hinstr⟩

/-- **What is left when the loop has nothing to do**, and no coroutine waits for a handle: a
thread that has frames has ended, and a handle has its runner. -/
theorem Inv.finished (hI : Inv setup prog c A) (hS : Sim setup prog c A L ∅)
    (hcontrol : c.control = .idle) (hready : c.executor.ready = [])
    (hpending : c.executor.pendingIo = 0)
    (hjoins : ∀ r f h next, c.frame r = some f → f.code ≠ .awaitingSpawn h next) {t : ℕ}
    (ht : L.home t = some t) : L.leaf t = t ∧ ∃ g, c.frame t = some g
      ∧ g.code = .final ∧ g.promise.detached = false ∧ g.param ≠ none := by
  cases hS.rel.others.parked ht (Set.notMem_empty t) with
  | called _ _ hcaller => exact absurd hcaller (not_called hS hcontrol _)
  | io _ _ hin =>
    rw [hI.suspendedIn_eq_none hready hpending] at hin
    cases hin
  | join hf hcode => exact absurd hcode (hjoins _ _ _ _ hf)
  | finished hleaf hf hfinal hrunner hheld => exact ⟨hleaf, _, hf, hfinal, hheld, hrunner⟩

/-- **No frame is leaked.** When `run_until` finds the ready queue empty and no I/O pending, and
no coroutine waits for a handle, every frame that is left is that of a runner that is done and
whose handle was not dropped, or that of its task. -/
theorem no_leak (hc : (machine setup prog).ReachableBy (Careful prog) c)
    (hcontrol : c.control = .idle) (hready : c.executor.ready = [])
    (hpending : c.executor.pendingIo = 0)
    (hjoins : ∀ r f h next, c.frame r = some f → f.code ≠ .awaitingSpawn h next)
    {x : ℕ} {f : Frame σ α υ ξ} (hf : c.frame x = some f) :
    ∃ h g, c.frame h = some g ∧ g.code = .final ∧ g.promise.detached = false ∧ g.param ≠ none
      ∧ (x = h ∨ g.param = some x) := by
  obtain ⟨A, hI⟩ := inv_of_reachable hc
  obtain ⟨L, busy, hS⟩ := hI.sim
  have hempty := hS.busy_eq_empty (.inl hcontrol)
  subst hempty
  have hkept := hS.rel.kept
  have hfinished : ∀ {t}, L.home t = some t → L.leaf t = t ∧ ∃ g, c.frame t = some g
      ∧ g.code = .final ∧ g.promise.detached = false ∧ g.param ≠ none :=
    fun ht => hI.finished hS hcontrol hready hpending hjoins ht
  -- a frame is one of a thread, or the parameter of a runner
  obtain hx | ⟨t, ht⟩ | ⟨p, g, hg, hparam⟩ := hkept.owned hf
  · exact absurd hx (Set.notMem_empty x)
  · obtain ⟨hleaf, g, hg, hfinal, hheld, hrunner⟩ := hfinished (hkept.tree.root ht)
    exact ⟨t, g, hg, hfinal, hheld, hrunner, .inl (hkept.tree.eq_of_leaf hleaf ht)⟩
  · have hhome := hkept.home_runner hg (by rw [hparam]; simp)
    obtain ⟨-, g', hg', hfinal, hheld, hrunner⟩ := hfinished hhome
    cases hg.symm.trans hg'
    exact ⟨p, g, hg, hfinal, hheld, hrunner, .inr hparam⟩

/-- A task is spawned from outside that awaits another, then one is detached, then a reader is
spawned, and its handle is dropped while it waits. All of them run to their end. -/
def threeTasks : List (Label (ℕ × ℕ) ℕ ℕ) :=
  [.spawn (8, 0), .run, .run, .run, .run, .run, .run, .run, .run, .run,
    .detach (6, 0), .run, .run, .run, .run,
    .spawn (5, 0), .run, .run, .await 0 none, .run, .drop 5, .trigger [0], .loop, .run, .run, .run,
    .run]

/-- The frames of the task that was awaited, of the one that was detached and of the one whose
handle was dropped are gone. What is left is what the other handle holds. -/
theorem no_leak_threeTasks :
    ∃ c, (machine descriptor5 readAndJoin).run .new threeTasks = some c ∧ c.next = 6
      ∧ c.frame 2 = none ∧ c.frame 3 = none ∧ c.frame 4 = none ∧ c.frame 5 = none
      ∧ ∃ f, c.frame 0 = some f ∧ ∃ h g, c.frame h = some g ∧ g.code = .final
        ∧ g.promise.detached = false ∧ g.param ≠ none ∧ (0 = h ∨ g.param = some 0) := by
  obtain ⟨c, hrun, hcontrol, hready, hpending, hdone, hnext, h2, h3, h4, h5, hsome⟩ :
      ∃ c ∈ (machine descriptor5 readAndJoin).run .new threeTasks,
        c.control = .idle ∧ c.executor.ready = [] ∧ c.executor.pendingIo = 0
        ∧ (∀ r < 6, ∀ f ∈ c.frame r, f.code.done = true)
        ∧ c.next = 6 ∧ c.frame 2 = none ∧ c.frame 3 = none ∧ c.frame 4 = none ∧ c.frame 5 = none
        ∧ (c.frame 0).isSome = true := by
    decide +kernel
  obtain ⟨f, hf⟩ := Option.isSome_iff_exists.mp hsome
  have hc : (machine descriptor5 readAndJoin).ReachableBy (Careful readAndJoin) c :=
    .run_along .init (by decide +kernel) hrun
  refine ⟨c, hrun, hnext, h2, h3, h4, h5, f, hf,
    no_leak hc hcontrol hready hpending (fun r f h next hf hcode => ?_) hf⟩
  have hfinal := Code.done_iff.mp (hdone r (hnext ▸ frame_lt hc hf) f hf)
  cases hfinal.symm.trans hcode

end Runtime

end Coroutines

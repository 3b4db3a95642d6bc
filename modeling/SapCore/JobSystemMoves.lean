import SapCore.JobSystem

/-!
# The steps of the job system

What a step can be is said once: `Moves` has one case for each access that the
threads make, with the memory it leaves, and `step_cases` says that there are no
others. Every invariant of the job system is proved over those cases.

Most accesses of `submit` move one thread from one place to another and touch
little else, whether the thread is a client or a worker inside a job. The first
part of the module says what `State.setCall` leaves alone, so that an invariant
need not look at which of the two it is.
-/

namespace JobSystem

open SpscQueue (tryPush tryPop)

/-! ## What a worker has in hand -/

/-- The call of `try_pop` a worker is inside. -/
def Worker.popping : Worker → Option (SpscQueue.Pop Job)
  | .checkStop => none
  | .pop _ pc => some pc
  | .running _ _ _ => none
  | .subtract _ _ => none
  | .exited => none

/-- The job a worker runs. -/
def Worker.holding : Worker → List Job
  | .checkStop => []
  | .pop _ _ => []
  | .running _ job _ => [job]
  | .subtract _ _ => []
  | .exited => []

/-- The job a worker has finished and not yet subtracted. -/
def Worker.owing : Worker → List Job
  | .checkStop => []
  | .pop _ _ => []
  | .running _ _ _ => []
  | .subtract _ job => [job]
  | .exited => []

@[simp] theorem Worker.popping_setCall (call : Option Submit) (pc : Worker) :
    (pc.setCall call).popping = pc.popping := by cases pc <;> rfl

@[simp] theorem Worker.holding_setCall (call : Option Submit) (pc : Worker) :
    (pc.setCall call).holding = pc.holding := by cases pc <;> rfl

@[simp] theorem Worker.owing_setCall (call : Option Submit) (pc : Worker) :
    (pc.setCall call).owing = pc.owing := by cases pc <;> rfl

@[simp] theorem Worker.setCall_eq_exited (call : Option Submit) (pc : Worker) :
    pc.setCall call = .exited ↔ pc = .exited := by cases pc <;> simp [Worker.setCall]

@[simp] theorem Client.call_ofCall (call : Option Submit) : (Client.ofCall call).call = call := by
  cases call <;> rfl

/-! ## Moving a thread inside `submit` -/

section SetCall

variable (s : State) (call : Option Submit) (τ : Thread)

@[simp] theorem State.setCall_queues : (s.setCall call τ).queues = s.queues := by
  cases τ <;> rfl

@[simp] theorem State.setCall_pendingJobs :
    (s.setCall call τ).pendingJobs = s.pendingJobs := by cases τ <;> rfl

@[simp] theorem State.setCall_stopRequested :
    (s.setCall call τ).stopRequested = s.stopRequested := by cases τ <;> rfl

@[simp] theorem State.setCall_submitted : (s.setCall call τ).submitted = s.submitted := by
  cases τ <;> rfl

@[simp] theorem State.setCall_accepted : (s.setCall call τ).accepted = s.accepted := by
  cases τ <;> rfl

@[simp] theorem State.setCall_rejected : (s.setCall call τ).rejected = s.rejected := by
  cases τ <;> rfl

@[simp] theorem State.setCall_pushed : (s.setCall call τ).pushed = s.pushed := by
  cases τ <;> rfl

@[simp] theorem State.setCall_popped : (s.setCall call τ).popped = s.popped := by
  cases τ <;> rfl

@[simp] theorem State.setCall_finished : (s.setCall call τ).finished = s.finished := by
  cases τ <;> rfl

@[simp] theorem State.setCall_subtracted : (s.setCall call τ).subtracted = s.subtracted := by
  cases τ <;> rfl

@[simp] theorem State.setCall_client_self (t : ℕ) :
    (s.setCall call (.client t)).clients t = Client.ofCall call := by
  show Function.update s.clients t (Client.ofCall call) t = _
  rw [Function.update_self]

/-- What does not look at a running job's calls of `submit` is the same of every
worker. -/
theorem State.setCall_workers {β : Type} {f : Worker → β}
    (hf : ∀ pc, f (pc.setCall call) = f pc) (w : ℕ) :
    f ((s.setCall call τ).workers w) = f (s.workers w) := by
  cases τ with
  | client t => rfl
  | worker v =>
    show f (Function.update s.workers v _ w) = _
    rw [Function.update_apply]
    split
    · rename_i hw
      rw [hf, hw]
    · rfl

@[simp] theorem State.setCall_popping (w : ℕ) :
    ((s.setCall call τ).workers w).popping = (s.workers w).popping :=
  s.setCall_workers call τ (Worker.popping_setCall call) w

@[simp] theorem State.setCall_holding (w : ℕ) :
    ((s.setCall call τ).workers w).holding = (s.workers w).holding :=
  s.setCall_workers call τ (Worker.holding_setCall call) w

@[simp] theorem State.setCall_owing (w : ℕ) :
    ((s.setCall call τ).workers w).owing = (s.workers w).owing :=
  s.setCall_workers call τ (Worker.owing_setCall call) w

@[simp] theorem State.setCall_exited (w : ℕ) :
    (s.setCall call τ).workers w = .exited ↔ s.workers w = .exited := by
  refine Eq.to_iff (State.setCall_workers (f := fun pc => pc = .exited) s call τ ?_ w)
  intro pc
  exact propext (Worker.setCall_eq_exited call pc)

end SetCall

variable {n : ℕ} {s s' : State} {τ τ' : Thread} {call : Option Submit}

/-- A thread that has a place inside `submit`, or can have one: any client, and
a worker that runs a job. -/
def State.InJob (s : State) : Thread → Prop
  | .client _ => True
  | .worker w => ∃ draining job call, s.workers w = .running draining job call

theorem State.inJob_of_call {c : Submit} (h : s.call τ = some c) : s.InJob τ := by
  cases τ with
  | client t => exact trivial
  | worker w =>
    change (s.workers w).call = some c at h
    cases hw : s.workers w with
    | running draining job call => exact ⟨draining, job, call, hw⟩
    | _ => simp [hw, Worker.call] at h

theorem State.inJob_of_canSubmit (h : s.canSubmit n τ = true) : s.InJob τ := by
  cases τ with
  | client t => exact trivial
  | worker w =>
    simp only [State.canSubmit, Bool.and_eq_true] at h
    cases hw : s.workers w with
    | running draining job call => exact ⟨draining, job, call, hw⟩
    | _ => simp [hw] at h

theorem State.call_of_canSubmit (h : s.canSubmit n τ = true) : s.call τ = none := by
  cases τ with
  | client t =>
    have hidle : s.clients t = .idle := by simpa [State.canSubmit] using h
    rw [State.call, hidle]
    rfl
  | worker w =>
    simp only [State.canSubmit, Bool.and_eq_true] at h
    show (s.workers w).call = none
    split at h
    · rename_i hw
      rw [hw]
      rfl
    · simp at h

/-- The thread that is moved is where it is put. -/
theorem State.call_setCall_self (h : s.InJob τ) : (s.setCall call τ).call τ = call := by
  cases τ with
  | client t =>
    show (Function.update s.clients t _ t).call = call
    rw [Function.update_self, Client.call_ofCall]
  | worker w =>
    obtain ⟨draining, job, c, hw⟩ := h
    show (Function.update s.workers w _ w).call = call
    rw [Function.update_self, hw]
    rfl

/-- **Every other thread is where it was.** -/
theorem State.call_setCall_of_ne (h : τ' ≠ τ) : (s.setCall call τ).call τ' = s.call τ' := by
  cases τ with
  | client t =>
    cases τ' with
    | client u =>
      show (Function.update s.clients t _ u).call = _
      rw [Function.update_of_ne (fun hu => h (congrArg _ hu))]
      rfl
    | worker w => rfl
  | worker v =>
    cases τ' with
    | client u => rfl
    | worker w =>
      show (Function.update s.workers v _ w).call = _
      rw [Function.update_of_ne (fun hw => h (congrArg _ hw))]
      rfl

/-- A worker that moves outside `submit` moves no thread inside it. -/
theorem State.call_of_worker {w : ℕ} {pc : Worker}
    (hworkers : s'.workers = Function.update s.workers w pc) (hclients : s'.clients = s.clients)
    (hcall : pc.call = (s.workers w).call) : s'.call = s.call := by
  funext τ
  cases τ with
  | client t => rw [State.call, State.call, hclients]
  | worker v =>
    rw [State.call, State.call, hworkers, Function.update_apply]
    split
    · rename_i hv
      rw [hcall, hv]
    · rfl

/-- Nor does a client. -/
theorem State.call_of_client {t : ℕ} {pc : Client}
    (hclients : s'.clients = Function.update s.clients t pc) (hworkers : s'.workers = s.workers)
    (hcall : pc.call = (s.clients t).call) : s'.call = s.call := by
  funext τ
  cases τ with
  | client u =>
    rw [State.call, State.call, hclients, Function.update_apply]
    split
    · rename_i hu
      rw [hcall, hu]
    · rfl
  | worker w => rw [State.call, State.call, hworkers]

/-! ## What a step can be -/

/-- The memory after an access of `try_push` to queue `w`. -/
def State.storePush (s : State) (w : ℕ) (q : SpscQueue Job) (pc : SpscQueue.Push Job) : State :=
  { s with
    queues := Function.update s.queues w q
    pushed := Function.update s.pushed w (s.pushed w ++ pc.published) }

/-- The memory after an access of `try_pop` by worker `w`, which then stands at
`pc'`. -/
def State.storePop (s : State) (w : ℕ) (q : SpscQueue Job) (pc : SpscQueue.Pop Job)
    (pc' : Worker) : State :=
  { s with
    queues := Function.update s.queues w q
    popped := Function.update s.popped w (s.popped w ++ pc.taken)
    workers := Function.update s.workers w pc' }

/-- **What a client does outside `submit`**: the place it goes to, and the stop
flags after that. -/
inductive State.ClientMoves (n : ℕ) (s : State) (t : ℕ) :
    Action → Client → (ℕ → Bool) → Prop where
  /-- `wait_idle` is called. -/
  | waitIdle (hpc : s.clients t = .idle) :
    ClientMoves n s t (.waitIdle t) (.waiting s.accepted) s.stopRequested
  /-- `wait_idle` loads zero and returns. -/
  | idle {since : List Job} (hpc : s.clients t = .waiting since) (hzero : s.pendingJobs = 0) :
    ClientMoves n s t (.next (.client t)) .idle s.stopRequested
  /-- `wait_idle` loads something else. -/
  | spin {since : List Job} (hpc : s.clients t = .waiting since) (hne : s.pendingJobs ≠ 0) :
    ClientMoves n s t (.next (.client t)) (.waiting since) s.stopRequested
  /-- The destructor is called. -/
  | destroy (hpc : s.clients t = .idle) :
    ClientMoves n s t (.destroy t) (.stopping 0) s.stopRequested
  /-- It asks thread `i` to stop. -/
  | stop {i : ℕ} (hpc : s.clients t = .stopping i) (hi : i < n) :
    ClientMoves n s t (.next (.client t)) (.stopping (i + 1))
      (Function.update s.stopRequested i true)
  /-- It has asked all. -/
  | stopped {i : ℕ} (hpc : s.clients t = .stopping i) (hi : ¬ i < n) :
    ClientMoves n s t (.next (.client t)) (.joining 0) s.stopRequested
  /-- It joins thread `i`, which has exited. -/
  | join {i : ℕ} (hpc : s.clients t = .joining i) (hi : i < n) (hw : s.workers i = .exited) :
    ClientMoves n s t (.next (.client t)) (.joining (i + 1)) s.stopRequested
  /-- It has joined all. -/
  | joined {i : ℕ} (hpc : s.clients t = .joining i) (hi : ¬ i < n) :
    ClientMoves n s t (.next (.client t)) .destroyed s.stopRequested

theorem State.ClientMoves.call_eq {t : ℕ} {a : Action} {pc : Client} {stop : ℕ → Bool}
    (h : s.ClientMoves n t a pc stop) : pc.call = (s.clients t).call := by
  cases h <;> simp [*, Client.call]

/-- **What a step can be**: one case for each access that the threads make, with
the memory it leaves. -/
inductive Moves (n : ℕ) (s : State) : Action → State → Prop where
  /-- A thread calls `submit`. -/
  | submit {τ : Thread} (hcan : s.canSubmit n τ = true) :
    Moves n s (.submit τ) ({ s with submitted := s.submitted + 1 }.setCall
      (some (.fetchQueue (s.submitted + 1))) τ)
  /-- `submit` fetches the queue to start with. -/
  | fetch {τ : Thread} {job : Job} (hcall : s.call τ = some (.fetchQueue job)) :
    Moves n s (.next τ) ({ s with nextQueue := s.nextQueue + 1 }.setCall
      (some (.push (s.nextQueue.toNat % n) 0 (.loadHead job))) τ)
  /-- An access of `try_push` that does not end it. -/
  | push {τ : Thread} {start i : ℕ} {pc pc' : SpscQueue.Push Job} {q : SpscQueue Job}
    (hcall : s.call τ = some (.push start i pc))
    (htry : tryPush queueCapacity (s.queues (queueIndex n start i)) pc = (q, .inl pc')) :
    Moves n s (.next τ) ((s.storePush (queueIndex n start i) q pc).setCall
      (some (.push start i pc')) τ)
  /-- `try_push` returns `true`. -/
  | publish {τ : Thread} {start i : ℕ} {pc : SpscQueue.Push Job} {q : SpscQueue Job}
    (hcall : s.call τ = some (.push start i pc))
    (htry : tryPush queueCapacity (s.queues (queueIndex n start i)) pc = (q, .inr true)) :
    Moves n s (.next τ) ((s.storePush (queueIndex n start i) q pc).setCall
      (some (.count pc.item)) τ)
  /-- `try_push` returns `false`, and there is another queue to try. -/
  | full {τ : Thread} {start i : ℕ} {pc : SpscQueue.Push Job} {q : SpscQueue Job}
    (hcall : s.call τ = some (.push start i pc))
    (htry : tryPush queueCapacity (s.queues (queueIndex n start i)) pc = (q, .inr false))
    (hi : i + 1 < n) :
    Moves n s (.next τ) ((s.storePush (queueIndex n start i) q pc).setCall
      (some (.push start (i + 1) (.loadHead pc.item))) τ)
  /-- `try_push` returns `false` on the last queue, and `submit` with it. -/
  | reject {τ : Thread} {start i : ℕ} {pc : SpscQueue.Push Job} {q : SpscQueue Job}
    (hcall : s.call τ = some (.push start i pc))
    (htry : tryPush queueCapacity (s.queues (queueIndex n start i)) pc = (q, .inr false)) :
    Moves n s (.next τ) ({ s.storePush (queueIndex n start i) q pc with
      rejected := s.rejected ++ [pc.item] }.setCall none τ)
  /-- `submit` counts the job and returns `true`. -/
  | count {τ : Thread} {job : Job} (hcall : s.call τ = some (.count job)) :
    Moves n s (.next τ) ({ s with
      pendingJobs := s.pendingJobs + 1, accepted := s.accepted ++ [job] }.setCall none τ)
  /-- A worker looks for a stop request. -/
  | check {w : ℕ} (hw : w < n) (hpc : s.workers w = .checkStop) :
    Moves n s (.next (.worker w)) { s with
      workers := Function.update s.workers w (.pop (s.stopRequested w) .loadTail) }
  /-- An access of `try_pop` that does not end it. -/
  | pop {w : ℕ} {draining : Bool} {pc pc' : SpscQueue.Pop Job} {q : SpscQueue Job} (hw : w < n)
    (hpc : s.workers w = .pop draining pc)
    (htry : tryPop queueCapacity (s.queues w) pc = (q, .inl pc')) :
    Moves n s (.next (.worker w)) (s.storePop w q pc (.pop draining pc'))
  /-- `try_pop` returns a job. -/
  | take {w : ℕ} {draining : Bool} {pc : SpscQueue.Pop Job} {q : SpscQueue Job} {job : Job}
    (hw : w < n) (hpc : s.workers w = .pop draining pc)
    (htry : tryPop queueCapacity (s.queues w) pc = (q, .inr (some job))) :
    Moves n s (.next (.worker w)) (s.storePop w q pc (.running draining job none))
  /-- `try_pop` finds the queue empty. -/
  | empty {w : ℕ} {draining : Bool} {pc : SpscQueue.Pop Job} {q : SpscQueue Job} (hw : w < n)
    (hpc : s.workers w = .pop draining pc)
    (htry : tryPop queueCapacity (s.queues w) pc = (q, .inr none)) :
    Moves n s (.next (.worker w))
      (s.storePop w q pc (if draining then .exited else .checkStop))
  /-- A job ends. -/
  | finish {w : ℕ} {draining : Bool} {job : Job} (hw : w < n)
    (hpc : s.workers w = .running draining job none) :
    Moves n s (.next (.worker w)) { s with
      finished := Function.update s.finished w (s.finished w ++ [job])
      workers := Function.update s.workers w (.subtract draining job) }
  /-- A worker subtracts the job it has run. -/
  | subtract {w : ℕ} {draining : Bool} {job : Job} (hw : w < n)
    (hpc : s.workers w = .subtract draining job) :
    Moves n s (.next (.worker w)) { s with
      pendingJobs := s.pendingJobs - 1
      subtracted := Function.update s.subtracted w (s.subtracted w ++ [job])
      workers := Function.update s.workers w
        (if draining then .pop true .loadTail else .checkStop) }
  /-- A client moves outside `submit`. -/
  | client {t : ℕ} {a : Action} {pc : Client} {stop : ℕ → Bool}
    (hmove : s.ClientMoves n t a pc stop) :
    Moves n s a { s with
      stopRequested := stop, clients := Function.update s.clients t pc }

/-- The cases of a thread inside `submit`. -/
theorem submit_cases {c : Submit} (hcall : s.call τ = some c) :
    Moves n s (.next τ) ((submit n s c).1.setCall (submit n s c).2.getLeft? τ) := by
  cases c with
  | fetchQueue job => exact Moves.fetch hcall
  | count job => exact Moves.count hcall
  | push start i pc =>
    rcases htry : tryPush queueCapacity (s.queues (queueIndex n start i)) pc with ⟨q, out⟩
    cases out with
    | inl pc' =>
      simp only [submit, htry]
      exact Moves.push hcall htry
    | inr ok =>
      cases ok with
      | true =>
        simp only [submit, htry]
        exact Moves.publish hcall htry
      | false =>
        by_cases hi : i + 1 < n
        · simp only [submit, htry, if_pos hi]
          exact Moves.full hcall htry hi
        · simp only [submit, htry, if_neg hi]
          exact Moves.reject hcall htry

/-- The cases of a worker outside `submit`. -/
theorem worker_cases {w : ℕ} (hw : w < n) (hcall : s.call (.worker w) = none)
    (h : workerMain s w = some s') : Moves n s (.next (.worker w)) s' := by
  unfold workerMain at h
  split at h
  · rename_i hpc
    cases h
    exact Moves.check hw hpc
  · rename_i draining pc hpc
    rcases htry : tryPop queueCapacity (s.queues w) pc with ⟨q, out⟩
    rw [htry] at h
    cases h
    cases out with
    | inl pc' => exact Moves.pop hw hpc htry
    | inr result =>
      cases result with
      | none => exact Moves.empty hw hpc htry
      | some job => exact Moves.take hw hpc htry
  · rename_i draining job call hpc
    -- a job inside a call of `submit` does not end
    have hnone : call = none := by
      rw [State.call, hpc] at hcall
      exact hcall
    subst hnone
    cases h
    exact Moves.finish hw hpc
  · rename_i draining job hpc
    cases h
    exact Moves.subtract hw hpc
  · cases h

/-- The cases of a client outside `submit`. -/
theorem client_cases {t : ℕ} (h : clientNext n s t = some s') :
    Moves n s (.next (.client t)) s' := by
  unfold clientNext at h
  split at h
  · rename_i since hpc
    cases h
    split
    · rename_i hzero
      exact Moves.client (.idle hpc hzero)
    · rename_i hne
      exact Moves.client (.spin hpc hne)
  · rename_i i hpc
    split at h
    · rename_i hi
      cases h
      exact Moves.client (.stop hpc hi)
    · rename_i hi
      cases h
      exact Moves.client (.stopped hpc hi)
  · rename_i i hpc
    split at h
    · rename_i hi
      split at h
      · rename_i hw
        cases h
        exact Moves.client (.join hpc hi hw)
      · cases h
    · rename_i hi
      cases h
      exact Moves.client (.joined hpc hi)
  · cases h

/-- **A step is one of the cases.** -/
theorem step_cases {a : Action} (h : step n s a = some s') : Moves n s a s' := by
  cases a with
  | submit τ =>
    rw [step] at h
    split at h
    · rename_i hcan
      cases h
      exact Moves.submit hcan
    · cases h
  | waitIdle t =>
    rw [step] at h
    split at h
    · rename_i hpc
      cases h
      exact Moves.client (.waitIdle hpc)
    · cases h
  | destroy t =>
    rw [step] at h
    split at h
    · rename_i hpc
      cases h
      exact Moves.client (.destroy hpc)
    · cases h
  | next τ =>
    simp only [step] at h
    split at h
    · rename_i call hcall
      cases h
      exact submit_cases hcall
    · cases τ with
      | client t => exact client_cases h
      | worker w =>
        rename_i hcall
        simp only at h
        split at h
        · rename_i hw
          exact worker_cases hw hcall h
        · cases h

end JobSystem

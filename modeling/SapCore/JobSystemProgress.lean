import SapCore.JobSystemExactlyOnce

/-!
# What a thread brings about by itself

Nothing in `submit` or `worker_main` blocks: a thread that is given its turns
gets on, whatever the others do or leave undone. A call of `submit` returns
after at most all queues have been tried (`submit_returns`), a worker runs down
its queue (`worker_runsDown`), and a worker that has been asked to stop exits
(`worker_exits`). Each is an application of the progress rule to a measure: how
much of the call is left (`Submit.rank`), and how much of the queue and of the
round through `worker_main` (`Worker.rank`).

A worker that moves while the others stand still may pass another thread in the
middle of a push to the same queue, and the rings are then not what `Sound`
says. They still are as the worker sees them, which is the state with the other
threads taken out of `submit` (`State.alone`): the worker's steps are the same
there (`step_alone`).
-/

namespace JobSystem

open SpscQueue (tryPush tryPop)

variable {n : ℕ} {s s' : State} {τ : Thread} {w : ℕ} {j : Job}

/-- A thread leads from one state to another by its own steps. -/
abbrev LeadsAlone (n : ℕ) (τ : Thread) : State → State → Prop :=
  (machine n).Leads (fun a => a = .next τ)

/-! ## A call of `submit` returns -/

/-- What is left of a call of `try_push`. -/
def pushRank : SpscQueue.Push Job → ℕ
  | .loadHead _ => 4
  | .loadTail _ _ => 3
  | .writeSlot _ _ => 2
  | .storeHead _ _ => 1

/-- What is left of a call of `submit`. -/
def Submit.rank (n : ℕ) : Submit → ℕ
  | .fetchQueue _ => 4 * n + 6
  | .push _ i pc => 4 * (n - i) + pushRank pc + 1
  | .count _ => 1

/-- **Every access of `submit` leaves less of it.** -/
theorem rank_submit_lt {c c' : Submit} (h : (submit n s c).2 = .inl c') :
    c'.rank n < c.rank n := by
  cases c with
  | fetchQueue job =>
    cases h
    simp [Submit.rank, pushRank]
  | count job => cases h
  | push start i pc =>
    cases pc with
    | loadHead item =>
      cases h
      simp [Submit.rank, pushRank]
    | loadTail item head =>
      by_cases hfull : SpscQueue.next queueCapacity head = (s.queues (queueIndex n start i)).tail
      · by_cases hi : i + 1 < n
        · simp only [submit, tryPush, if_pos hfull, if_pos hi] at h
          cases h
          simp only [Submit.rank, pushRank]
          omega
        · simp only [submit, tryPush, if_pos hfull, if_neg hi] at h
          cases h
      · simp only [submit, tryPush, if_neg hfull] at h
        cases h
        simp [Submit.rank, pushRank]
    | writeSlot item head =>
      cases h
      simp [Submit.rank, pushRank]
    | storeHead item head =>
      cases h
      simp [Submit.rank, pushRank]

theorem Submit.rank_pos (n : ℕ) (c : Submit) : 0 < c.rank n := by
  cases c <;> simp [Submit.rank]

/-- What is left of the call a thread is inside. -/
def State.callRank (n : ℕ) (τ : Thread) (s : State) : ℕ :=
  match s.call τ with
  | some c => c.rank n
  | none => 0

/-- A thread that is inside `submit` or where `submit` returns to. -/
def State.AtSubmit (s : State) : Thread → Prop
  | .client t => s.clients t = Client.ofCall (s.call (.client t))
  | .worker w => ∃ draining job call, s.workers w = .running draining job call

theorem State.atSubmit_setCall {call : Option Submit} (h : s.InJob τ) :
    (s.setCall call τ).AtSubmit τ := by
  have hself : (s.setCall call τ).call τ = call := State.call_setCall_self h
  cases τ with
  | client t =>
    show _ = Client.ofCall _
    rw [hself, State.setCall_client_self]
  | worker w =>
    obtain ⟨draining, job, call', hw⟩ := h
    refine ⟨draining, job, call, ?_⟩
    show Function.update s.workers w _ w = _
    rw [Function.update_self, hw]
    rfl

theorem State.atSubmit_of_call {c : Submit} (h : s.call τ = some c) : s.AtSubmit τ := by
  cases τ with
  | client t =>
    show s.clients t = Client.ofCall _
    rw [h]
    change (s.clients t).call = some c at h
    cases ht : s.clients t with
    | submitting call =>
      rw [ht] at h
      cases h
      rfl
    | _ => rw [ht] at h; cases h
  | worker w => exact State.inJob_of_call h

/-- `submit` moves no worker but through its caller. -/
theorem submit_workers (c : Submit) : (submit n s c).1.workers = s.workers := by
  cases c with
  | fetchQueue job => rfl
  | count job => rfl
  | push start i pc =>
    unfold submit
    dsimp only
    split
    · rfl
    · rfl
    · split <;> rfl

/-- `submit` takes nothing out of a queue's history. -/
theorem pushed_prefix_submit (c : Submit) (v : ℕ) :
    s.pushed v <+: (submit n s c).1.pushed v := by
  have hupdate : ∀ (u : ℕ) (jobs : List Job),
      s.pushed v <+: Function.update s.pushed u (s.pushed u ++ jobs) v := by
    intro u jobs
    rw [Function.update_apply]
    split
    · rename_i hv
      rw [hv]
      exact List.prefix_append _ _
    · exact List.prefix_refl _
  cases c with
  | fetchQueue job => exact List.prefix_refl _
  | count job => exact List.prefix_refl _
  | push start i pc =>
    unfold submit
    dsimp only
    split
    · exact hupdate _ _
    · exact hupdate _ _
    · split
      · exact hupdate _ _
      · exact hupdate _ _

/-- **A call of `submit` returns** when its thread is given its turns. -/
theorem submit_returns {c : Submit} (hcall : s.call τ = some c) :
    ∃ s', LeadsAlone n τ s s' ∧ s'.AtSubmit τ ∧ s'.call τ = none
      ∧ ∀ v, s.pushed v <+: s'.pushed v := by
  have hprogress : ∀ s₁ : State, (s₁.AtSubmit τ ∧ ∀ v, s.pushed v <+: s₁.pushed v) →
      ¬ s₁.call τ = none → ∃ a s₂, a = .next τ ∧ (machine n).step s₁ a = some s₂
        ∧ (s₂.AtSubmit τ ∧ ∀ v, s.pushed v <+: s₂.pushed v)
        ∧ s₂.callRank n τ < s₁.callRank n τ := by
    rintro s₁ ⟨-, hpushed⟩ hinside
    obtain ⟨c, hcall⟩ := Option.ne_none_iff_exists'.mp hinside
    have hstep : (machine n).step s₁ (.next τ)
        = some ((submit n s₁ c).1.setCall (submit n s₁ c).2.getLeft? τ) := by
      show step n s₁ (.next τ) = _
      simp only [step, hcall]
    have hjob : (submit n s₁ c).1.InJob τ := by
      have hbefore := State.inJob_of_call hcall
      cases τ with
      | client t => exact trivial
      | worker w =>
        show ∃ draining job call, (submit n s₁ c).1.workers w = _
        rw [submit_workers]
        exact hbefore
    refine ⟨.next τ, _, rfl, hstep, ⟨State.atSubmit_setCall hjob, fun v => ?_⟩, ?_⟩
    · rw [State.setCall_pushed]
      exact (hpushed v).trans (pushed_prefix_submit c v)
    · rw [State.callRank, State.callRank, hcall, State.call_setCall_self hjob]
      cases hout : (submit n s₁ c).2 with
      | inl c' => exact rank_submit_lt hout
      | inr ok => exact c.rank_pos n
  obtain ⟨s', hleads, ⟨hat, hpushed⟩, hnone⟩ := Machine.leads_of_decreasing (State.callRank n τ)
    hprogress ⟨State.atSubmit_of_call hcall, fun v => List.prefix_refl _⟩
  exact ⟨s', hleads, hat, hnone, hpushed⟩

/-! ## The job system as one worker sees it -/

/-- **The other threads taken out of `submit`.** -/
def State.alone (w : ℕ) (s : State) : State :=
  { s with
    workers := fun v => if v = w then s.workers v else (s.workers v).setCall none
    clients := fun _ => .idle }

theorem State.alone_workers_self : (s.alone w).workers w = s.workers w := if_pos rfl

theorem State.alone_call_self : (s.alone w).call (.worker w) = s.call (.worker w) :=
  congrArg Worker.call s.alone_workers_self

/-- No other thread is inside a call. -/
theorem State.alone_call_cases {c : Submit} (h : (s.alone w).call τ = some c) :
    τ = .worker w ∧ s.call (.worker w) = some c := by
  cases τ with
  | client t => cases h
  | worker v =>
    by_cases hv : v = w
    · subst hv
      exact ⟨rfl, State.alone_call_self ▸ h⟩
    · change (if v = w then s.workers v else (s.workers v).setCall none).call = some c at h
      rw [if_neg hv] at h
      cases hpc : s.workers v with
      | _ => rw [hpc] at h; cases h

/-- Moving the worker and taking out the others can be done in either order. -/
theorem State.alone_workers_update (f : ℕ → Worker) (pc : Worker) :
    (fun v => if v = w then Function.update f w pc v else (Function.update f w pc v).setCall none)
      = Function.update (fun v => if v = w then f v else (f v).setCall none) w pc := by
  funext v
  by_cases hv : v = w
  · subst hv
    simp
  · simp [hv]

theorem submit_alone (c : Submit) :
    submit n (s.alone w) c = ((submit n s c).1.alone w, (submit n s c).2) := by
  cases c with
  | fetchQueue job => rfl
  | count job => rfl
  | push start i pc =>
    unfold submit
    dsimp only [State.alone]
    split
    · rfl
    · rfl
    · split <;> rfl

theorem workerMain_alone : workerMain (s.alone w) w = (workerMain s w).map (State.alone w) := by
  unfold workerMain
  rw [State.alone_workers_self]
  cases s.workers w with
  | exited => rfl
  | _ =>
    refine congrArg some ?_
    unfold State.alone
    dsimp only
    rw [State.alone_workers_update]

/-- **The worker's steps are the same with the others taken out.** -/
theorem step_alone :
    step n (s.alone w) (.next (.worker w)) = (step n s (.next (.worker w))).map (State.alone w) := by
  simp only [step, State.alone_call_self]
  cases s.call (.worker w) with
  | none =>
    dsimp only
    split
    · exact workerMain_alone
    · rfl
  | some c =>
    dsimp only
    rw [submit_alone]
    refine congrArg some ?_
    simp only [State.setCall, State.alone, if_pos, State.alone_workers_update]

/-- **A worker whose rings are sound as it sees them**, in a run of any kind. -/
structure SoundAlone (n w : ℕ) (s : State) : Prop where
  reachable : (machine n).Reachable s
  sound : Sound n (s.alone w)

/-- Rings that are sound are so as every worker sees them. -/
theorem Sound.alone_of_reachable (h : Sound n s) {C : State → Action → Prop}
    (hreach : (machine n).ReachableBy C s) (w : ℕ) : SoundAlone n w s where
  reachable := hreach.reachable
  sound := by
    refine h.control rfl rfl rfl (fun τ c hc => ?_) (fun v pc hpc => Or.inl ?_)
    · obtain ⟨rfl, hcall⟩ := State.alone_call_cases hc
      exact Or.inl hcall
    · change (if v = w then s.workers v else (s.workers v).setCall none).popping = some pc at hpc
      split at hpc
      · exact hpc
      · rwa [Worker.popping_setCall] at hpc

/-- **The worker's own steps keep the rings sound as it sees them**: no other
thread is seen inside a queue. -/
theorem SoundAlone.step (hn : 0 < n) (h : SoundAlone n w s)
    (hstep : step n s (.next (.worker w)) = some s') : SoundAlone n w s' where
  reachable := h.reachable.step (a := .next (.worker w)) trivial hstep
  sound := by
    refine sound_step hn h.sound ?_ (step_cases (step_alone.trans (congrArg _ hstep)))
    rintro τ c v ⟨⟩ hc hentering τ' c' hc' hinside
    obtain ⟨rfl, hcall⟩ := State.alone_call_cases hc'
    rw [State.alone_call_self, hcall] at hc
    cases hc
    cases c with
    | push start i pc =>
      cases pc with
      | loadHead job => cases hinside
      | _ => cases hentering
    | _ => cases hentering

/-! ## A worker runs down its queue -/

/-- What is left of a call of `try_pop`. -/
def popRank : SpscQueue.Pop Job → ℕ
  | .loadTail => 4
  | .loadHead _ => 3
  | .readSlot _ => 2
  | .storeTail _ _ => 1

theorem popRank_lt {q q' : SpscQueue Job} {pc pc' : SpscQueue.Pop Job}
    (h : tryPop queueCapacity q pc = (q', .inl pc')) : popRank pc' < popRank pc := by
  cases pc with
  | loadTail =>
    cases h
    simp [popRank]
  | loadHead tail =>
    rw [tryPop] at h
    split at h <;> cases h
    simp [popRank]
  | readSlot tail =>
    cases h
    simp [popRank]
  | storeTail tail item => cases h

/-- How far a worker is from the end of its round; with `stop`, the next look
for a stop request finds one. -/
def Worker.rank (stop : Bool) : Worker → ℕ
  | .checkStop => if stop then 10 else 15
  | .pop draining pc => (if draining then 0 else 10) + popRank pc
  | .running _ _ _ => 17
  | .subtract _ _ => 16
  | .exited => 0

/-- How much worker `w` has left to do. -/
def State.workerRank (stop : Bool) (w : ℕ) (s : State) : ℕ :=
  20 * ((s.pushed w).length - (s.popped w).length) + (s.workers w).rank stop

/-- **What the steps of worker `w` outside `submit` leave alone.** -/
structure WorkerOnly (w : ℕ) (s s' : State) : Prop where
  pushed : s'.pushed = s.pushed
  clients : s'.clients = s.clients
  stopRequested : s'.stopRequested = s.stopRequested
  workers : ∀ v, v ≠ w → s'.workers v = s.workers v
  subtracted : ∀ v, v ≠ w → s'.subtracted v = s.subtracted v

theorem WorkerOnly.refl (w : ℕ) (s : State) : WorkerOnly w s s :=
  ⟨rfl, rfl, rfl, fun _ _ => rfl, fun _ _ => rfl⟩

theorem WorkerOnly.trans {s₁ s₂ s₃ : State} (h : WorkerOnly w s₁ s₂) (h' : WorkerOnly w s₂ s₃) :
    WorkerOnly w s₁ s₃ where
  pushed := h'.pushed.trans h.pushed
  clients := h'.clients.trans h.clients
  stopRequested := h'.stopRequested.trans h.stopRequested
  workers v hv := (h'.workers v hv).trans (h.workers v hv)
  subtracted v hv := (h'.subtracted v hv).trans (h.subtracted v hv)

/-- A worker that has not exited and is not inside `submit` can make a step. -/
theorem exists_worker_step (hcall : s.call (.worker w) = none) (hw : w < n)
    (hne : s.workers w ≠ .exited) : ∃ s', (machine n).step s (.next (.worker w)) = some s' := by
  show ∃ s', step n s (.next (.worker w)) = some s'
  simp only [step, hcall, if_pos hw]
  cases hpc : s.workers w with
  | exited => exact absurd hpc hne
  | _ => exact ⟨_, by simp only [workerMain, hpc]; rfl⟩

/-- A worker with nothing in hand has subtracted all it took. -/
theorem subtracted_eq_popped (hkept : Kept s) (hholding : (s.workers w).holding = [])
    (howing : (s.workers w).owing = []) : s.subtracted w = s.popped w := by
  obtain ⟨hran, hcounted⟩ := hkept w
  rw [hran, hcounted, hholding, howing, List.append_nil, List.append_nil]

/-- **Every step of a worker brings it nearer its end**, except where it has
nothing left to do and is not asked to stop. -/
theorem worker_progress (h : SoundAlone n w s) (hcall : s.call (.worker w) = none) (hw : w < n)
    (hne : s.workers w ≠ .exited) {stop : Bool}
    (hstop : stop = true → s.stopRequested w = true) :
    ∃ s', (machine n).step s (.next (.worker w)) = some s' ∧ WorkerOnly w s s'
      ∧ s'.call (.worker w) = none
      ∧ ((s'.workerRank stop w < s.workerRank stop w ∧ (stop = false → s'.workers w ≠ .exited))
        ∨ stop = false ∧ s.subtracted w = s.pushed w) := by
  obtain ⟨s', hstep⟩ := exists_worker_step hcall hw hne
  have hmove : Moves n s (.next (.worker w)) s' := step_cases hstep
  have hpopping : ∀ {draining pc}, s.workers w = .pop draining pc →
      pc.Ok (s.queues w) (s.pushed w) (s.popped w) := by
    intro draining pc hpc
    refine h.sound.pop w pc hw ?_
    rw [State.alone_workers_self, hpc]
    rfl
  refine ⟨s', hstep, ?_⟩
  cases hmove with
  -- the worker is outside `submit`, so its step is none of these
  | fetch hcall' => cases hcall.symm.trans hcall'
  | push hcall' htry => cases hcall.symm.trans hcall'
  | publish hcall' htry => cases hcall.symm.trans hcall'
  | full hcall' htry hi => cases hcall.symm.trans hcall'
  | reject hcall' htry => cases hcall.symm.trans hcall'
  | count hcall' => cases hcall.symm.trans hcall'
  | client hmove => cases hmove
  | check hw hpc =>
    refine ⟨⟨rfl, rfl, rfl, fun v hv => Function.update_of_ne hv _ _, fun _ _ => rfl⟩,
      by simp [State.call, Worker.call], Or.inl ⟨?_, by simp⟩⟩
    simp only [State.workerRank, hpc, Function.update_self, Worker.rank, popRank]
    cases stop with
    | false => cases s.stopRequested w <;> simp
    | true => simp [hstop rfl]
  | @pop w draining pc pc' q hw hpc htry =>
    refine ⟨⟨rfl, rfl, rfl, fun v hv => Function.update_of_ne hv _ _, fun _ _ => rfl⟩,
      by simp [State.call, Worker.call, State.storePop], Or.inl ⟨?_, by simp [State.storePop]⟩⟩
    have htaken := (SpscQueue.tryPop_taken htry).1 pc' rfl
    have hrank := popRank_lt htry
    simp only [State.workerRank, State.storePop, hpc, Function.update_self, Worker.rank, htaken,
      List.append_nil]
    omega
  | @take w draining pc q job hw hpc htry =>
    refine ⟨⟨rfl, rfl, rfl, fun v hv => Function.update_of_ne hv _ _, fun _ _ => rfl⟩,
      by simp [State.call, Worker.call, State.storePop], Or.inl ⟨?_, by simp [State.storePop]⟩⟩
    have htaken := (SpscQueue.tryPop_taken htry).2.2 job rfl
    rw [queueCapacity_eq] at htry
    obtain ⟨hinv, -, -⟩ := SpscQueue.tryPop_spec (h.sound.inv w hw) (hpopping hpc) htry
    have hle := hinv.popped_le
    change ((s.popped w ++ pc.taken).length) ≤ (s.pushed w).length at hle
    rw [htaken, List.length_append, List.length_singleton] at hle
    simp only [State.workerRank, State.storePop, hpc, Function.update_self, Worker.rank, htaken,
      List.length_append, List.length_singleton]
    omega
  | @empty w draining pc q hw hpc htry =>
    refine ⟨⟨rfl, rfl, rfl, fun v hv => Function.update_of_ne hv _ _, fun _ _ => rfl⟩,
      by cases draining <;> simp [State.call, Worker.call, State.storePop], ?_⟩
    have htaken := (SpscQueue.tryPop_taken htry).2.1 rfl
    cases stop with
    | false =>
      -- an empty queue: all that was pushed has been taken and subtracted
      refine Or.inr ⟨rfl, ?_⟩
      obtain ⟨-, -, hempty⟩ := SpscQueue.tryPop_spec (h.sound.inv w hw) (hpopping hpc) htry
      rw [subtracted_eq_popped (kept_of_reachable h.reachable) (by rw [hpc]; rfl)
        (by rw [hpc]; rfl)]
      exact (h.sound.inv w hw).fifo.eq_of_length (hempty rfl)
    | true =>
      refine Or.inl ⟨?_, by simp⟩
      cases pc with
      | loadHead tail =>
        simp only [State.workerRank, State.storePop, hpc, Function.update_self, htaken,
          List.append_nil]
        cases draining <;> simp [Worker.rank, popRank]
      | _ => cases htry
  | @finish w draining job hw hpc =>
    refine ⟨⟨rfl, rfl, rfl, fun v hv => Function.update_of_ne hv _ _, fun _ _ => rfl⟩,
      by simp [State.call, Worker.call], Or.inl ⟨?_, by simp⟩⟩
    simp [State.workerRank, hpc, Worker.rank]
  | @subtract w draining job hw hpc =>
    refine ⟨⟨rfl, rfl, rfl, fun v hv => Function.update_of_ne hv _ _,
      fun v hv => Function.update_of_ne hv _ _⟩,
      by cases draining <;> simp [State.call, Worker.call], Or.inl ⟨?_, ?_⟩⟩
    · simp only [State.workerRank, hpc, Function.update_self]
      cases draining <;> cases stop <;> simp [Worker.rank, popRank]
    · cases draining <;> simp

/-- **A worker's steps lead on** until it has exited or, where it is not asked
to stop, has nothing left to do. -/
theorem worker_reaches (stop : Bool) (hn : 0 < n) (h : SoundAlone n w s)
    (hcall : s.call (.worker w) = none) (hw : w < n)
    (hstop : stop = true → s.stopRequested w = true)
    (hthere : stop = false → s.workers w ≠ .exited) :
    ∃ s', LeadsAlone n (.worker w) s s' ∧ SoundAlone n w s' ∧ WorkerOnly w s s'
      ∧ if stop then s'.workers w = .exited else s'.subtracted w = s'.pushed w := by
  have hprogress : ∀ s₁ : State, (SoundAlone n w s₁ ∧ WorkerOnly w s s₁
        ∧ s₁.call (.worker w) = none ∧ (stop = false → s₁.workers w ≠ .exited)) →
      ¬ (if stop then s₁.workers w = .exited else s₁.subtracted w = s₁.pushed w) →
      ∃ a s₂, a = .next (.worker w) ∧ (machine n).step s₁ a = some s₂
        ∧ (SoundAlone n w s₂ ∧ WorkerOnly w s s₂ ∧ s₂.call (.worker w) = none
          ∧ (stop = false → s₂.workers w ≠ .exited))
        ∧ s₂.workerRank stop w < s₁.workerRank stop w := by
    rintro s₁ ⟨h₁, honly, hcall₁, hthere₁⟩ hnot
    have hne : s₁.workers w ≠ .exited := by
      cases stop with
      | false => exact hthere₁ rfl
      | true => exact hnot
    obtain ⟨s₂, hstep, honly', hcall₂, ⟨hlt, hthere₂⟩ | ⟨rfl, hall⟩⟩ :=
      worker_progress h₁ hcall₁ hw hne (fun hflag => by rw [honly.stopRequested, hstop hflag])
    · exact ⟨_, s₂, rfl, hstep, ⟨h₁.step hn hstep, honly.trans honly', hcall₂, hthere₂⟩, hlt⟩
    · exact absurd hall hnot
  obtain ⟨s', hleads, ⟨h', honly, -, -⟩, hgoal⟩ := Machine.leads_of_decreasing
    (State.workerRank stop w) hprogress ⟨h, WorkerOnly.refl w s, hcall, hthere⟩
  exact ⟨s', hleads, h', honly, hgoal⟩

/-- **A worker that has not exited runs down its queue**, when it is given its
turns. -/
theorem worker_runsDown (hn : 0 < n) (h : SoundAlone n w s) (hcall : s.call (.worker w) = none)
    (hw : w < n) (hthere : s.workers w ≠ .exited) :
    ∃ s', LeadsAlone n (.worker w) s s' ∧ SoundAlone n w s' ∧ WorkerOnly w s s'
      ∧ s'.subtracted w = s'.pushed w :=
  worker_reaches false hn h hcall hw (by simp) (fun _ => hthere)

/-- **A worker that has been asked to stop exits**, when it is given its
turns. -/
theorem worker_exits (hn : 0 < n) (h : SoundAlone n w s) (hcall : s.call (.worker w) = none)
    (hw : w < n) (hstop : s.stopRequested w = true) :
    ∃ s', LeadsAlone n (.worker w) s s' ∧ SoundAlone n w s' ∧ WorkerOnly w s s'
      ∧ s'.workers w = .exited :=
  worker_reaches true hn h hcall hw (fun _ => hstop) (by simp)

/-! ## A worker executes what was pushed to it -/

/-- The worker's steps keep what it sees. -/
theorem SoundAlone.leads (hn : 0 < n) (h : SoundAlone n w s)
    (hleads : LeadsAlone n (.worker w) s s') : SoundAlone n w s' := by
  obtain ⟨labels, hlabels, hrun⟩ := hleads
  induction labels generalizing s with
  | nil =>
    cases hrun
    exact h
  | cons a labels ih =>
    rw [Machine.run, Option.bind_eq_some_iff] at hrun
    obtain ⟨s₁, hstep, hrest⟩ := hrun
    obtain rfl := hlabels a List.mem_cons_self
    exact ih (h.step hn hstep) (fun b hb => hlabels b (List.mem_cons_of_mem _ hb)) hrest

/-- A worker that has not exited leaves `submit`, if its job is inside it, and
has not exited then. -/
theorem worker_leaves_submit (hn : 0 < n) (h : SoundAlone n w s)
    (hthere : s.workers w ≠ .exited) :
    ∃ s', LeadsAlone n (.worker w) s s' ∧ SoundAlone n w s' ∧ s'.call (.worker w) = none
      ∧ s'.workers w ≠ .exited ∧ s.pushed w <+: s'.pushed w := by
  cases hcall : s.call (.worker w) with
  | none => exact ⟨s, Machine.Leads.refl s, h, hcall, hthere, List.prefix_refl _⟩
  | some c =>
    obtain ⟨s', hleads, ⟨draining, job, call, hrunning⟩, hnone, hpushed⟩ :=
      submit_returns (n := n) hcall
    exact ⟨s', hleads, h.leads hn hleads, hnone, by simp [hrunning], hpushed w⟩

/-- **A job pushed to a worker that has not exited is executed**, once, when the
worker is given its turns. -/
theorem executed_of_pushed (hn : 0 < n) (h : SoundAlone n w s) (hw : w < n)
    (hthere : s.workers w ≠ .exited) (hj : j ∈ s.pushed w) :
    ∃ s', LeadsAlone n (.worker w) s s' ∧ s'.executions n j = 1 := by
  obtain ⟨s₁, hleads₁, h₁, hcall, hthere₁, hpushed⟩ := worker_leaves_submit hn h hthere
  obtain ⟨s₂, hleads₂, h₂, honly, hdone⟩ := worker_runsDown hn h₁ hcall hw hthere₁
  have hkept := kept_of_reachable h₂.reachable
  obtain ⟨place, hplaced⟩ := placed_of_reachable hn h₂.reachable
  have hfinished : j ∈ s₂.finished w := by
    rw [(hkept w).2, hdone, honly.pushed]
    exact List.mem_append_left _ (hpushed.subset hj)
  exact ⟨s₂, hleads₁.trans hleads₂,
    executions_eq_one (executions_le_one hplaced hkept h₂.sound.fifo j) hw hfinished⟩

end JobSystem

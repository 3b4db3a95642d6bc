import SapCore.JobSystemQueues

/-!
# One submitting thread

The runs in which one thread, client zero, makes all calls of `submit` and is
the one to destroy the job system; any thread may wait for it to be idle. In
those runs no two producers can meet, and no job is pushed once a worker has
exited, since by then the submitting thread is inside the destructor
(`Orderly.oneProducer`, `Orderly.workerThere`).
-/

namespace JobSystem

variable {n : ℕ} {s s' : State} {τ : Thread} {call : Option Submit}

/-- **Client zero alone calls `submit` and the destructor.** -/
def OneSubmitter : Action → Prop
  | .submit τ => τ = .client 0
  | .waitIdle _ => True
  | .destroy t => t = 0
  | .next _ => True

instance : DecidablePred OneSubmitter := fun a => by
  cases a <;> unfold OneSubmitter <;> infer_instance

/-- A worker that has seen the stop request. -/
def Worker.draining : Worker → Bool
  | .checkStop => false
  | .pop draining _ => draining
  | .running draining _ _ => draining
  | .subtract draining _ => draining
  | .exited => true

/-- A client inside the destructor, or past it. -/
def Client.leaving : Client → Bool
  | .idle => false
  | .submitting _ => false
  | .waiting _ => false
  | .stopping _ => true
  | .joining _ => true
  | .destroyed => true

theorem Client.not_leaving_of_call {pc : Client} {c : Submit} (h : pc.call = some c) :
    pc.leaving = false := by
  cases pc with
  | submitting call => rfl
  | _ => cases h

/-- A client that has asked worker `w` to stop. -/
def Client.asked (w : ℕ) : Client → Prop
  | .idle => False
  | .submitting _ => False
  | .waiting _ => False
  | .stopping i => w < i
  | .joining _ => True
  | .destroyed => True

theorem Client.leaving_of_asked {pc : Client} {w : ℕ} (h : pc.asked w) : pc.leaving = true := by
  cases pc with
  | idle => cases h
  | submitting call => cases h
  | waiting since => cases h
  | _ => rfl

/-- **The shutdown, as one thread carries it out**: only client zero is inside
`submit` or the destructor; a worker drains only on request; a request means
that client zero is leaving, and whom it has asked has a request; and what it
has joined has exited. -/
structure Orderly (n : ℕ) (s : State) : Prop where
  calls : ∀ τ c, s.call τ = some c → τ = .client 0
  leaves : ∀ t, (s.clients t).leaving = true → t = 0
  drains : ∀ w, (s.workers w).draining = true → s.stopRequested w = true
  stops : ∀ w, s.stopRequested w = true → (s.clients 0).leaving = true
  asked : ∀ w, w < n → (s.clients 0).asked w → s.stopRequested w = true
  joined : ∀ i, s.clients 0 = .joining i → ∀ w, w < i → w < n → s.workers w = .exited
  destroyed : s.clients 0 = .destroyed → ∀ w, w < n → s.workers w = .exited

/-- While client zero is not leaving, it may move inside `submit`. -/
theorem Orderly.setCall (h : Orderly n s) {s₁ : State} (hclients : s₁.clients = s.clients)
    (hworkers : s₁.workers = s.workers) (hstop : s₁.stopRequested = s.stopRequested)
    (hnot : (s.clients 0).leaving = false) :
    Orderly n (s₁.setCall call (.client 0)) := by
  have hpc : ∀ t, t ≠ 0 → (s₁.setCall call (.client 0)).clients t = s.clients t := by
    intro t ht
    show Function.update s₁.clients 0 _ t = _
    rw [Function.update_of_ne ht, hclients]
  have hzero := s₁.setCall_client_self call 0
  have hcall : s₁.call = s.call := by
    funext τ
    cases τ with
    | client t => rw [State.call, State.call, hclients]
    | worker w => rw [State.call, State.call, hworkers]
  refine ⟨?_, ?_, ?_, ?_, ?_, ?_, ?_⟩
  · intro τ c hc
    by_cases hτ : τ = .client 0
    · exact hτ
    · rw [State.call_setCall_of_ne hτ, hcall] at hc
      exact h.calls τ c hc
  · intro t ht
    by_cases hzero : t = 0
    · exact hzero
    · rw [hpc t hzero] at ht
      exact h.leaves t ht
  · intro w hw
    rw [State.setCall_stopRequested, hstop]
    exact h.drains w (hworkers ▸ hw)
  · intro w hw
    rw [State.setCall_stopRequested, hstop] at hw
    rw [h.stops w hw] at hnot
    cases hnot
  · intro w _ hasked
    rw [hzero] at hasked
    cases call <;> cases hasked
  · intro i hi
    rw [hzero] at hi
    cases call <;> cases hi
  · intro hd
    rw [hzero] at hd
    cases call <;> cases hd

/-- A worker that moves outside `submit`, drains only on request and has not
exited before. -/
theorem Orderly.worker (h : Orderly n s) {w : ℕ} {pc : Worker}
    (hworkers : s'.workers = Function.update s.workers w pc) (hclients : s'.clients = s.clients)
    (hstop : s'.stopRequested = s.stopRequested) (hcall : pc.call = (s.workers w).call)
    (hdrains : pc.draining = true → s.stopRequested w = true) (hthere : s.workers w ≠ .exited) :
    Orderly n s' := by
  have hexited : ∀ v, s.workers v = .exited → s'.workers v = .exited := by
    intro v hv
    have hne : v ≠ w := by
      rintro rfl
      exact hthere hv
    rw [hworkers, Function.update_of_ne hne]
    exact hv
  refine ⟨?_, ?_, ?_, ?_, ?_, ?_, ?_⟩
  · rw [State.call_of_worker hworkers hclients hcall]
    exact h.calls
  · rw [hclients]
    exact h.leaves
  · rw [hworkers, hstop]
    exact (Function.forall_update_iff s.workers fun v (pc : Worker) =>
      pc.draining = true → s.stopRequested v = true).mpr ⟨hdrains, fun v _ => h.drains v⟩
  · rw [hclients, hstop]
    exact h.stops
  · rw [hclients, hstop]
    exact h.asked
  · rw [hclients]
    exact fun i hi v hvi hv => hexited v (h.joined i hi v hvi hv)
  · rw [hclients]
    exact fun hd v hv => hexited v (h.destroyed hd v hv)

/-- A client that stays outside the destructor. -/
theorem Orderly.stay (h : Orderly n s) {t : ℕ} {pc : Client}
    (hcall : pc.call = (s.clients t).call) (hold : (s.clients t).leaving = false)
    (hnew : pc.leaving = false) :
    Orderly n { s with clients := Function.update s.clients t pc } := by
  have hcalls : State.call { s with clients := Function.update s.clients t pc } = s.call :=
    State.call_of_client rfl rfl hcall
  have hkeep : ∀ c : Client, c.leaving = true → Function.update s.clients t pc 0 = c →
      s.clients 0 = c := by
    intro c hc hzero
    by_cases ht : 0 = t
    · subst ht
      rw [Function.update_self] at hzero
      subst hzero
      rw [hnew] at hc
      cases hc
    · rw [Function.update_of_ne ht] at hzero
      exact hzero
  refine ⟨hcalls ▸ h.calls, ?_, h.drains, ?_, ?_, ?_, ?_⟩
  · refine (Function.forall_update_iff s.clients fun u (pc : Client) =>
      pc.leaving = true → u = 0).mpr ⟨fun hpc => ?_, fun u _ => h.leaves u⟩
    rw [hnew] at hpc
    cases hpc
  · intro w hw
    have hzero := h.stops w hw
    have ht : 0 ≠ t := by
      rintro rfl
      rw [hzero] at hold
      cases hold
    simpa [Function.update_of_ne ht] using hzero
  · intro w hw hasked
    refine h.asked w hw ?_
    rw [hkeep _ (Client.leaving_of_asked hasked) rfl]
    exact hasked
  · exact fun i hi => h.joined i (hkeep _ rfl hi)
  · exact fun hd => h.destroyed (hkeep _ rfl hd)

/-- Client zero goes on with the destructor. -/
theorem Orderly.leave (h : Orderly n s) {pc : Client} {stop : ℕ → Bool}
    (hcall : pc.call = (s.clients 0).call) (hnew : pc.leaving = true)
    (hstop : ∀ w, s.stopRequested w = true → stop w = true)
    (hasked : ∀ w, w < n → pc.asked w → stop w = true)
    (hjoined : ∀ i, pc = .joining i → ∀ w, w < i → w < n → s.workers w = .exited)
    (hdestroyed : pc = .destroyed → ∀ w, w < n → s.workers w = .exited) :
    Orderly n { s with
      stopRequested := stop, clients := Function.update s.clients 0 pc } := by
  have hcalls : State.call { s with
      stopRequested := stop, clients := Function.update s.clients 0 pc } = s.call :=
    State.call_of_client rfl rfl hcall
  refine ⟨hcalls ▸ h.calls, ?_, fun w hw => hstop w (h.drains w hw), ?_, ?_, ?_, ?_⟩
  · exact (Function.forall_update_iff s.clients fun u (pc : Client) =>
      pc.leaving = true → u = 0).mpr ⟨fun _ => rfl, fun u _ => h.leaves u⟩
  · intro w _
    simpa using hnew
  · intro w hw h
    exact hasked w hw (by simpa using h)
  · intro i hi
    exact hjoined i (by simpa using hi)
  · intro hd
    exact hdestroyed (by simpa using hd)

/-- A client outside `submit` keeps the order. -/
theorem Orderly.client {t : ℕ} {a : Action} {pc : Client} {stop : ℕ → Bool} (h : Orderly n s)
    (ha : OneSubmitter a) (hmove : s.ClientMoves n t a pc stop) :
    Orderly n { s with
      stopRequested := stop, clients := Function.update s.clients t pc } := by
  have hzero : (s.clients t).leaving = true → t = 0 := h.leaves t
  have hcall := hmove.call_eq
  cases hmove with
  | waitIdle hpc => exact h.stay hcall (by rw [hpc]; rfl) rfl
  | idle hpc hload => exact h.stay hcall (by rw [hpc]; rfl) rfl
  | spin hpc hload => exact h.stay hcall (by rw [hpc]; rfl) rfl
  | destroy hpc =>
    have ht : t = 0 := ha
    subst ht
    exact h.leave hcall rfl (fun _ hw => hw) (by simp [Client.asked]) (by simp) (by simp)
  | @stop i hpc hi =>
    have ht : t = 0 := hzero (by rw [hpc]; rfl)
    subst ht
    refine h.leave hcall rfl (fun w hw => ?_) (fun w hw hasked => ?_) (by simp) (by simp)
    · by_cases hwi : w = i
      · rw [hwi, Function.update_self]
      · rw [Function.update_of_ne hwi, hw]
    · obtain hlt | rfl := Nat.lt_succ_iff_lt_or_eq.mp hasked
      · rw [Function.update_of_ne (Nat.ne_of_lt hlt)]
        exact h.asked w hw (by rw [hpc]; exact hlt)
      · rw [Function.update_self]
  | stopped hpc hi =>
    have ht : t = 0 := hzero (by rw [hpc]; rfl)
    subst ht
    refine h.leave hcall rfl (fun _ hw => hw) (fun w hw _ => ?_) (by simp) (by simp)
    refine h.asked w hw ?_
    rw [hpc]
    exact Nat.lt_of_lt_of_le hw (Nat.le_of_not_lt hi)
  | @join i hpc hi hw =>
    have ht : t = 0 := hzero (by rw [hpc]; rfl)
    subst ht
    refine h.leave hcall rfl (fun _ hw => hw) (fun v hv _ => h.asked v hv (by rw [hpc]; trivial))
      ?_ (by simp)
    rintro j ⟨⟩ w hwi hwn
    obtain hlt | rfl := Nat.lt_succ_iff_lt_or_eq.mp hwi
    · exact h.joined i hpc w hlt hwn
    · exact hw
  | @joined i hpc hi =>
    have ht : t = 0 := hzero (by rw [hpc]; rfl)
    subst ht
    exact h.leave hcall rfl (fun _ hw => hw) (fun v hv _ => h.asked v hv (by rw [hpc]; trivial))
      (by simp) (fun _ w hw => h.joined i hpc w (by omega) hw)

/-- **Every step with one submitter keeps the order.** -/
theorem orderly_step {a : Action} (h : Orderly n s) (ha : OneSubmitter a)
    (hmove : Moves n s a s') : Orderly n s' := by
  -- a thread inside `submit` is client zero, and not leaving
  have hinside : ∀ {τ : Thread} {c : Submit} {s₁ : State} {call : Option Submit},
      s.call τ = some c → s₁.clients = s.clients → s₁.workers = s.workers →
      s₁.stopRequested = s.stopRequested → Orderly n (s₁.setCall call τ) := by
    intro τ c s₁ call hc hclients hworkers hstop
    obtain rfl := h.calls τ c hc
    exact h.setCall hclients hworkers hstop (Client.not_leaving_of_call hc)
  have hdrains : ∀ {w : ℕ} {pc : Worker}, s.workers w = pc → pc.draining = true →
      s.stopRequested w = true := by
    rintro w pc rfl
    exact h.drains w
  cases hmove with
  | submit hcan =>
    have hτ : _ = Thread.client 0 := ha
    subst hτ
    have hidle : s.clients 0 = .idle := by simpa [State.canSubmit] using hcan
    exact h.setCall rfl rfl rfl (by rw [hidle]; rfl)
  | fetch hcall => exact hinside hcall rfl rfl rfl
  | push hcall htry => exact hinside hcall rfl rfl rfl
  | publish hcall htry => exact hinside hcall rfl rfl rfl
  | full hcall htry hi => exact hinside hcall rfl rfl rfl
  | reject hcall htry => exact hinside hcall rfl rfl rfl
  | count hcall => exact hinside hcall rfl rfl rfl
  | check hw hpc => exact h.worker rfl rfl rfl (by rw [hpc]; rfl) id (by simp [hpc])
  | pop hw hpc htry =>
    exact h.worker rfl rfl rfl (by rw [hpc]; rfl) (fun hd => hdrains hpc hd) (by simp [hpc])
  | take hw hpc htry =>
    exact h.worker rfl rfl rfl (by rw [hpc]; rfl) (fun hd => hdrains hpc hd) (by simp [hpc])
  | @empty w draining pc q hw hpc htry =>
    refine h.worker rfl rfl rfl ?_ ?_ (by simp [hpc])
    · rw [hpc]
      cases draining <;> rfl
    · cases draining
      · rintro ⟨⟩
      · exact fun _ => hdrains hpc rfl
  | finish hw hpc =>
    exact h.worker rfl rfl rfl (by rw [hpc]; rfl) (fun hd => hdrains hpc hd) (by simp [hpc])
  | @subtract w draining job hw hpc =>
    refine h.worker rfl rfl rfl ?_ ?_ (by simp [hpc])
    · rw [hpc]
      cases draining <;> rfl
    · cases draining
      · rintro ⟨⟩
      · exact fun _ => hdrains hpc rfl
  | client hmove => exact h.client ha hmove

/-- **With one submitter the shutdown is orderly in every run.** -/
theorem orderly_of_reachable {C : State → Action → Prop} (hC : ∀ s a, C s a → OneSubmitter a)
    (h : (machine n).ReachableBy C s) : Orderly n s := by
  refine Machine.ReachableBy.invariant (I := Orderly n) ?_
    (fun s a _ _ hs ha hstep => orderly_step hs (hC s a ha) (step_cases hstep)) h
  refine ⟨?_, ?_, ?_, ?_, ?_, ?_, ?_⟩
  · rintro (t | w) c hc <;> cases hc
  · rintro t ⟨⟩
  · rintro w ⟨⟩
  · rintro w ⟨⟩
  · rintro w - ⟨⟩
  · rintro i ⟨⟩
  · rintro ⟨⟩

/-- **One submitter is one producer**: no other thread is inside any queue. -/
theorem Orderly.oneProducer (h : Orderly n s) (a : Action) : OneProducer n s a := by
  intro τ c w _ hc hin τ' c' hc' hin'
  rw [h.calls τ c hc] at hc
  rw [h.calls τ' c' hc', hc] at hc'
  cases hc'
  cases c with
  | push start i pc => cases pc <;> simp [Submit.entering, Submit.inside] at hin hin'
  | _ => cases hin

/-- **One submitter finds its workers there**: it pushes nothing after it has
asked one of them to stop. -/
theorem Orderly.workerThere (h : Orderly n s) (a : Action) : WorkerThere n s a := by
  intro τ start i item head _ hc hexited
  rw [h.calls τ _ hc] at hc
  have hleaving : (s.clients 0).leaving = true := by
    refine h.stops _ (h.drains (queueIndex n start i) ?_)
    rw [hexited]
    rfl
  rw [Client.not_leaving_of_call hc] at hleaving
  cases hleaving

/-- **With one submitter the runs meet both conditions.** -/
theorem meets_of_submitter {C : State → Action → Prop} (hC : ∀ s a, C s a → OneSubmitter a)
    (h : (machine n).ReachableBy C s) :
    (machine n).ReachableBy (fun s a => OneProducer n s a ∧ WorkerThere n s a) s := by
  refine (h.strengthen (D := fun s a => OneProducer n s a ∧ WorkerThere n s a) ?_).mono
    (fun _ _ ha => ha.2)
  intro s a _ hs _ _
  have horderly := orderly_of_reachable hC hs
  exact ⟨horderly.oneProducer a, horderly.workerThere a⟩

/-- **With one submitter the queues are rings.** -/
theorem sound_of_submitter (hn : 0 < n) {C : State → Action → Prop}
    (hC : ∀ s a, C s a → OneSubmitter a) (h : (machine n).ReachableBy C s) : Sound n s :=
  sound_of_reachable hn (fun _ _ ha => ha.1) (meets_of_submitter hC h)

/-! ## One thread for every call -/

/-- **Client zero makes every call.** -/
def SingleThread : Action → Prop
  | .submit τ => τ = .client 0
  | .waitIdle t => t = 0
  | .destroy t => t = 0
  | .next _ => True

instance : DecidablePred SingleThread := fun a => by
  cases a <;> unfold SingleThread <;> infer_instance

theorem SingleThread.oneSubmitter {a : Action} (h : SingleThread a) : OneSubmitter a := by
  cases a with
  | submit τ => exact h
  | waitIdle t => exact trivial
  | destroy t => exact h
  | next τ => exact trivial

/-- A state reached while client zero makes every call. -/
abbrev Single (n : ℕ) : State → Prop := (machine n).ReachableBy (fun _ a => SingleThread a)

/-- With one thread making every call, one submits. -/
theorem oneSubmitter_of_single (_ : State) (a : Action) (ha : SingleThread a) :
    OneSubmitter a := ha.oneSubmitter

end JobSystem

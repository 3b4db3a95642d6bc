import SapCore.JobSystemLedger

/-!
# The queues of the job system

Each queue is a ring for one producer and one consumer. The consumer is the
worker it belongs to; the producers are whichever threads call `submit`, and
nothing in the job system keeps two of them apart. What the ring promises
therefore holds in the runs in which they happen to be apart: no thread loads
the head of a queue while another is between its load and its store on the same
queue (`OneProducer`). In those runs every queue satisfies the invariant of the
ring (`Sound`).

The promise of `submit` (`ExactlyOnce`) needs one thing more, that no job is
pushed to a queue whose worker has already drained it and exited
(`WorkerThere`): a job can do that, when it calls `submit` during the drain of
another queue.
-/

namespace JobSystem

open SpscQueue (tryPush tryPop)

variable {n : ℕ} {s s' : State} {τ τ' : Thread} {call : Option Submit}

theorem queueCapacity_eq : queueCapacity = 2 ^ 12 := rfl

/-- The queue whose head a call of `submit` is about to load. -/
def Submit.entering (n : ℕ) : Submit → Option ℕ
  | .push start i (.loadHead _) => some (queueIndex n start i)
  | _ => none

/-- The queue whose head a call of `submit` has loaded and not yet stored. -/
def Submit.inside (n : ℕ) : Submit → Option ℕ
  | .push _ _ (.loadHead _) => none
  | .push start i (.loadTail _ _) => some (queueIndex n start i)
  | .push start i (.writeSlot _ _) => some (queueIndex n start i)
  | .push start i (.storeHead _ _) => some (queueIndex n start i)
  | _ => none

/-- **One producer at a time**: a thread loads the head of a queue only while
no other is between its load and its store on that queue. -/
def OneProducer (n : ℕ) (s : State) (a : Action) : Prop :=
  ∀ τ c w, a = .next τ → s.call τ = some c → c.entering n = some w →
    ∀ τ' c', s.call τ' = some c' → c'.inside n ≠ some w

/-- **The worker is there**: a job is published to a queue only while the
worker of that queue has not exited. -/
def WorkerThere (n : ℕ) (s : State) (a : Action) : Prop :=
  ∀ τ start i item head, a = .next τ → s.call τ = some (.push start i (.storeHead item head)) →
    s.workers (queueIndex n start i) ≠ .exited

/-- **The queues are rings**: each satisfies the invariant of the ring, each
call of `try_push` and `try_pop` knows what it must, and no two calls of
`try_push` are inside the same queue. -/
structure Sound (n : ℕ) (s : State) : Prop where
  inv : ∀ w, w < n → SpscQueue.Inv (2 ^ 12) (s.queues w) (s.pushed w) (s.popped w)
  push : ∀ τ start i pc, s.call τ = some (.push start i pc) →
    pc.Ok (2 ^ 12) (s.queues (queueIndex n start i)) (s.pushed (queueIndex n start i))
      (s.popped (queueIndex n start i))
  pop : ∀ w pc, w < n → (s.workers w).popping = some pc →
    pc.Ok (s.queues w) (s.pushed w) (s.popped w)
  alone : ∀ τ τ' c c' w, s.call τ = some c → s.call τ' = some c' → c.inside n = some w →
    c'.inside n = some w → τ = τ'

/-- A worker takes its jobs in the order they were pushed. -/
theorem Sound.fifo (h : Sound n s) (w : ℕ) (hw : w < n) : s.popped w <+: s.pushed w :=
  (h.inv w hw).fifo

/-! ## Steps that leave the queues alone -/

/-- A call that is in no queue yet. -/
def Submit.Outside (c : Submit) : Prop :=
  ∀ start i pc, c = .push start i pc → ∃ job, pc = .loadHead job

theorem Submit.Outside.inside_eq {c : Submit} (h : c.Outside) : c.inside n = none := by
  cases c with
  | fetchQueue job => rfl
  | count job => rfl
  | push start i pc =>
    obtain ⟨job, rfl⟩ := h start i pc rfl
    rfl

/-- A call that is inside no queue is at most about to load a head. -/
theorem Submit.inside_of_push (n start i : ℕ) (pc : SpscQueue.Push Job) :
    (∃ job, pc = .loadHead job)
      ∨ (Submit.push start i pc).inside n = some (queueIndex n start i) := by
  cases pc with
  | loadHead job => exact Or.inl ⟨job, rfl⟩
  | loadTail item head => exact Or.inr rfl
  | writeSlot item head => exact Or.inr rfl
  | storeHead item head => exact Or.inr rfl

/-- Where a thread stands after a move is where it was put or where it was. -/
theorem State.call_setCall_cases {c : Submit} (h : (s.setCall call τ).call τ' = some c) :
    s.call τ' = some c ∨ call = some c := by
  by_cases hτ : τ' = τ
  · subst hτ
    cases τ' with
    | client t =>
      rw [State.call_setCall_self (s := s) (τ := .client t) trivial] at h
      exact Or.inr h
    | worker w =>
      change (Function.update s.workers w ((s.workers w).setCall call) w).call = some c at h
      rw [Function.update_self] at h
      change (s.workers w).call = some c ∨ call = some c
      cases hw : s.workers w with
      | running draining job c' =>
        rw [hw] at h
        exact Or.inr h
      | _ => rw [hw] at h; cases h
  · rw [State.call_setCall_of_ne hτ] at h
    exact Or.inl h

/-- **A step that touches no queue keeps the rings**, if the calls it begins
are in no queue yet. -/
theorem Sound.control (h : Sound n s) (hqueues : s'.queues = s.queues)
    (hpushed : s'.pushed = s.pushed) (hpopped : s'.popped = s.popped)
    (hcall : ∀ τ c, s'.call τ = some c → s.call τ = some c ∨ c.Outside)
    (hpop : ∀ w pc, (s'.workers w).popping = some pc →
      (s.workers w).popping = some pc ∨ pc = .loadTail) : Sound n s' where
  inv w hw := by
    rw [hqueues, hpushed, hpopped]
    exact h.inv w hw
  push τ start i pc hpc := by
    rw [hqueues, hpushed, hpopped]
    obtain hold | hnew := hcall τ _ hpc
    · exact h.push τ start i pc hold
    · obtain ⟨job, rfl⟩ := hnew start i pc rfl
      exact trivial
  pop w pc hw hpc := by
    rw [hqueues, hpushed, hpopped]
    obtain hold | rfl := hpop w pc hpc
    · exact h.pop w pc hw hold
    · exact trivial
  alone τ τ' c c' w hc hc' hin hin' := by
    obtain hold | hnew := hcall τ c hc
    · obtain hold' | hnew' := hcall τ' c' hc'
      · exact h.alone τ τ' c c' w hold hold' hin hin'
      · rw [hnew'.inside_eq] at hin'
        cases hin'
    · rw [hnew.inside_eq] at hin
      cases hin

/-- A thread that moves outside the queues keeps the rings. -/
theorem Sound.moved (h : Sound n s) {s₁ : State} (hqueues : s₁.queues = s.queues)
    (hpushed : s₁.pushed = s.pushed) (hpopped : s₁.popped = s.popped) (hcalls : s₁.call = s.call)
    (hpopping : ∀ w, (s₁.workers w).popping = (s.workers w).popping)
    (hout : ∀ c, call = some c → c.Outside) : Sound n (s₁.setCall call τ) := by
  refine h.control (by simpa using hqueues) (by simpa using hpushed) (by simpa using hpopped)
    (fun τ' c hc => ?_) (fun w pc hpc => Or.inl ?_)
  · obtain hold | hnew := State.call_setCall_cases hc
    · exact Or.inl (hcalls ▸ hold)
    · exact Or.inr (hout c hnew)
  · rw [State.setCall_popping, hpopping] at hpc
    exact hpc

/-- A worker that moves outside its queue keeps the rings. -/
theorem Sound.worker (h : Sound n s) {w : ℕ} {pc : Worker} (hqueues : s'.queues = s.queues)
    (hpushed : s'.pushed = s.pushed) (hpopped : s'.popped = s.popped)
    (hworkers : s'.workers = Function.update s.workers w pc) (hclients : s'.clients = s.clients)
    (hcall : pc.call = (s.workers w).call) (hpop : ∀ pop, pc.popping = some pop → pop = .loadTail) :
    Sound n s' := by
  refine h.control hqueues hpushed hpopped (fun τ c hc => Or.inl ?_) ?_
  · rw [State.call_of_worker hworkers hclients hcall] at hc
    exact hc
  · rw [hworkers]
    exact (Function.forall_update_iff s.workers fun v (pc' : Worker) => ∀ pop,
      pc'.popping = some pop → (s.workers v).popping = some pop ∨ pop = .loadTail).mpr
      ⟨fun pop h => Or.inr (hpop pop h), fun v _ pop h => Or.inl h⟩

/-! ## The accesses of `submit` -/

/-- A thread that makes an access of `try_push` is alone in its queue. -/
theorem Sound.not_inside (h : Sound n s) (hone : OneProducer n s (.next τ)) {start i : ℕ}
    {pc : SpscQueue.Push Job} {c : Submit} (hcall : s.call τ = some (.push start i pc))
    (hτ : τ' ≠ τ) (hcall' : s.call τ' = some c) : c.inside n ≠ some (queueIndex n start i) := by
  obtain ⟨job, rfl⟩ | hin := Submit.inside_of_push n start i pc
  · exact hone τ _ _ rfl hcall rfl τ' c hcall'
  · intro hin'
    exact hτ (h.alone τ' τ c _ _ hcall' hcall hin' hin)

/-- **An access of `try_push` keeps the rings**, if it is the only one inside
its queue when it loads the head. -/
theorem Sound.storePush (h : Sound n s) (hn : 0 < n) {start i : ℕ} {pc : SpscQueue.Push Job}
    {q : SpscQueue Job} {out : SpscQueue.Push Job ⊕ Bool} (rejected : List Job)
    (hcall : s.call τ = some (.push start i pc))
    (htry : tryPush queueCapacity (s.queues (queueIndex n start i)) pc = (q, out))
    (hone : OneProducer n s (.next τ))
    (hnext : ∀ c, call = some c → c.Outside ∨ ∃ pc', out = .inl pc' ∧ c = .push start i pc') :
    Sound n ({ s.storePush (queueIndex n start i) q pc with
      rejected := rejected }.setCall call τ) := by
  rw [queueCapacity_eq] at htry
  have hlt := queueIndex_lt hn start i
  obtain ⟨hinv, hcont, -⟩ := SpscQueue.tryPush_spec (h.inv _ hlt) (h.push τ start i pc hcall) htry
  have hself : ({ s.storePush (queueIndex n start i) q pc with
      rejected := rejected }.setCall call τ).call τ = call :=
    State.call_setCall_self (State.inJob_of_call hcall)
  have hother : ∀ τ', τ' ≠ τ → ({ s.storePush (queueIndex n start i) q pc with
      rejected := rejected }.setCall call τ).call τ' = s.call τ' :=
    fun τ' hτ => State.call_setCall_of_ne hτ
  refine ⟨?_, ?_, ?_, ?_⟩
  · intro w hw
    simp only [State.setCall_queues, State.setCall_pushed, State.setCall_popped, State.storePush]
    by_cases hwi : w = queueIndex n start i
    · subst hwi
      simpa using hinv
    · simpa [Function.update_of_ne hwi] using h.inv w hw
  · intro τ' start' i' pc' hpc'
    simp only [State.setCall_queues, State.setCall_pushed, State.setCall_popped, State.storePush]
    by_cases hτ : τ' = τ
    · -- the thread itself: it goes on in the same queue, or knows nothing yet
      subst hτ
      rw [hself] at hpc'
      obtain hout | ⟨pc'', rfl, heq⟩ := hnext _ hpc'
      · obtain ⟨job, rfl⟩ := hout start' i' pc' rfl
        exact trivial
      · cases heq
        have hpublished := ((SpscQueue.tryPush_published htry).1 pc' rfl).1
        simpa [hpublished] using hcont pc' rfl
    · rw [hother τ' hτ] at hpc'
      by_cases hq : queueIndex n start' i' = queueIndex n start i
      · obtain ⟨job, rfl⟩ | hin :=
          Submit.inside_of_push n start' i' pc'
        · exact trivial
        · exact absurd (hq ▸ hin) (h.not_inside hone hcall hτ hpc')
      · simpa [Function.update_of_ne hq] using h.push τ' start' i' pc' hpc'
  · intro w pop hw hpop
    simp only [State.setCall_queues, State.setCall_pushed, State.setCall_popped,
      State.setCall_popping, State.storePush] at hpop ⊢
    by_cases hwi : w = queueIndex n start i
    · subst hwi
      simpa using SpscQueue.tryPush_keeps_pop (h.pop _ pop hw hpop) htry
    · simpa [Function.update_of_ne hwi] using h.pop w pop hw hpop
  · -- whoever is inside a queue was inside it, or is the thread that moves
    have hwas : ∀ τ' c w, ({ s.storePush (queueIndex n start i) q pc with
        rejected := rejected }.setCall call τ).call τ' = some c → c.inside n = some w →
        (τ' = τ ∧ w = queueIndex n start i) ∨ (τ' ≠ τ ∧ s.call τ' = some c) := by
      intro τ' c w hc hin
      by_cases hτ : τ' = τ
      · subst hτ
        rw [hself] at hc
        obtain hout | ⟨pc', -, rfl⟩ := hnext c hc
        · rw [hout.inside_eq] at hin
          cases hin
        · obtain ⟨job, rfl⟩ | hin' :=
            Submit.inside_of_push n start i pc'
          · cases hin
          · exact Or.inl ⟨rfl, Option.some.inj (hin.symm.trans hin')⟩
      · exact Or.inr ⟨hτ, hother τ' hτ ▸ hc⟩
    intro τ₁ τ₂ c₁ c₂ w hc₁ hc₂ hin₁ hin₂
    obtain ⟨rfl, hw₁⟩ | ⟨hτ₁, hold₁⟩ := hwas τ₁ c₁ w hc₁ hin₁
    · obtain ⟨rfl, -⟩ | ⟨hτ₂, hold₂⟩ := hwas τ₂ c₂ w hc₂ hin₂
      · rfl
      · exact absurd (hw₁ ▸ hin₂) (h.not_inside hone hcall hτ₂ hold₂)
    · obtain ⟨rfl, hw₂⟩ | ⟨hτ₂, hold₂⟩ := hwas τ₂ c₂ w hc₂ hin₂
      · exact absurd (hw₂ ▸ hin₁) (h.not_inside hone hcall hτ₁ hold₁)
      · exact h.alone τ₁ τ₂ c₁ c₂ w hold₁ hold₂ hin₁ hin₂

/-! ## The accesses of a worker -/

/-- **An access of `try_pop` keeps the rings.** -/
theorem Sound.storePop (h : Sound n s) {w : ℕ} {draining : Bool} {pc : SpscQueue.Pop Job}
    {q : SpscQueue Job} {out : SpscQueue.Pop Job ⊕ Option Job} {pc' : Worker} (hw : w < n)
    (hpc : s.workers w = .pop draining pc)
    (htry : tryPop queueCapacity (s.queues w) pc = (q, out)) (hcall : pc'.call = none)
    (hnext : ∀ pop, pc'.popping = some pop → out = .inl pop) :
    Sound n (s.storePop w q pc pc') := by
  rw [queueCapacity_eq] at htry
  have hcalls : (s.storePop w q pc pc').call = s.call :=
    State.call_of_worker rfl rfl (by rw [hcall, hpc]; rfl)
  have hknown := h.pop w pc hw (by rw [hpc]; rfl)
  obtain ⟨hinv, hcont, -⟩ := SpscQueue.tryPop_spec (h.inv w hw) hknown htry
  refine ⟨?_, ?_, ?_, ?_⟩
  · intro v hv
    by_cases hvw : v = w
    · subst hvw
      simpa [State.storePop] using hinv
    · simpa [State.storePop, Function.update_of_ne hvw] using h.inv v hv
  · intro τ start i push hpush
    rw [hcalls] at hpush
    by_cases hq : queueIndex n start i = w
    · subst hq
      simpa [State.storePop] using
        SpscQueue.tryPop_keeps_push (h.push τ start i push hpush) htry
    · simpa [State.storePop, Function.update_of_ne hq] using h.push τ start i push hpush
  · intro v pop hv hpop
    by_cases hvw : v = w
    · subst hvw
      have hout : out = .inl pop := hnext pop (by simpa [State.storePop] using hpop)
      have htaken := (SpscQueue.tryPop_taken htry).1 pop hout
      simpa [State.storePop, htaken] using hcont pop hout
    · have hold : (s.workers v).popping = some pop := by
        simpa [State.storePop, Function.update_of_ne hvw] using hpop
      simpa [State.storePop, Function.update_of_ne hvw] using h.pop v pop hv hold
  · rw [hcalls]
    exact h.alone

/-- **Every step in which producers keep apart keeps the rings.** -/
theorem sound_step {a : Action} (hn : 0 < n) (h : Sound n s) (hone : OneProducer n s a)
    (hmove : Moves n s a s') : Sound n s' := by
  cases hmove with
  | submit hcan =>
    refine h.moved rfl rfl rfl rfl (fun _ => rfl) ?_
    rintro c ⟨⟩ start i pc ⟨⟩
  | fetch hcall =>
    refine h.moved rfl rfl rfl rfl (fun _ => rfl) ?_
    rintro c ⟨⟩ start i pc ⟨⟩
    exact ⟨_, rfl⟩
  | @push τ start i pc pc' q hcall htry =>
    refine h.storePush hn s.rejected hcall htry hone ?_
    rintro c ⟨⟩
    exact Or.inr ⟨pc', rfl, rfl⟩
  | publish hcall htry =>
    refine h.storePush hn s.rejected hcall htry hone ?_
    rintro c ⟨⟩
    exact Or.inl (by rintro start i pc ⟨⟩)
  | full hcall htry hi =>
    refine h.storePush hn s.rejected hcall htry hone ?_
    rintro c ⟨⟩
    exact Or.inl (by rintro start i pc ⟨⟩; exact ⟨_, rfl⟩)
  | reject hcall htry =>
    refine h.storePush hn _ hcall htry hone ?_
    rintro c ⟨⟩
  | count hcall =>
    refine h.moved rfl rfl rfl rfl (fun _ => rfl) ?_
    rintro c ⟨⟩
  | check hw hpc =>
    refine h.worker rfl rfl rfl rfl rfl (by rw [hpc]; rfl) ?_
    rintro pop ⟨⟩
    rfl
  | pop hw hpc htry =>
    refine h.storePop hw hpc htry rfl ?_
    rintro pop ⟨⟩
    rfl
  | take hw hpc htry =>
    refine h.storePop hw hpc htry rfl ?_
    rintro pop ⟨⟩
  | @empty w draining pc q hw hpc htry =>
    refine h.storePop hw hpc htry ?_ ?_
    · cases draining <;> rfl
    · cases draining <;> rintro pop ⟨⟩
  | finish hw hpc =>
    refine h.worker rfl rfl rfl rfl rfl (by rw [hpc]; rfl) ?_
    rintro pop ⟨⟩
  | @subtract w draining job hw hpc =>
    refine h.worker rfl rfl rfl rfl rfl ?_ ?_
    · rw [hpc]
      cases draining <;> rfl
    · cases draining <;> rintro pop ⟨⟩
      rfl
  | @client t a pc stop hmove =>
    have hcalls : State.call { s with
        stopRequested := stop, clients := Function.update s.clients t pc } = s.call :=
      State.call_of_client rfl rfl hmove.call_eq
    exact h.control rfl rfl rfl (fun τ c hc => Or.inl (hcalls ▸ hc)) (fun w pc hpc => Or.inl hpc)

/-- **The queues are rings in every run in which producers keep apart.** -/
theorem sound_of_reachable (hn : 0 < n) {C : State → Action → Prop}
    (hone : ∀ s a, C s a → OneProducer n s a) (h : (machine n).ReachableBy C s) : Sound n s := by
  refine Machine.ReachableBy.invariant (I := Sound n) ?_
    (fun s a _ _ hs hC hstep => sound_step hn hs (hone s a hC) (step_cases hstep)) h
  refine ⟨fun w _ => SpscQueue.inv_empty 12 _, ?_, ?_, ?_⟩
  · rintro (t | w) start i pc hpc <;> cases hpc
  · rintro w pc hw ⟨⟩
  · rintro (t | w) τ' c c' v hc <;> cases hc

end JobSystem

import SapCore.JobSystemProgress

/-!
# Many threads that submit

Any number of threads call `submit`, jobs among them. Every accepted job is
executed exactly once in every run in which the producers of a queue keep apart
and no job is pushed to a queue that has lost its worker (`submit_exactlyOnce`):
the promise holds in every state, and the worker of its queue comes to the job
whatever the others do or leave undone.

It does not hold in every run. `submit` takes its queue from an atomic counter,
as if any thread might call it, and two calls that the counter sends to one ring
can load the same head (`submit_race`).
-/

namespace JobSystem

variable {n : ℕ} {s : State} {j : Job}

/-- **A job that was accepted is executed**: it has been, or the worker of its
queue gets to it by itself. -/
theorem executed_of_accepted {place : Job → Place} (hn : 0 < n) (hplaced : Placed n s place)
    {C : State → Action → Prop} (h : (machine n).ReachableBy C s) (hsound : Sound n s)
    (hdrained : Drained n s) (hj : j ∈ s.accepted) :
    ∃ w s', w < n ∧ LeadsAlone n (.worker w) s s' ∧ s'.executions n j = 1 := by
  obtain ⟨w, hw, -, hmem⟩ := hplaced.pushed_of_accepted hj
  have hkept := kept_of_reachable h
  by_cases hexited : s.workers w = .exited
  · -- a worker that has exited has drained its queue, and has nothing in hand
    have hfinished : j ∈ s.finished w := by
      rw [← hdrained w hw hexited, (hkept w).1, hexited] at hmem
      simpa [Worker.holding] using hmem
    exact ⟨w, s, hw, Machine.Leads.refl s,
      executions_eq_one (executions_le_one hplaced hkept hsound.fifo j) hw hfinished⟩
  · obtain ⟨s', hleads, hone⟩ :=
      executed_of_pushed hn (hsound.alone_of_reachable h w) hw hexited hmem
    exact ⟨w, s', hw, hleads, hone⟩

/-- **Every accepted job is executed exactly once**, for any number of workers
and of threads that call `submit`, jobs among them: in every run in which no
thread loads the head of a queue while another is between its load and its
store there, and no job is published to a queue whose worker has exited, every
state keeps the promise of `submit`, and each accepted job is executed when the
worker of its queue is given its turns. -/
theorem submit_exactlyOnce (hn : 0 < n)
    (h : (machine n).ReachableBy (fun s a => OneProducer n s a ∧ WorkerThere n s a) s) :
    ExactlyOnce n s
      ∧ ∀ j, j ∈ s.accepted →
        ∃ w s', w < n ∧ LeadsAlone n (.worker w) s s' ∧ s'.executions n j = 1 := by
  have hone : ∀ s a, OneProducer n s a ∧ WorkerThere n s a → OneProducer n s a :=
    fun _ _ hC => hC.1
  obtain ⟨place, hplaced⟩ := placed_of_reachable hn h
  have hsound := sound_of_reachable hn hone h
  have hdrained := drained_of_reachable hn hone (fun _ _ hC => hC.2) h
  exact ⟨exactlyOnce_of_drained hplaced (kept_of_reachable h) hsound hdrained hn,
    fun j hj => executed_of_accepted hn hplaced h hsound hdrained hj⟩

/-! ## The threads that submit -/

/-- The queue whose head a call of `submit` is about to store. -/
def Submit.publishing (n : ℕ) : Submit → Option ℕ
  | .push start i (.storeHead _ _) => some (queueIndex n start i)
  | _ => none

/-- Only the threads of a list call `submit`. -/
def SubmittedBy (threads : List Thread) : Action → Prop
  | .submit τ => τ ∈ threads
  | _ => True

instance (threads : List Thread) : DecidablePred (SubmittedBy threads)
  | .submit τ => inferInstanceAs (Decidable (τ ∈ threads))
  | .waitIdle _ | .destroy _ | .next _ => isTrue trivial

/-- **A thread inside `submit` is one that called it.** -/
theorem mem_of_call {threads : List Thread} {C : State → Action → Prop}
    (hC : ∀ s a, C s a → SubmittedBy threads a) (h : (machine n).ReachableBy C s) :
    ∀ τ c, s.call τ = some c → τ ∈ threads := by
  refine Machine.ReachableBy.invariant
    (I := fun s => ∀ τ c, s.call τ = some c → τ ∈ threads) ?_ ?_ h
  · rintro (t | w) c hc <;> cases hc
  · intro s a s' _ hs ha hstep
    -- the thread that moves is one of the list, and the others are where they were
    have hmoved : ∀ {τ : Thread} {s₁ : State} {call : Option Submit}, τ ∈ threads →
        s₁.call = s.call → ∀ τ' c, (s₁.setCall call τ).call τ' = some c → τ' ∈ threads := by
      intro τ s₁ call hτ hcall τ' c hc
      by_cases hne : τ' = τ
      · rw [hne]
        exact hτ
      · rw [State.call_setCall_of_ne hne, hcall] at hc
        exact hs τ' c hc
    have hstays : s'.call = s.call → ∀ τ c, s'.call τ = some c → τ ∈ threads := by
      intro hcall
      rw [hcall]
      exact hs
    cases step_cases hstep with
    | submit hcan => exact hmoved (hC s _ ha) rfl
    | fetch hcall => exact hmoved (hs _ _ hcall) rfl
    | push hcall htry => exact hmoved (hs _ _ hcall) rfl
    | publish hcall htry => exact hmoved (hs _ _ hcall) rfl
    | full hcall htry hi => exact hmoved (hs _ _ hcall) rfl
    | reject hcall htry => exact hmoved (hs _ _ hcall) rfl
    | count hcall => exact hmoved (hs _ _ hcall) rfl
    | check hw hpc => exact hstays (State.call_of_worker rfl rfl (by rw [hpc]; rfl))
    | pop hw hpc htry => exact hstays (State.call_of_worker rfl rfl (by rw [hpc]; rfl))
    | take hw hpc htry => exact hstays (State.call_of_worker rfl rfl (by rw [hpc]; rfl))
    | @empty w draining pc q hw hpc htry =>
      exact hstays (State.call_of_worker rfl rfl (by rw [hpc]; cases draining <;> rfl))
    | finish hw hpc => exact hstays (State.call_of_worker rfl rfl (by rw [hpc]; rfl))
    | @subtract w draining job hw hpc =>
      exact hstays (State.call_of_worker rfl rfl (by rw [hpc]; cases draining <;> rfl))
    | client hmove => exact hstays (State.call_of_client rfl rfl hmove.call_eq)

/-- **The conditions on a step, where the threads of a list submit**: the queue whose head is
loaded has none of them inside, and the queue published to has its worker. -/
def Apart (n : ℕ) (threads : List Thread) (s : State) : Action → Prop
  | .next τ =>
    (∀ w ∈ (s.call τ).bind (Submit.entering n),
        ∀ τ' ∈ threads, (s.call τ').bind (Submit.inside n) ≠ some w)
      ∧ ∀ w ∈ (s.call τ).bind (Submit.publishing n), s.workers w ≠ .exited
  | _ => True

instance (threads : List Thread) (s : State) : DecidablePred (Apart n threads s)
  | .next _ => inferInstanceAs (Decidable (_ ∧ _))
  | .submit _ | .waitIdle _ | .destroy _ => isTrue trivial

/-- **Among threads that are known, the conditions can be checked along a schedule.** -/
theorem meets_of_apart {threads : List Thread}
    (h : (machine n).ReachableBy (fun s a => SubmittedBy threads a ∧ Apart n threads s a) s) :
    (machine n).ReachableBy (fun s a => OneProducer n s a ∧ WorkerThere n s a) s := by
  refine (h.strengthen (D := fun s a => OneProducer n s a ∧ WorkerThere n s a) ?_).mono
    (fun _ _ ha => ha.2)
  rintro s a - hs ⟨-, hapart⟩ -
  have hmem := mem_of_call (fun _ _ ha => ha.1) hs
  refine ⟨?_, ?_⟩
  · rintro τ c w rfl hc hentering τ' c' hc' hinside
    refine hapart.1 w ?_ τ' (hmem τ' c' hc') ?_
    · rw [hc]
      exact hentering
    · rw [hc']
      exact hinside
  · rintro τ start i item head rfl hc
    refine hapart.2 (queueIndex n start i) ?_
    rw [hc]
    rfl

/-- Two clients submit to the two queues at the same time, access by access. The first job is
taken by its worker and submits a third, while a client submits a fourth; then all are run. -/
def crossedSchedule : List Action :=
  [.submit (.client 0), .submit (.client 1)]
    ++ (List.replicate 6 [.next (.client 0), .next (.client 1)]).flatten
    ++ List.replicate 5 (.next (.worker 0))
    ++ [.submit (.worker 0), .submit (.client 1)]
    ++ (List.replicate 6 [.next (.worker 0), .next (.client 1)]).flatten
    ++ List.replicate 9 (.next (.worker 0))
    ++ List.replicate 14 (.next (.worker 1))

/-- The promise where that schedule ends, with the four jobs executed. -/
theorem submit_exactlyOnce_crossed :
    ∃ s, (machine 2).ReachableBy (fun s a => OneProducer 2 s a ∧ WorkerThere 2 s a) s
      ∧ s.accepted = [1, 2, 3, 4] ∧ s.finished 0 = [1, 3] ∧ s.finished 1 = [2, 4]
      ∧ ExactlyOnce 2 s := by
  have hrun : (((machine 2).run (machine 2).init crossedSchedule).map fun s =>
      (s.accepted, s.finished 0, s.finished 1)) = some ([1, 2, 3, 4], [1, 3], [2, 4]) := by
    decide +kernel
  obtain ⟨s, hs, hend⟩ := Option.map_eq_some_iff.mp hrun
  simp only [Prod.mk.injEq] at hend
  obtain ⟨haccepted, hzero, hone⟩ := hend
  have halong : (machine 2).Along (fun s a =>
      SubmittedBy [.client 0, .client 1, .worker 0] a
        ∧ Apart 2 [.client 0, .client 1, .worker 0] s a) (machine 2).init crossedSchedule := by
    decide +kernel
  have hmeets := meets_of_apart (Machine.ReachableBy.init.run_along halong hs)
  exact ⟨s, hmeets, haccepted, hzero, hone, (submit_exactlyOnce Nat.two_pos hmeets).1⟩

/-! ## Two threads at one queue -/

/-- **The race**: on one queue, two clients load the head, both write its slot
and both store the index after it; then the worker runs what it finds. -/
def raceSchedule : List Action :=
  [.submit (.client 0), .submit (.client 1)]
    ++ (List.replicate 6 [.next (.client 0), .next (.client 1)]).flatten
    ++ List.replicate 10 (.next (.worker 0))

/-- **The promise fails.** Both calls of `submit` return `true`, and when the
worker has found its queue empty again only the second job has been executed:
the first is neither executed nor waiting. -/
theorem submit_race :
    ∃ s, (machine 1).Reachable s ∧ s.accepted = [1, 2] ∧ s.finished 0 = [2]
      ∧ s.executions 1 1 = 0 ∧ ¬ s.Awaits 1 1 ∧ ¬ ExactlyOnce 1 s := by
  have hrun : (((machine 1).run (machine 1).init raceSchedule).map fun s =>
      (s.accepted, s.finished 0, s.executions 1 1, (s.workers 0).holding,
        (s.queues 0).count queueCapacity)) = some ([1, 2], [2], 0, [], 0) := by decide
  obtain ⟨s, hs, hend⟩ := Option.map_eq_some_iff.mp hrun
  simp only [Prod.mk.injEq] at hend
  obtain ⟨haccepted, hfinished, hzero, hholding, hcount⟩ := hend
  have hreach := Machine.ReachableBy.run (L := fun _ => True) Machine.ReachableBy.init
    (fun _ _ => trivial) hs
  have hlost : ¬ s.Awaits 1 1 := by
    rintro ⟨w, hw, -, hmem | ⟨d, hd, -⟩⟩
    · obtain rfl : w = 0 := by omega
      rw [hholding] at hmem
      cases hmem
    · obtain rfl : w = 0 := by omega
      omega
  refine ⟨s, hreach, haccepted, hfinished, hzero, hlost, fun hpromise => ?_⟩
  obtain hone | hawaits := hpromise.executed 1 (by simp [haccepted])
  · omega
  · exact hlost hawaits

end JobSystem

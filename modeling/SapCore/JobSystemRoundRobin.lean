import SapCore.JobSystemDispatch
import SapCore.JobSystemSchedules

/-!
# Round-robin dispatch

What `submit` promises about the queues: a call tries each at most once and is refused only
where it found all of them full, a job that a full queue turns away is still whole when the
next one is tried, and as many calls in a row as there are queues, each finding room at once,
fill as many different queues (`RoundRobin`).

The queue a call starts with is the remainder of a counter of 32 bits. When the counter comes
round, the remainders start again at zero, and unless the number of queues divides `2 ^ 32`
they do so in the middle of a turn: the last call before the counter comes round and one of
those after it start with the same queue, less than a turn apart. So the promise is kept for
ever exactly by numbers of queues that divide `2 ^ 32` (`roundRobin_iff`); by any number up to
`2 ^ 31` it is kept for the first `2 ^ 32` calls (`Recorded.roundRobin`).
-/

namespace JobSystem

open SpscQueue (tryPush)

variable {n : ℕ} {s : State} {r : Dispatch} {j w : ℕ}

/-- **What `submit` promises about the queues.** -/
structure RoundRobin (n : ℕ) (s : State) (r : Dispatch) : Prop where
  /-- A call tries each queue at most once. -/
  once : ∀ j, ((r.log j).map Try.queue).Nodup
  /-- A call returns `false` only if it found every queue full. -/
  refused : ∀ j ∈ s.rejected, ∀ w, w < n → ∃ t ∈ r.log j, t.queue = w ∧ t.room = false
  /-- Every queue that is tried is offered the job of the call. -/
  intact : ∀ t ∈ r.tries, t.item = t.call
  /-- A job is in a queue that had room for it. -/
  placed : ∀ j w, j ∈ s.pushed w → ∃ t ∈ r.log j, t.queue = w ∧ t.room = true
  /-- As many calls in a row as there are queues, each of which found room in the first queue
  it tried, put their jobs into different queues. -/
  spread : ∀ k, (∀ j, k < j → j ≤ k + n → ∃ t, (r.log j).head? = some t ∧ t.room = true) →
    ∀ i j w, k < i → i < j → j ≤ k + n → i ∈ s.pushed w → j ∉ s.pushed w

/-! ## The queues of a call -/

/-- While the sums of the loop fit 32 bits, the rounds of a call go through the queues in
turn. -/
theorem roundQueue_eq (hn : 0 < n) (hle : n ≤ 2 ^ 31) {i : ℕ} (hi : i < n) (j : ℕ) :
    roundQueue n j i = ((j - 1) % 2 ^ 32 % n + i) % n := by
  have hstart := Nat.mod_lt ((j - 1) % 2 ^ 32) hn
  rw [roundQueue, queueIndex, Nat.mod_eq_of_lt (b := 2 ^ 32) (by omega)]

/-- The first queue of a call. -/
theorem roundQueue_zero (hn : 0 < n) (hlt : n < 2 ^ 32) (j : ℕ) :
    roundQueue n j 0 = (j - 1) % 2 ^ 32 % n := by
  have hstart := Nat.mod_lt ((j - 1) % 2 ^ 32) hn
  rw [roundQueue, queueIndex, Nat.add_zero, Nat.mod_eq_of_lt (b := 2 ^ 32) (by omega), Nat.mod_mod]

theorem roundQueue_injOn (hn : 0 < n) (hle : n ≤ 2 ^ 31) (j : ℕ) {i k : ℕ} (hi : i < n)
    (hk : k < n) (heq : roundQueue n j i = roundQueue n j k) : i = k := by
  rw [roundQueue_eq hn hle hi, roundQueue_eq hn hle hk] at heq
  have hmod := Nat.ModEq.add_left_cancel' _ heq
  rwa [Nat.ModEq, Nat.mod_eq_of_lt hi, Nat.mod_eq_of_lt hk] at hmod

/-- Every queue has a round. -/
theorem exists_roundQueue (hn : 0 < n) (hle : n ≤ 2 ^ 31) (j : ℕ) (hw : w < n) :
    ∃ i, i < n ∧ roundQueue n j i = w := by
  have hstart := Nat.mod_lt ((j - 1) % 2 ^ 32) hn
  refine ⟨(w + n - (j - 1) % 2 ^ 32 % n) % n, Nat.mod_lt _ hn, ?_⟩
  rw [roundQueue_eq hn hle (Nat.mod_lt _ hn), Nat.add_mod_mod, Nat.add_sub_cancel' (by omega),
    Nat.add_mod_right, Nat.mod_eq_of_lt hw]

/-- **What the record of a call can be**: full rounds only, and the job in no queue; or full
rounds and one with room, and the job nowhere but in that queue. -/
def Logged (n : ℕ) (s : State) (r : Dispatch) (j : ℕ) : Prop :=
  (∃ i, i ≤ n ∧ r.log j = fullRounds n j i ∧ (j ∈ s.rejected → i = n) ∧ ∀ w, j ∉ s.pushed w)
    ∨ ∃ i, i < n ∧ r.log j = roundsTo n j i ∧ j ∉ s.rejected
      ∧ ∀ w, j ∈ s.pushed w → w = roundQueue n j i

theorem Ended.logged (h : Ended n s r j) : Logged n s r j := by
  obtain ⟨i, hi, hlog, hnot, hpushed⟩ | ⟨hlog, hpushed⟩ := h
  · exact Or.inr ⟨i, hi, hlog, hnot, fun w => (hpushed w).mp⟩
  · exact Or.inl ⟨n, le_refl n, hlog, fun _ => rfl, hpushed⟩

theorem Carried.logged (h : Carried s j) {i : ℕ} (hi : i ≤ n) (hlog : r.log j = fullRounds n j i) :
    Logged n s r j :=
  Or.inl ⟨i, hi, hlog, fun hj => absurd hj h.1, h.2⟩

theorem Recorded.logged (h : Recorded n s r) (j : ℕ) : Logged n s r j := by
  by_cases habsent : j = 0 ∨ s.submitted < j
  · obtain ⟨hlog, hcarried⟩ := h.absent j habsent
    exact hcarried.logged (Nat.zero_le n) hlog
  obtain hlt | rfl : j < s.submitted ∨ j = s.submitted := by omega
  · exact (h.past j (by omega) hlt).logged
  have hstands := h.present (by omega)
  revert hstands
  cases s.call (.client 0) with
  | none => exact Ended.logged
  | some c =>
    cases c with
    | fetchQueue job =>
      rintro ⟨-, -, hlog, hcarried⟩
      exact hcarried.logged (Nat.zero_le n) hlog
    | count job =>
      rintro ⟨-, i, hi, hlog, hnot, hpushed⟩
      exact Or.inr ⟨i, hi, hlog, hnot, fun w => (hpushed w).mp⟩
    | push start i pc =>
      rintro ⟨-, hi, -, hcarried, hrest⟩
      have hroom : r.log s.submitted = roundsTo n s.submitted i → Logged n s r s.submitted :=
        fun hlog => Or.inr ⟨i, hi, hlog, hcarried.1, fun w hw => absurd hw (hcarried.2 w)⟩
      cases pc with
      | loadHead item => exact hcarried.logged hi.le hrest.2
      | loadTail item head => exact hcarried.logged hi.le hrest.2
      | writeSlot item head => exact hroom hrest.2
      | storeHead item head => exact hroom hrest

/-! ## The promise -/

theorem map_queue_fullRounds (n j i : ℕ) :
    (fullRounds n j i).map Try.queue = (List.range i).map (roundQueue n j) := by
  rw [fullRounds, List.map_map]
  rfl

theorem map_queue_roundsTo (n j i : ℕ) :
    (roundsTo n j i).map Try.queue = (List.range (i + 1)).map (roundQueue n j) := by
  rw [roundsTo, List.map_append, map_queue_fullRounds, List.range_succ, List.map_append]
  rfl

/-- A call that found room at once tried one queue. -/
theorem Logged.of_room (h : Logged n s r j) {t : Try} (hhead : (r.log j).head? = some t)
    (hroom : t.room = true) : ∀ w, j ∈ s.pushed w → w = roundQueue n j 0 := by
  obtain ⟨i, -, hlog, -⟩ | ⟨i, -, hlog, -, hpushed⟩ := h
  · rw [hlog] at hhead
    obtain ⟨k, -, rfl⟩ := List.mem_map.mp (List.mem_of_mem_head? hhead)
    cases hroom
  · cases i with
    | zero => exact hpushed
    | succ i =>
      -- the first of several rounds found its queue full
      rw [hlog, roundsTo, fullRounds, List.range_succ_eq_map] at hhead
      cases hhead
      cases hroom

/-- **The promise is kept** while the sums of the loop fit 32 bits, for ever where the number
of queues divides `2 ^ 32` and otherwise until the counter comes round. -/
theorem Recorded.roundRobin (h : Recorded n s r) (hn : 0 < n) (hle : n ≤ 2 ^ 31)
    (hround : n ∣ 2 ^ 32 ∨ s.submitted ≤ 2 ^ 32) : RoundRobin n s r where
  once j := by
    have hnodup : ∀ i, i ≤ n → ((List.range i).map (roundQueue n j)).Nodup := by
      intro i hi
      refine List.nodup_range.map_on (fun k hk l hl heq => ?_)
      exact roundQueue_injOn hn hle j (by have := List.mem_range.mp hk; omega)
        (by have := List.mem_range.mp hl; omega) heq
    obtain ⟨i, hi, hlog, -⟩ | ⟨i, hi, hlog, -⟩ := h.logged j
    · rw [hlog, map_queue_fullRounds]
      exact hnodup i hi
    · rw [hlog, map_queue_roundsTo]
      exact hnodup (i + 1) hi
  refused j hj w hw := by
    obtain ⟨i, hi, hlog, hall, -⟩ | ⟨i, hi, hlog, hnot, -⟩ := h.logged j
    · obtain ⟨k, hk, rfl⟩ := exists_roundQueue hn hle j hw
      rw [hlog, hall hj]
      exact ⟨_, List.mem_map.mpr ⟨k, List.mem_range.mpr hk, rfl⟩, rfl, rfl⟩
    · exact absurd hj hnot
  intact t ht := by
    have hlogged : t ∈ r.log t.call := List.mem_filter.mpr ⟨ht, by simp⟩
    obtain ⟨i, -, hlog, -⟩ | ⟨i, -, hlog, -⟩ := h.logged t.call
    · rw [hlog] at hlogged
      obtain ⟨k, -, heq⟩ := List.mem_map.mp hlogged
      exact (congrArg Try.item heq).symm
    · rw [hlog] at hlogged
      obtain hfull | hroom := List.mem_append.mp hlogged
      · obtain ⟨k, -, heq⟩ := List.mem_map.mp hfull
        exact (congrArg Try.item heq).symm
      · exact congrArg Try.item (List.mem_singleton.mp hroom)
  placed j w hw := by
    obtain ⟨i, -, -, -, hnot⟩ | ⟨i, -, hlog, -, hpushed⟩ := h.logged j
    · exact absurd hw (hnot w)
    · rw [hlog, hpushed w hw]
      exact ⟨_, List.mem_append_right _ (List.mem_singleton_self _), rfl, rfl⟩
  spread k hall i j w hki hij hjk hi hj := by
    obtain ⟨t, hhead, hroom⟩ := hall i hki (by omega)
    obtain ⟨t', hhead', hroom'⟩ := hall j (by omega) hjk
    have hwi := (h.logged i).of_room hhead hroom w hi
    have hwj := (h.logged j).of_room hhead' hroom' w hj
    rw [hwi, roundQueue_zero hn (by omega), roundQueue_zero hn (by omega)] at hwj
    -- the two counters differ by less than the number of queues
    have hmod : (i - 1) % n = (j - 1) % n := by
      obtain hdvd | hfew := hround
      · rwa [Nat.mod_mod_of_dvd _ hdvd, Nat.mod_mod_of_dvd _ hdvd] at hwj
      · have hle' : j ≤ s.submitted := by
          by_contra habsent
          exact (h.absent j (Or.inr (by omega))).2.2 w hj
        rwa [Nat.mod_eq_of_lt (a := i - 1) (by omega), Nat.mod_eq_of_lt (a := j - 1) (by omega)]
          at hwj
    have hdvd := (Nat.modEq_iff_dvd' (by omega)).mp hmod
    have := Nat.le_of_dvd (by omega) hdvd
    omega

/-! ## A run of any length

Jobs are submitted one at a time, and each is run before the next. -/

/-- A call of `submit` begins, and fetches the queue to start with. -/
theorem run_fetch_recorded (hidle : s.clients 0 = .idle) :
    (dispatching n).run (s, r) [.submit (.client 0), .next (.client 0)]
      = some ({ s with
          nextQueue := s.nextQueue + 1
          clients := Function.update s.clients 0
            (.submitting (.push (s.nextQueue.toNat % n) 0 (.loadHead (s.submitted + 1))))
          submitted := s.submitted + 1 }, ⟨s.submitted + 1, r.tries⟩) := by
  simp [Machine.run, dispatching, Machine.recording, machine, step, State.canSubmit, hidle,
    State.setCall, State.call, Client.call, Client.ofCall, submit, enterTry]

/-- A round that finds room in its queue, with what it enters in the record. -/
theorem run_round_recorded {start i : ℕ} {item : Job}
    (hpc : s.clients 0 = .submitting (.push start i (.loadHead item)))
    (hroom : SpscQueue.next queueCapacity (s.queues (queueIndex n start i)).head
      ≠ (s.queues (queueIndex n start i)).tail) :
    (dispatching n).run (s, r) (List.replicate 4 (.next (.client 0)))
      = some ({ s with
          queues := Function.update s.queues (queueIndex n start i)
            (enqueue (s.queues (queueIndex n start i)) item)
          clients := Function.update s.clients 0 (.submitting (.count item))
          pushed := Function.update s.pushed (queueIndex n start i)
            (s.pushed (queueIndex n start i) ++ [item]) },
        ⟨0, r.tries ++ [⟨s.submitted, r.held, queueIndex n start i, true⟩]⟩) := by
  simp [Machine.run, dispatching, Machine.recording, machine, List.replicate, step, State.call,
    hpc, Client.call, State.setCall, Client.ofCall, submit, tryPush, hroom,
    SpscQueue.Push.published, SpscQueue.Push.item, enqueue, enterTry, compared, leftBy]

/-- A call of `submit` that finds room in the first queue it tries. -/
theorem run_push_recorded (hidle : s.clients 0 = .idle)
    (hroom : SpscQueue.next queueCapacity (s.queues (s.startQueue n)).head
      ≠ (s.queues (s.startQueue n)).tail) :
    (dispatching n).run (s, r) (.submit (.client 0) :: List.replicate 5 (.next (.client 0)))
      = some (s.afterPush n,
        ⟨0, r.tries ++ [⟨s.submitted + 1, s.submitted + 1, s.startQueue n, true⟩]⟩) := by
  have hsplit : (.submit (.client 0) :: List.replicate 5 (.next (.client 0)) : List Action)
      = [.submit (.client 0), .next (.client 0)] ++ List.replicate 4 (.next (.client 0)) := rfl
  rw [hsplit, Machine.run_append, run_fetch_recorded hidle, Option.bind_some]
  refine Eq.trans (run_round_recorded rfl hroom) ?_
  rw [Function.update_idem]
  rfl

theorem run_count_recorded {job : Job} (hpc : s.clients 0 = .submitting (.count job)) :
    (dispatching n).run (s, r) [.next (.client 0)] = some (s.afterCount job, r) := by
  simp [Machine.run, dispatching, Machine.recording, machine, step, State.setCall, State.call,
    Client.call, hpc, Client.ofCall, submit, State.afterCount, enterTry]

/-- A worker whose job is not inside `submit` enters nothing, however far it is run. -/
theorem run_worker_recorded {s' : State} {pc : Worker} {k : ℕ} (hpc : s.workers w = pc)
    (hcall : pc.call = none)
    (hrun : (machine n).run s (List.replicate k (.next (.worker w))) = some s') :
    (dispatching n).run (s, r) (List.replicate k (.next (.worker w))) = some (s', r) := by
  subst hpc
  refine Machine.run_recording_of_keeps (I := fun s => s.call (.worker w) = none)
    (L := (· = .next (.worker w))) ?_ hcall (fun a ha => List.eq_of_mem_replicate ha) hrun r
  rintro s _ s' hcall rfl hstep
  obtain ⟨-, -, -, -, hcalls⟩ := frame_of_outside hcall (step_cases hstep)
  refine ⟨hcalls ▸ hcall, fun r => ?_⟩
  simp only [enterTry, hcall]

/-- An empty queue has room. -/
theorem next_ne_self (index : ℕ) : SpscQueue.next queueCapacity index ≠ index := by
  rw [SpscQueue.next, queueCapacity_eq, Nat.and_two_pow_sub_one_eq_mod]
  omega

/-- A job was submitted while all queues were empty, and the worker of its queue has run it. -/
def State.afterOne (n : ℕ) (s : State) : State :=
  let s₂ := (s.afterPush n).afterCount (s.submitted + 1)
  (s₂.afterTake (s.startQueue n)).afterRun (s.startQueue n)
    ((s₂.queues (s.startQueue n)).buffer (s₂.queues (s.startQueue n)).tail)

/-- The workers are where they were. -/
theorem afterOne_workers (hw : s.workers w = .checkStop) :
    (s.afterOne n).workers w = .checkStop := by
  by_cases hwq : w = s.startQueue n
  · rw [hwq]
    exact Function.update_self _ _ _
  · exact (Function.update_of_ne hwq _ _).trans ((Function.update_of_ne hwq _ _).trans hw)

/-- The queues are empty again. -/
theorem afterOne_queues (hempty : ∀ w, (s.queues w).tail = (s.queues w).head) (w : ℕ) :
    ((s.afterOne n).queues w).tail = ((s.afterOne n).queues w).head := by
  by_cases hwq : w = s.startQueue n
  · -- both ends of the queue have moved by one
    have hboth : (s.afterOne n).queues (s.startQueue n)
        = dequeue (enqueue (s.queues (s.startQueue n)) (s.submitted + 1)) :=
      (Function.update_self _ _ _).trans (congrArg dequeue (afterPush_queues_self rfl))
    rw [hwq, hboth]
    exact congrArg (SpscQueue.next queueCapacity) (hempty _)
  · have hsame : (s.afterOne n).queues w = s.queues w :=
      (Function.update_of_ne hwq _ _).trans (afterPush_queues_of_ne hwq)
    rw [hsame]
    exact hempty w

/-- **The run of one job**, with what it enters in the record. -/
theorem reachable_afterOne (hn : 0 < n)
    (hs : (dispatching n).ReachableBy (fun _ a => OneSubmitter a) (s, r))
    (hidle : s.clients 0 = .idle) (hfree : ∀ w, w < n → s.workers w = .checkStop)
    (hstop : ∀ w, s.stopRequested w = false)
    (hempty : ∀ w, (s.queues w).tail = (s.queues w).head) :
    (dispatching n).ReachableBy (fun _ a => OneSubmitter a) (s.afterOne n,
      ⟨0, r.tries ++ [⟨s.submitted + 1, s.submitted + 1, s.startQueue n, true⟩]⟩) := by
  have hw : s.startQueue n < n := Nat.mod_lt _ hn
  have hroom : SpscQueue.next queueCapacity (s.queues (s.startQueue n)).head
      ≠ (s.queues (s.startQueue n)).tail := by
    rw [hempty]
    exact next_ne_self _
  have hqueue : (s.afterPush n).queues (s.startQueue n)
      = enqueue (s.queues (s.startQueue n)) (s.submitted + 1) := afterPush_queues_self rfl
  have hsome : (((s.afterPush n).afterCount (s.submitted + 1)).queues (s.startQueue n)).tail
      ≠ (((s.afterPush n).afterCount (s.submitted + 1)).queues (s.startQueue n)).head := by
    show ((s.afterPush n).queues (s.startQueue n)).tail
      ≠ ((s.afterPush n).queues (s.startQueue n)).head
    rw [hqueue]
    exact hroom.symm
  have hpushed := hs.run (by decide) (run_push_recorded hidle hroom)
  have hcounted := hpushed.run (by decide) (run_count_recorded rfl)
  have htaken := hcounted.run (by simp [OneSubmitter])
    (run_worker_recorded (hfree _ hw) rfl (run_take hw (hfree _ hw) (hstop _) hsome))
  exact htaken.run (by simp [OneSubmitter])
    (run_worker_recorded (Function.update_self _ _ _) rfl
      (run_finish hw (Function.update_self _ _ _)))

/-- **`k` jobs submitted one at a time**, each of which found room at once, and all of them
run. -/
structure Quiet (n k : ℕ) (d : State × Dispatch) : Prop where
  reached : (dispatching n).ReachableBy (fun _ a => OneSubmitter a) d
  idle : d.1.clients 0 = .idle
  submitted : d.1.submitted = k
  free : ∀ w, w < n → d.1.workers w = .checkStop
  stop : ∀ w, d.1.stopRequested w = false
  empty : ∀ w, (d.1.queues w).tail = (d.1.queues w).head
  room : ∀ j, 0 < j → j ≤ k → ∃ t, (d.2.log j).head? = some t ∧ t.room = true
  pushed : ∀ j, 0 < j → j ≤ k → j ∈ d.1.pushed (roundQueue n j 0)

theorem quiet_zero : Quiet n 0 (dispatching n).init where
  reached := Machine.ReachableBy.init
  idle := rfl
  submitted := rfl
  free _ _ := rfl
  stop _ := rfl
  empty _ := rfl
  room j hj hle := absurd hj (by omega)
  pushed j hj hle := absurd hj (by omega)

/-- **One more.** -/
theorem Quiet.succ (hn : 0 < n) {k : ℕ} {d : State × Dispatch} (h : Quiet n k d) :
    ∃ d', Quiet n (k + 1) d' := by
  obtain ⟨s, r⟩ := d
  have hrecorded := recorded_of_reachable hn h.reached
  have hsubmitted : s.submitted = k := h.submitted
  have hstart : s.startQueue n = roundQueue n (k + 1) 0 := by
    have hidle : s.call (.client 0) = none := by
      rw [State.call, h.idle]
      rfl
    have hcounter := hrecorded.counter
    rw [fetched_of_call hidle (by simp), hsubmitted] at hcounter
    rw [State.startQueue, hcounter]
    rfl
  obtain ⟨hown, hothers⟩ := log_concat (s := s.afterOne n) (r := r) 0
    (t := ⟨s.submitted + 1, s.submitted + 1, s.startQueue n, true⟩) rfl
  refine ⟨_, reachable_afterOne hn h.reached h.idle h.free h.stop h.empty, rfl,
    congrArg (· + 1) hsubmitted, fun w hw => afterOne_workers (h.free w hw), h.stop,
    afterOne_queues h.empty, fun j hj hle => ?_, fun j hj hle => ?_⟩
  · obtain hlt | rfl : j ≤ k ∨ j = k + 1 := by omega
    · obtain ⟨t, ht, hroom⟩ := h.room j hj hlt
      exact ⟨t, by rw [hothers j (by show j ≠ s.submitted + 1; omega)]; exact ht, hroom⟩
    · have hnone := (hrecorded.absent (k + 1) (Or.inr (by show s.submitted < k + 1; omega))).1
      refine ⟨⟨s.submitted + 1, s.submitted + 1, s.startQueue n, true⟩, ?_, rfl⟩
      rw [← hsubmitted] at hnone ⊢
      exact congrArg List.head? (hown.trans (congrArg (· ++ _) hnone))
  · show j ∈ Function.update s.pushed (s.startQueue n) _ _
    rw [Function.update_apply]
    obtain hlt | rfl : j ≤ k ∨ j = k + 1 := by omega
    · have hold : j ∈ s.pushed (roundQueue n j 0) := h.pushed j hj hlt
      split
      · rename_i heq
        rw [← heq]
        exact List.mem_append_left _ hold
      · exact hold
    · rw [if_pos hstart.symm, hsubmitted]
      exact List.mem_append_right _ (List.mem_singleton_self _)

/-- **Jobs can be submitted one at a time without end.** -/
theorem exists_quiet (hn : 0 < n) (k : ℕ) : ∃ d, Quiet n k d := by
  induction k with
  | zero => exact ⟨_, quiet_zero⟩
  | succ k ih =>
    obtain ⟨d, hd⟩ := ih
    exact hd.succ hn

/-- **Where the counter comes round in the middle of a turn**, the last call before that and
one of those after it, less than a turn apart, go to the same queue. -/
theorem exists_not_spread (hn : 0 < n) (hlt : n < 2 ^ 32) (hdvd : ¬ n ∣ 2 ^ 32) :
    ∃ d, (dispatching n).ReachableBy (fun _ a => OneSubmitter a) d
      ∧ (∀ j, 2 ^ 32 - 1 < j → j ≤ 2 ^ 32 - 1 + n →
        ∃ t, (d.2.log j).head? = some t ∧ t.room = true)
      ∧ 2 ^ 32 ∈ d.1.pushed (2 ^ 32 % n - 1)
      ∧ 2 ^ 32 + 2 ^ 32 % n ∈ d.1.pushed (2 ^ 32 % n - 1) := by
  obtain ⟨d, hd⟩ := exists_quiet hn (2 ^ 32 + n)
  have hpos : 0 < 2 ^ 32 % n := Nat.pos_of_ne_zero (fun h => hdvd (Nat.dvd_of_mod_eq_zero h))
  have hless := Nat.mod_lt (2 ^ 32) hn
  refine ⟨d, hd.reached, fun j _ hle => hd.room j (by omega) (by omega), ?_, ?_⟩
  · have hlast : roundQueue n (2 ^ 32) 0 = 2 ^ 32 % n - 1 := by
      have hdiv := Nat.div_add_mod (2 ^ 32) n
      rw [roundQueue_zero hn hlt, Nat.mod_eq_of_lt (b := 2 ^ 32) (by omega)]
      have hsplit : 2 ^ 32 - 1 = 2 ^ 32 % n - 1 + n * (2 ^ 32 / n) := by omega
      rw [hsplit, Nat.add_mul_mod_self_left, Nat.mod_eq_of_lt (by omega)]
    exact hlast ▸ hd.pushed (2 ^ 32) (by omega) (by omega)
  · have hagain : roundQueue n (2 ^ 32 + 2 ^ 32 % n) 0 = 2 ^ 32 % n - 1 := by
      rw [roundQueue_zero hn hlt,
        show 2 ^ 32 + 2 ^ 32 % n - 1 = 2 ^ 32 % n - 1 + 2 ^ 32 by omega, Nat.add_mod_right,
        Nat.mod_eq_of_lt (b := 2 ^ 32) (by omega), Nat.mod_eq_of_lt (by omega)]
    exact hagain ▸ hd.pushed (2 ^ 32 + 2 ^ 32 % n) (by omega) (by omega)

/-- **The promise is kept for ever exactly by numbers of threads that divide `2 ^ 32`.** -/
theorem roundRobin_iff (threads : UInt32) (hn : 0 < threads) :
    (∀ d, (dispatching threads.toNat).ReachableBy (fun _ a => OneSubmitter a) d →
        RoundRobin threads.toNat d.1 d.2)
      ↔ threads.toNat ∣ 2 ^ 32 := by
  have hpos : 0 < threads.toNat := UInt32.lt_iff_toNat_lt.mp hn
  have hlt := threads.toNat_lt
  constructor
  · intro hall
    by_contra hdvd
    obtain ⟨d, hd, hroom, hlast, hagain⟩ := exists_not_spread hpos hlt hdvd
    have hr : 0 < 2 ^ 32 % threads.toNat :=
      Nat.pos_of_ne_zero (fun h => hdvd (Nat.dvd_of_mod_eq_zero h))
    have hless := Nat.mod_lt (2 ^ 32) hpos
    exact (hall d hd).spread (2 ^ 32 - 1) hroom (2 ^ 32) (2 ^ 32 + 2 ^ 32 % threads.toNat) _
      (by omega) (by omega) (by omega) hlast hagain
  · intro hdvd d hd
    obtain ⟨m, hm⟩ := hdvd
    have hle : threads.toNat ≤ 2 ^ 31 := by
      have hm2 : 2 ≤ m := by
        by_contra hm2
        have : threads.toNat * m ≤ threads.toNat * 1 := Nat.mul_le_mul_left _ (by omega)
        omega
      have := Nat.mul_le_mul_left threads.toNat hm2
      omega
    exact (recorded_of_reachable hpos hd).roundRobin hpos hle (Or.inl ⟨m, hm⟩)

/-- Four threads keep it. -/
theorem roundRobin_iff_four :
    0 < (4 : UInt32)
      ∧ ∀ d, (dispatching 4).ReachableBy (fun _ a => OneSubmitter a) d → RoundRobin 4 d.1 d.2 :=
  ⟨by decide, (roundRobin_iff 4 (by decide)).mpr (by decide)⟩

/-- **Three threads do not**: jobs `2 ^ 32` and `2 ^ 32 + 1`, submitted one after the other and
both taken at once, are in the same queue. -/
theorem roundRobin_three :
    (∃ d, (dispatching 3).ReachableBy (fun _ a => OneSubmitter a) d
        ∧ (∀ j, 2 ^ 32 - 1 < j → j ≤ 2 ^ 32 - 1 + 3 →
          ∃ t, (d.2.log j).head? = some t ∧ t.room = true)
        ∧ 2 ^ 32 ∈ d.1.pushed 0 ∧ 2 ^ 32 + 1 ∈ d.1.pushed 0)
      ∧ ¬ ∀ (threads : UInt32) (d : State × Dispatch), 0 < threads →
        (dispatching threads.toNat).ReachableBy (fun _ a => OneSubmitter a) d →
        RoundRobin threads.toNat d.1 d.2 := by
  have hthree := exists_not_spread (n := 3) (by decide) (by decide) (by decide)
  refine ⟨hthree, fun hall => ?_⟩
  obtain ⟨d, hd, hroom, hlast, hagain⟩ := hthree
  exact (hall 3 d (by decide) hd).spread (2 ^ 32 - 1) hroom (2 ^ 32) (2 ^ 32 + 1) 0 (by decide)
    (by decide) (by decide) hlast hagain

end JobSystem

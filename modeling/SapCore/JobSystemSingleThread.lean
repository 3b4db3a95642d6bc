import SapCore.JobSystemCompletion
import SapCore.JobSystemSchedules

/-!
# One thread from construction to destruction

One thread makes every call: it submits, waits for the job system to be idle,
and destroys it. Then every accepted job is executed exactly once, in the order
of its queue and by the worker of that queue, a rejected job never, and once the
destructor has returned all accepted jobs have been executed and the counter is
zero (`Served`). When `wait_idle` returns every job accepted so far has been
executed (`IdleServed`) – as long as the counter cannot come round, that is,
with fewer than `2 ^ 20` workers. With that many, `2 ^ 32` jobs can be
outstanding at once, and the counter reads zero (`singleThread_iff`).
-/

namespace JobSystem

variable {n k : ℕ} {s s' : State} {j : Job}

/-- **What one thread is promised at any time.** -/
structure Served (n : ℕ) (s : State) : Prop extends ExactlyOnce n s where
  /-- A worker executes the jobs of its queue, in the order they were pushed. -/
  fifo : ∀ w, w < n → s.finished w <+: s.pushed w
  /-- A job is executed by the worker whose queue it was pushed to. -/
  owner : ∀ j v w, w < n → j ∈ s.pushed v → j ∈ s.finished w → v = w
  /-- A job rejected is not executed, nor begun. -/
  rejected : ∀ j, j ∈ s.rejected → s.executions n j = 0 ∧ ∀ w, w < n → j ∉ s.popped w
  /-- Once the destructor has returned, all accepted jobs have been executed and
  the counter is zero. -/
  destroyed : s.clients 0 = .destroyed →
    (∀ j, j ∈ s.accepted → s.executions n j = 1) ∧ s.pendingJobs = 0

/-- **What it is promised when `wait_idle` returns**: all jobs accepted so far
have been executed. -/
def IdleServed (n : ℕ) (s : State) : Prop :=
  ∀ since, s.clients 0 = .waiting since → s.pendingJobs = 0 →
    ∀ j, j ∈ s.accepted → s.executions n j = 1

/-- **One thread is served in every run.** -/
theorem served_of_single (hn : 0 < n) (h : Single n s) : Served n s := by
  obtain ⟨place, hplaced⟩ := placed_of_reachable hn h
  have hkept := kept_of_reachable h
  have hsound := sound_of_submitter hn oneSubmitter_of_single h
  have horderly := orderly_of_reachable oneSubmitter_of_single h
  have hdrained := drained_of_submitter hn oneSubmitter_of_single h
  have honce := exactlyOnce_of_drained hplaced hkept hsound hdrained hn
  have hpopped : ∀ w, w < n → ∀ j, j ∈ s.popped w → j ∈ s.pushed w :=
    fun w hw j hj => (hsound.fifo w hw).subset hj
  have hfinished : ∀ w, w < n → ∀ j, j ∈ s.finished w → j ∈ s.pushed w :=
    fun w hw j hj => (finished_prefix_pushed hkept (hsound.fifo w hw)).subset hj
  refine { honce with
    fifo := fun w hw => finished_prefix_pushed hkept (hsound.fifo w hw)
    owner := fun j v w hw hv hj => hplaced.queue_unique hv (hfinished w hw j hj)
    rejected := fun j hj => ?_
    destroyed := fun hd => ?_ }
  · have hnot : ∀ w, j ∉ s.pushed w := fun w hmem => hplaced.not_pushed_of_rejected hj w hmem
    refine ⟨Finset.sum_eq_zero (fun w hw => List.count_eq_zero.mpr (fun hmem => ?_)), ?_⟩
    · exact hnot w (hfinished w (Finset.mem_range.mp hw) j hmem)
    · exact fun w hw hmem => hnot w (hpopped w hw j hmem)
  · have hexited := horderly.destroyed hd
    refine ⟨honce.drained hexited, ?_⟩
    refine pendingJobs_eq_zero (counted_of_reachable h)
      (tallied_of_reachable hn oneSubmitter_of_single h)
      (fun w hw => subtracted_of_exited hn h hw (hexited w hw)) ?_
    rw [State.call, hd]
    rfl

/-- **With fewer than `2 ^ 20` workers `wait_idle` keeps its promise.** -/
theorem idleServed_of_single (hn : 0 < n) (hlt : n < 2 ^ 20) (h : Single n s) :
    IdleServed n s := by
  intro since hwaiting hzero j hj
  have hserved := served_of_single hn h
  have htime : s.CountsInTime n := by
    -- the thread that waits is the one that counts
    intro i hi
    have hcall := State.call_of_uncounted hi
    rw [State.call, hwaiting] at hcall
    cases hcall
  obtain ⟨w, hw, hmem⟩ := finished_of_countsInTime hn hlt oneSubmitter_of_single h hzero htime hj
  exact executions_eq_one (hserved.once j) hw hmem

/-! ## The counter comes round -/

/-- **`k` jobs submitted, none finished**: they went to the queues in turn, and
every worker that has any runs its first. -/
structure Flooded (n k : ℕ) (s : State) : Prop where
  single : Single n s
  idle : s.clients 0 = .idle
  next : s.nextQueue = UInt32.ofNat k
  pending : s.pendingJobs = UInt32.ofNat k
  accepted : s.accepted.length = k
  stop : ∀ w, s.stopRequested w = false
  finished : ∀ w, s.finished w = []
  few : ∀ w, w < n → (s.pushed w).length * n + w < k + n
  held : ∀ w, w < n → (s.workers w = .checkStop ∧ s.pushed w = [])
    ∨ ((∃ job, s.workers w = .running false job none) ∧ (s.popped w).length = 1)

theorem flooded_zero : Flooded n 0 (machine n).init where
  single := Machine.ReachableBy.init
  idle := rfl
  next := rfl
  pending := rfl
  accepted := rfl
  stop _ := rfl
  finished _ := rfl
  few w hw := by simpa [machine] using hw
  held _ _ := Or.inl ⟨rfl, rfl⟩

/-- The next job goes to queue `k % n`. -/
theorem Flooded.startQueue_eq (h : Flooded n k s) (hk : k < 2 ^ 32) : s.startQueue n = k % n := by
  have hle := Nat.mod_le k n
  have hmod : k % n % 2 ^ 32 = k % n := Nat.mod_eq_of_lt (by omega)
  unfold State.startQueue queueIndex
  rw [h.next, UInt32.toNat_ofNat_of_lt' hk, Nat.add_zero, hmod, Nat.mod_mod]

/-- That queue holds at most 4095 jobs of those submitted. -/
theorem Flooded.length_pushed_le (h : Flooded n k s) (hn : 2 ^ 20 ≤ n) (hk : k < 2 ^ 32) :
    (s.pushed (k % n)).length ≤ k / n ∧ k / n ≤ 4095 := by
  have hpos : 0 < n := by omega
  have hfew := h.few (k % n) (Nat.mod_lt k hpos)
  have hdiv := Nat.div_add_mod k n
  constructor
  · refine Nat.lt_succ_iff.mp (Nat.lt_of_mul_lt_mul_right (a := n) ?_)
    rw [Nat.succ_mul, Nat.mul_comm (k / n) n]
    omega
  · refine Nat.lt_succ_iff.mp ((Nat.div_lt_iff_lt_mul hpos).mpr ?_)
    omega

/-- That queue has room. -/
theorem Flooded.room (h : Flooded n k s) (hn : 2 ^ 20 ≤ n) (hk : k < 2 ^ 32) :
    SpscQueue.next queueCapacity (s.queues (k % n)).head ≠ (s.queues (k % n)).tail := by
  have hpos : 0 < n := by omega
  have hw := Nat.mod_lt k hpos
  have hinv := (sound_of_submitter hpos oneSubmitter_of_single h.single).inv _ hw
  obtain ⟨hlen, hle⟩ := h.length_pushed_le hn hk
  rw [queueCapacity_eq, Ne, hinv.full_iff]
  obtain ⟨-, hempty⟩ | ⟨-, hone⟩ := h.held _ hw
  · have hpopped := hinv.popped_le
    rw [hempty, List.length_nil] at hpopped ⊢
    omega
  · omega

/-- A submission and, where its worker was free, the worker's take: the other
workers and queues are as they were. -/
theorem Flooded.succ (h : Flooded n k s) (hn : 2 ^ 20 ≤ n) (hk : k < 2 ^ 32)
    (hsingle : Single n s') (hidle : s'.clients 0 = .idle) (hnext : s'.nextQueue = s.nextQueue + 1)
    (hpending : s'.pendingJobs = s.pendingJobs + 1)
    (haccepted : s'.accepted.length = s.accepted.length + 1)
    (hstop : s'.stopRequested = s.stopRequested) (hfinished : s'.finished = s.finished)
    (hpushed : s'.pushed = Function.update s.pushed (k % n) (s.pushed (k % n) ++ [s.submitted + 1]))
    (hsame : ∀ v, v ≠ k % n → s'.workers v = s.workers v ∧ s'.popped v = s.popped v)
    (hrunning : ∃ job, s'.workers (k % n) = .running false job none)
    (hone : (s'.popped (k % n)).length = 1) : Flooded n (k + 1) s' where
  single := hsingle
  idle := hidle
  next := by
    rw [hnext, h.next, UInt32.ofNat_add]
    rfl
  pending := by
    rw [hpending, h.pending, UInt32.ofNat_add]
    rfl
  accepted := by rw [haccepted, h.accepted]
  stop w := by rw [hstop, h.stop]
  finished w := by rw [hfinished, h.finished]
  few w hw := by
    rw [hpushed]
    by_cases hwk : w = k % n
    · -- a queue has had a job in each full turn, and perhaps one in this turn
      obtain ⟨hlen, -⟩ := h.length_pushed_le hn hk
      have hdiv := Nat.div_add_mod k n
      have hmul : (s.pushed (k % n)).length * n ≤ n * (k / n) := by
        rw [Nat.mul_comm]
        exact Nat.mul_le_mul_left n hlen
      rw [hwk, Function.update_self, List.length_append, List.length_singleton, Nat.add_mul]
      omega
    · rw [Function.update_of_ne hwk]
      have hfew := h.few w hw
      omega
  held w hw := by
    by_cases hwk : w = k % n
    · exact Or.inr (hwk ▸ ⟨hrunning, hone⟩)
    · obtain ⟨hworker, hpopped⟩ := hsame w hwk
      rw [hworker, hpopped, hpushed, Function.update_of_ne hwk]
      exact h.held w hw

/-- **One more job can be submitted without one finishing.** -/
theorem flooded_succ (hn : 2 ^ 20 ≤ n) (hk : k < 2 ^ 32) (h : Flooded n k s) :
    ∃ s', Flooded n (k + 1) s' := by
  have hpos : 0 < n := by omega
  have hw := Nat.mod_lt k hpos
  have hqueue := h.startQueue_eq hk
  let s₁ := s.afterPush n
  have h₁ : Single n s₁ := h.single.run (by decide) (run_push h.idle (hqueue ▸ h.room hn hk))
  let s₂ := s₁.afterCount (s.submitted + 1)
  have h₂ : Single n s₂ := h₁.run (by decide) (run_count rfl)
  have hpushed : s₂.pushed
      = Function.update s.pushed (k % n) (s.pushed (k % n) ++ [s.submitted + 1]) := by
    rw [← hqueue]
    rfl
  have hlength : s₂.accepted.length = s.accepted.length + 1 := List.length_append
  obtain ⟨hcheck, hempty⟩ | ⟨hrunning, hone⟩ := h.held _ hw
  · -- the worker is free: it takes the job
    have hinv := (sound_of_submitter hpos oneSubmitter_of_single h₂).inv _ hw
    have hold := (sound_of_submitter hpos oneSubmitter_of_single h.single).inv _ hw
    have hnone : s.popped (k % n) = [] := by
      have hle := hold.popped_le
      rw [hempty] at hle
      exact List.eq_nil_of_length_eq_zero (Nat.le_zero.mp hle)
    have hsome : (s₂.queues (k % n)).tail ≠ (s₂.queues (k % n)).head := by
      rw [Ne, hinv.empty_iff, hpushed, Function.update_self, hempty]
      show (s.popped (k % n)).length ≠ 1
      rw [hnone]
      exact Nat.zero_ne_one
    let s₃ := s₂.afterTake (k % n)
    have h₃ : Single n s₃ := h₂.run (by simp [SingleThread]) (run_take hw hcheck (h.stop _) hsome)
    have hone : (s₃.popped (k % n)).length = 1 := by
      rw [length_afterTake_popped]
      show (s.popped (k % n)).length + 1 = 1
      rw [hnone]
      rfl
    refine ⟨s₃, h.succ hn hk h₃ rfl rfl rfl hlength rfl rfl hpushed (fun v hv => ?_)
      afterTake_workers_self hone⟩
    exact ⟨Function.update_of_ne hv _ _, Function.update_of_ne hv _ _⟩
  · exact ⟨s₂, h.succ hn hk h₂ rfl rfl rfl hlength rfl rfl hpushed (fun _ _ => ⟨rfl, rfl⟩)
      hrunning hone⟩

theorem exists_flooded (hn : 2 ^ 20 ≤ n) : ∀ k, k ≤ 2 ^ 32 → ∃ s, Flooded n k s := by
  intro k
  induction k with
  | zero => exact fun _ => ⟨_, flooded_zero⟩
  | succ k ih =>
    intro hk
    obtain ⟨s, hs⟩ := ih (Nat.le_of_succ_le hk)
    exact flooded_succ hn hk hs

/-- **With `2 ^ 20` workers or more `wait_idle` can be about to return with
`2 ^ 32` jobs accepted and none finished.** -/
theorem exists_comesRound (hn : 2 ^ 20 ≤ n) :
    ∃ s, Single n s ∧ s.clients 0 = .waiting s.accepted ∧ s.pendingJobs = 0
      ∧ s.accepted.length = 2 ^ 32 ∧ ∀ w, s.finished w = [] := by
  obtain ⟨s, h⟩ := exists_flooded hn (2 ^ 32) (le_refl _)
  have hwait : Single n (s.afterWait 0) := h.single.run (by decide) (run_wait h.idle)
  exact ⟨s.afterWait 0, hwait, afterWait_clients_self, h.pending, h.accepted, h.finished⟩

/-- Where no job has finished, an idle counter breaks the promise. -/
theorem not_idleServed (hwaiting : s.clients 0 = .waiting s.accepted) (hzero : s.pendingJobs = 0)
    (haccepted : s.accepted.length = 2 ^ 32) (hfinished : ∀ w, s.finished w = []) :
    ¬ IdleServed n s := by
  intro hidle
  have hpos : 0 < s.accepted.length := by omega
  obtain ⟨j, hj⟩ := List.exists_mem_of_length_pos hpos
  have hone := hidle s.accepted hwaiting hzero j hj
  have hnone : s.executions n j = 0 := Finset.sum_eq_zero (fun w _ => by rw [hfinished]; rfl)
  omega

/-- **The counter comes round with `2 ^ 20` workers**: `2 ^ 32` jobs have been
accepted, none has finished, and `wait_idle` is about to return. -/
theorem waitIdle_comesRound :
    ∃ s, Single (2 ^ 20) s ∧ s.clients 0 = .waiting s.accepted ∧ s.pendingJobs = 0
      ∧ s.accepted.length = 2 ^ 32 ∧ (∀ w, s.finished w = []) ∧ ¬ IdleServed (2 ^ 20) s := by
  obtain ⟨s, h, hwaiting, hzero, haccepted, hfinished⟩ := exists_comesRound (le_refl (2 ^ 20))
  exact ⟨s, h, hwaiting, hzero, haccepted, hfinished,
    not_idleServed hwaiting hzero haccepted hfinished⟩

/-- **One thread is served from construction to destruction**, with any number
of workers: in every state what it is promised holds, and from every state the
run can be completed. When `wait_idle` returns all jobs accepted so far have
been executed, too, exactly with fewer than `2 ^ 20` workers. -/
theorem singleThread_iff (hn : 0 < n) :
    (∀ s, Single n s →
        Served n s ∧ ∃ s', Leads n s s' ∧ Served n s' ∧ s'.clients 0 = .destroyed)
      ∧ ((∀ s, Single n s → Served n s ∧ IdleServed n s) ↔ n < 2 ^ 20) := by
  refine ⟨fun s h => ⟨served_of_single hn h, ?_⟩, fun hall => ?_, fun hlt s h => ?_⟩
  · obtain ⟨s', hleads, h', hdestroyed⟩ := can_complete hn h
    exact ⟨s', hleads, served_of_single hn h', hdestroyed⟩
  · by_contra hge
    obtain ⟨s, h, hwaiting, hzero, haccepted, hfinished⟩ :=
      exists_comesRound (Nat.le_of_not_lt hge)
    exact not_idleServed hwaiting hzero haccepted hfinished (hall s h).2
  · exact ⟨served_of_single hn h, idleServed_of_single hn hlt h⟩

/-- With one worker all is kept, with `2 ^ 20` it is not. -/
theorem singleThread_iff_one :
    (∀ s, Single 1 s → Served 1 s ∧ IdleServed 1 s)
      ∧ ¬ ∀ s, Single (2 ^ 20) s → Served (2 ^ 20) s ∧ IdleServed (2 ^ 20) s := by
  refine ⟨(singleThread_iff Nat.one_pos).2.mpr (by decide), fun hall => ?_⟩
  exact absurd ((singleThread_iff (Nat.two_pow_pos 20)).2.mp hall) (Nat.lt_irrefl _)

end JobSystem

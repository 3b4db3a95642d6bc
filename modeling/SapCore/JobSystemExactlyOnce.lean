import Mathlib.Algebra.Order.BigOperators.Group.Finset
import SapCore.JobSystemOneSubmitter

/-!
# Every accepted job is executed exactly once

The promise of `submit` to any number of threads (`ExactlyOnce`): no job is
executed twice, a job whose call returned `true` has been executed or waits for
a worker that has not exited – in a slot of that worker's ring or in its hands –
and no slot is written while it holds a job that waits.

It follows from the ledgers of the job system, where the queues are rings and a
worker exits only when it has drained its queue (`exactlyOnce_of_drained`).
-/

namespace JobSystem

open SpscQueue (tryPush tryPop)

variable {n : ℕ} {s s' : State} {τ : Thread} {j : Job}

/-! ## A worker that has exited has drained its queue -/

/-- A worker that has exited has taken everything that was pushed to it. -/
def Drained (n : ℕ) (s : State) : Prop :=
  ∀ w, w < n → s.workers w = .exited → s.popped w = s.pushed w

/-- A step of worker `w` is judged by its own queue. -/
theorem Drained.of_worker (h : Drained n s) {w : ℕ} (hpushed : s'.pushed = s.pushed)
    (hsame : ∀ v, v ≠ w → s'.workers v = s.workers v ∧ s'.popped v = s.popped v)
    (hw : s'.workers w = .exited → s'.popped w = s.pushed w) : Drained n s' := by
  intro v hv hexited
  rw [hpushed]
  by_cases hvw : v = w
  · subst hvw
    exact hw hexited
  · obtain ⟨hworker, hpopped⟩ := hsame v hvw
    rw [hworker] at hexited
    rw [hpopped]
    exact h v hv hexited

theorem Drained.storePop (h : Drained n s) {w : ℕ} {q : SpscQueue Job} {pc : SpscQueue.Pop Job}
    {pc' : Worker} (hw : pc' = .exited → s.popped w ++ pc.taken = s.pushed w) :
    Drained n (s.storePop w q pc pc') := by
  refine h.of_worker (w := w) rfl (fun v hv => ?_) ?_
  · simp [State.storePop, Function.update_of_ne hv]
  · simpa [State.storePop] using hw

/-- An access of `try_push` that publishes nothing drains as before. -/
theorem Drained.storePush (h : Drained n s) {w : ℕ} {q : SpscQueue Job}
    {pc : SpscQueue.Push Job} (hpublished : pc.published = []) :
    Drained n (s.storePush w q pc) := by
  intro v hv hexited
  rw [storePush_pushed hpublished]
  exact h v hv hexited

theorem Drained.setCall (h : Drained n s) (call : Option Submit) :
    Drained n (s.setCall call τ) := by
  intro w hw hexited
  simpa using h w hw (by simpa using hexited)

/-- **Every step that pushes only to a worker that is there keeps this.** -/
theorem drained_step {a : Action} (h : Drained n s) (hsound : Sound n s)
    (hthere : WorkerThere n s a) (hmove : Moves n s a s') : Drained n s' := by
  cases hmove with
  | submit hcan => exact Drained.setCall (s := { s with submitted := s.submitted + 1 }) h _
  | fetch hcall => exact Drained.setCall (s := { s with nextQueue := s.nextQueue + 1 }) h _
  | push hcall htry =>
    exact (h.storePush ((SpscQueue.tryPush_published htry).1 _ rfl).1).setCall _
  | full hcall htry hi =>
    exact (h.storePush ((SpscQueue.tryPush_published htry).2.1 rfl)).setCall _
  | @reject τ start i pc q hcall htry =>
    exact Drained.setCall (s := { s.storePush _ q pc with
      rejected := s.rejected ++ [pc.item] })
      (h.storePush (q := q) ((SpscQueue.tryPush_published htry).2.1 rfl)) _
  | @publish τ start i pc q hcall htry =>
    cases pc with
    | storeHead item head =>
      refine Drained.setCall (fun w hw hexited => ?_) _
      -- a worker that has exited is not the one pushed to
      have hne : w ≠ queueIndex n start i := by
        rintro rfl
        exact hthere τ start i item head rfl hcall hexited
      simpa [State.storePush, Function.update_of_ne hne] using h w hw hexited
    | loadTail item head =>
      rw [tryPush] at htry
      split at htry <;> cases htry
    | _ => cases htry
  | @count τ job hcall =>
    exact Drained.setCall (s := { s with
      pendingJobs := s.pendingJobs + 1, accepted := s.accepted ++ [job] }) h _
  | @check w hw hpc =>
    refine h.of_worker (w := w) rfl (fun v hv => ?_) (by simp)
    simp [Function.update_of_ne hv]
  | pop hw hpc htry => exact h.storePop (by simp)
  | take hw hpc htry => exact h.storePop (by simp)
  | @empty w draining pc q hw hpc htry =>
    refine h.storePop (fun _ => ?_)
    have hknown := hsound.pop w pc hw (by rw [hpc]; rfl)
    obtain ⟨-, -, hempty⟩ := SpscQueue.tryPop_spec (hsound.inv w hw) hknown htry
    rw [(SpscQueue.tryPop_taken htry).2.1 rfl, List.append_nil]
    exact (hsound.inv w hw).fifo.eq_of_length (hempty rfl)
  | @finish w draining job hw hpc =>
    refine h.of_worker (w := w) rfl (fun v hv => ?_) (by simp)
    simp [Function.update_of_ne hv]
  | @subtract w draining job hw hpc =>
    refine h.of_worker (w := w) rfl (fun v hv => ?_) (by cases draining <;> simp)
    simp [Function.update_of_ne hv]
  | client hmove => exact h

theorem drained_of_reachable (hn : 0 < n) {C : State → Action → Prop}
    (hone : ∀ s a, C s a → OneProducer n s a) (hthere : ∀ s a, C s a → WorkerThere n s a)
    (h : (machine n).ReachableBy C s) : Drained n s := by
  refine Machine.ReachableBy.invariant (I := Drained n) ?_ ?_ h
  · rintro w - ⟨⟩
  · intro s a s' hs hdrained hC hstep
    exact drained_step hdrained (sound_of_reachable hn hone hs) (hthere s a hC) (step_cases hstep)

/-- **With one submitter a worker that has exited has drained its queue.** -/
theorem drained_of_submitter (hn : 0 < n) {C : State → Action → Prop}
    (hC : ∀ s a, C s a → OneSubmitter a) (h : (machine n).ReachableBy C s) : Drained n s := by
  refine drained_of_reachable hn (fun _ _ ha => ha.1) (fun _ _ ha => ha.2)
    (meets_of_submitter hC h)

/-! ## Executions -/

/-- How often a job has been executed. -/
def State.executions (n : ℕ) (s : State) (j : Job) : ℕ :=
  ∑ w ∈ Finset.range n, (s.finished w).count j

/-- **A job that waits**: for a worker that has not exited, in its hands or in
a slot between the tail and the head of its ring. -/
def State.Awaits (n : ℕ) (s : State) (j : Job) : Prop :=
  ∃ w, w < n ∧ s.workers w ≠ .exited ∧ (j ∈ (s.workers w).holding
    ∨ ∃ d, d < (s.queues w).count queueCapacity
      ∧ (s.queues w).buffer ((s.queues w).slot queueCapacity d) = j)

/-- **The promise of `submit`.** -/
structure ExactlyOnce (n : ℕ) (s : State) : Prop where
  /-- No job is executed twice. -/
  once : ∀ j, s.executions n j ≤ 1
  /-- A job accepted has been executed, or waits. -/
  executed : ∀ j, j ∈ s.accepted → s.executions n j = 1 ∨ s.Awaits n j
  /-- Once the workers have exited, it has been executed. -/
  drained : (∀ w, w < n → s.workers w = .exited) → ∀ j, j ∈ s.accepted → s.executions n j = 1
  /-- The slot a thread is about to write holds no job that waits. -/
  intact : ∀ τ start i item slot d, s.call τ = some (.push start i (.writeSlot item slot)) →
    d < (s.queues (queueIndex n start i)).count queueCapacity →
    (s.queues (queueIndex n start i)).slot queueCapacity d ≠ slot

/-- What a worker has finished is, in order, the first of what was pushed to
it. -/
theorem finished_prefix_pushed (hkept : Kept s) {w : ℕ} (hfifo : s.popped w <+: s.pushed w) :
    s.finished w <+: s.pushed w := by
  refine List.IsPrefix.trans ?_ hfifo
  rw [(hkept w).1]
  exact List.prefix_append _ _

/-- A job is pushed to one queue only. -/
theorem Placed.queue_unique {place : Job → Place} (h : Placed n s place) {v w : ℕ}
    (hv : j ∈ s.pushed v) (hw : j ∈ s.pushed w) : v = w := by
  have hplace := (h.mem_pushed v j).mp hv
  have hplace' := (h.mem_pushed w j).mp hw
  unfold Place.InQueue at hplace hplace'
  grind

/-- A job that was rejected was pushed to no queue. -/
theorem Placed.not_pushed_of_rejected {place : Job → Place} (h : Placed n s place)
    (hj : j ∈ s.rejected) (w : ℕ) : j ∉ s.pushed w := by
  rw [h.mem_pushed w j, (h.mem_rejected j).mp hj]
  simp [Place.InQueue]

/-- No job is pushed twice, to one queue or to two. -/
theorem Placed.sum_count_pushed_le {place : Job → Place} (h : Placed n s place) (j : Job) :
    ∑ w ∈ Finset.range n, (s.pushed w).count j ≤ 1 := by
  by_cases hj : ∃ w, j ∈ s.pushed w
  · obtain ⟨w, hw⟩ := hj
    rw [Finset.sum_eq_single w]
    · exact List.nodup_iff_count_le_one.mp (h.nodup w) j
    · intro v _ hv
      exact List.count_eq_zero.mpr (fun hmem => hv (h.queue_unique hmem hw))
    · intro hnot
      exact absurd (Finset.mem_range.mpr (h.index_lt w j hw)) hnot
  · have hzero : ∑ w ∈ Finset.range n, (s.pushed w).count j = 0 :=
      Finset.sum_eq_zero (fun w _ => List.count_eq_zero.mpr (fun hmem => hj ⟨w, hmem⟩))
    omega

/-- **No job is executed twice.** -/
theorem executions_le_one {place : Job → Place} (hplaced : Placed n s place) (hkept : Kept s)
    (hfifo : ∀ w, w < n → s.popped w <+: s.pushed w) (j : Job) : s.executions n j ≤ 1 := by
  refine le_trans (Finset.sum_le_sum (fun w hw => ?_)) (hplaced.sum_count_pushed_le j)
  exact (finished_prefix_pushed hkept (hfifo w (Finset.mem_range.mp hw))).sublist.count_le j

/-- A job a worker has finished has been executed. -/
theorem executions_eq_one (hle : s.executions n j ≤ 1) {w : ℕ} (hw : w < n)
    (hj : j ∈ s.finished w) : s.executions n j = 1 := by
  have hpos : 0 < (s.finished w).count j := List.count_pos_iff.mpr hj
  have hsum : (s.finished w).count j ≤ s.executions n j :=
    Finset.single_le_sum (f := fun w => (s.finished w).count j) (fun _ _ => Nat.zero_le _)
      (Finset.mem_range.mpr hw)
  omega

/-- **A job that was accepted has been executed, or waits.** -/
theorem executed_or_awaits {place : Job → Place} (hplaced : Placed n s place) (hkept : Kept s)
    (hsound : Sound n s) (hdrained : Drained n s) (hj : j ∈ s.accepted) :
    s.executions n j = 1 ∨ s.Awaits n j := by
  obtain ⟨w, hw, -, hmem⟩ := hplaced.pushed_of_accepted hj
  have hinv := hsound.inv w hw
  obtain ⟨rest, hrest⟩ := hinv.fifo
  by_cases hpopped : j ∈ s.popped w
  · -- the worker has taken it: it has finished it or runs it
    rw [(hkept w).1, List.mem_append] at hpopped
    obtain hfinished | hholding := hpopped
    · exact Or.inl (executions_eq_one (executions_le_one hplaced hkept hsound.fifo j) hw hfinished)
    · refine Or.inr ⟨w, hw, fun hexited => ?_, Or.inl hholding⟩
      rw [hexited] at hholding
      cases hholding
  · -- it is still in the ring, and the worker has not found the ring empty
    rw [← hrest, List.mem_append] at hmem
    obtain ⟨d, hd⟩ := List.mem_iff_getElem?.mp (hmem.resolve_left hpopped)
    have hget : (s.pushed w)[(s.popped w).length + d]? = some j := by
      rw [← hrest, List.getElem?_append_right (Nat.le_add_right _ _), Nat.add_sub_cancel_left]
      exact hd
    refine Or.inr ⟨w, hw, fun hexited => hpopped ?_, Or.inr ⟨d, hinv.buffer_slot hget⟩⟩
    rw [hdrained w hw hexited]
    exact List.mem_of_getElem? hget

/-- **The promise, from the invariants.** -/
theorem exactlyOnce_of_drained {place : Job → Place} (hplaced : Placed n s place)
    (hkept : Kept s) (hsound : Sound n s) (hdrained : Drained n s) (hn : 0 < n) :
    ExactlyOnce n s where
  once := executions_le_one hplaced hkept hsound.fifo
  executed _ hj := executed_or_awaits hplaced hkept hsound hdrained hj
  drained hexited j hj := by
    obtain hone | ⟨w, hw, hthere, -⟩ := executed_or_awaits hplaced hkept hsound hdrained hj
    · exact hone
    · exact absurd (hexited w hw) hthere
  intact τ start i item slot d hcall hd := by
    have hinv := hsound.inv _ (queueIndex_lt hn start i)
    obtain ⟨hhead, -⟩ := hsound.push τ start i _ hcall
    rw [queueCapacity_eq] at hd ⊢
    rw [hinv.count_eq] at hd
    rw [hinv.slot_eq, hhead]
    exact hinv.slot_free (Nat.le_add_right _ _) (by omega)

end JobSystem

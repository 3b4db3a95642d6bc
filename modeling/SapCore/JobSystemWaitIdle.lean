import SapCore.JobSystemSchedules

/-!
# Waiting from another thread

One thread submits and others call `wait_idle`. The job that `submit` has pushed
and not yet counted can be taken, run and subtracted before it is counted, and
the counter is then one too low: it reads zero while some accepted job has not
finished. With one worker the job that has not finished is the uncounted one
itself, since a queue is served in order; with two, it can be a job of the other
queue, and `wait_idle` returns too early (`waitIdle_iff`).
-/

namespace JobSystem

variable {n : ℕ} {s : State} {j : Job}

/-- **Client zero submits, any other client waits.** -/
def SubmitAndWait : Action → Prop
  | .submit τ => τ = .client 0
  | .waitIdle t => t ≠ 0
  | .destroy _ => False
  | .next _ => True

instance : DecidablePred SubmitAndWait
  | .submit τ => inferInstanceAs (Decidable (τ = .client 0))
  | .waitIdle t => inferInstanceAs (Decidable (¬ t = 0))
  | .destroy _ => inferInstanceAs (Decidable False)
  | .next _ => inferInstanceAs (Decidable True)

theorem SubmitAndWait.oneSubmitter {a : Action} (h : SubmitAndWait a) : OneSubmitter a := by
  cases a with
  | submit τ => exact h
  | waitIdle t => exact trivial
  | destroy t => exact h.elim
  | next τ => exact trivial

/-- A state reached while client zero submits and others wait. -/
abbrev Waited (n : ℕ) : State → Prop := (machine n).ReachableBy (fun _ a => SubmitAndWait a)

/-- **The promise of `wait_idle` to another thread**: whenever it is about to
return, every job accepted before it was called has finished. -/
def WaitIdlePromise (n : ℕ) : Prop :=
  ∀ s, Waited n s → ∀ t since, s.clients t = .waiting since → s.pendingJobs = 0 →
    ∀ j, j ∈ since → ∃ w, w < n ∧ j ∈ s.finished w

/-! ## One worker -/

/-- A worker that has subtracted the last job of its queue has subtracted
all. -/
theorem eq_of_getLast_mem {done queue : List Job} (hdone : done <+: queue) (hnodup : queue.Nodup)
    (hlast : queue.getLast? = some j) (hj : j ∈ done) : done = queue := by
  obtain ⟨rest, rfl⟩ := hdone
  cases rest with
  | nil => rw [List.append_nil]
  | cons x rest =>
    rw [List.getLast?_append_cons] at hlast
    exact absurd rfl ((List.nodup_append.mp hnodup).2.2 j hj j (List.mem_of_getLast? hlast))

/-- **One worker keeps the promise**: it takes the uncounted job last. -/
theorem waitIdlePromise_one : WaitIdlePromise 1 := by
  intro s h t since ht hzero j hj
  have hC : ∀ (s : State) (a : Action), SubmitAndWait a → OneSubmitter a :=
    fun _ _ ha => ha.oneSubmitter
  have haccepted := remembers_of_reachable h t since ht hj
  by_cases htime : s.CountsInTime 1
  · exact finished_of_countsInTime Nat.one_pos (by decide) hC h hzero htime haccepted
  · -- the uncounted job is subtracted already, and it is the last of the one queue
    unfold State.CountsInTime at htime
    push Not at htime
    obtain ⟨i, hi, w, hw, hsubtracted⟩ := htime
    obtain ⟨place, hplaced⟩ := placed_of_reachable Nat.one_pos h
    obtain ⟨v, hv, hlast⟩ := (tallied_of_reachable Nat.one_pos hC h).last i hi
    obtain ⟨u, hu, -, hmem⟩ := hplaced.pushed_of_accepted haccepted
    obtain rfl : w = 0 := by omega
    obtain rfl : v = 0 := by omega
    obtain rfl : u = 0 := by omega
    have hkept := kept_of_reachable h
    have hall := eq_of_getLast_mem
      (subtracted_prefix_pushed hkept (sound_of_submitter Nat.one_pos hC h) hw)
      (hplaced.nodup 0) hlast hsubtracted
    refine ⟨0, hw, ?_⟩
    rw [(hkept 0).2, hall]
    exact List.mem_append_left _ hmem

/-! ## Two workers -/

/-- **The first job is pushed and counted, the second only pushed**, to another
queue; the second is taken, run and subtracted. -/
theorem waitIdle_early (hn : 2 ≤ n) :
    ∃ s, Waited n s ∧ s.clients 1 = .waiting [1] ∧ s.pendingJobs = 0 ∧ ∀ w, 1 ∉ s.finished w := by
  have hzero : (machine n).init.startQueue n = 0 := by
    simp [State.startQueue, queueIndex, machine]
  let s₁ := (machine n).init.afterPush n
  have h₁ : Waited n s₁ := Machine.ReachableBy.init.run (by decide) (run_push rfl (by
    simp [machine, SpscQueue.next, queueCapacity]))
  let s₂ := s₁.afterCount 1
  have h₂ : Waited n s₂ := h₁.run (by decide) (run_count rfl)
  let s₃ := s₂.afterWait 1
  have h₃ : Waited n s₃ := h₂.run (by decide) (run_wait rfl)
  have hone : s₃.startQueue n = 1 := by
    show (1 % n + 0) % 2 ^ 32 % n = 1
    rw [Nat.mod_eq_of_lt hn]
    exact Nat.mod_eq_of_lt hn
  have hqueue : s₃.queues 1 = ⟨0, 0, fun _ => 0⟩ :=
    afterPush_queues_of_ne (n := n) (s := (machine n).init) (w := 1) (by simp [hzero])
  let s₄ := s₃.afterPush n
  have h₄ : Waited n s₄ := h₃.run (by decide) (run_push rfl (by
    rw [hone, hqueue]
    decide))
  have hqueue' : s₄.queues 1 = enqueue ⟨0, 0, fun _ => 0⟩ 2 := by
    rw [← hqueue]
    exact afterPush_queues_self hone
  let s₅ := s₄.afterTake 1
  have h₅ : Waited n s₅ := h₄.run (by decide) (run_take hn rfl rfl (by
    rw [hqueue']
    decide))
  have hrunning : s₅.workers 1 = .running false 2 none := by
    show Function.update s₄.workers 1
      (.running false ((s₄.queues 1).buffer (s₄.queues 1).tail) none) 1 = _
    rw [Function.update_self, hqueue']
    rfl
  let s₆ := s₅.afterRun 1 2
  have h₆ : Waited n s₆ := h₅.run (by decide) (run_finish hn hrunning)
  have hpending : s₆.pendingJobs = 0 := by
    show (0 + 1 - 1 : UInt32) = 0
    decide
  refine ⟨s₆, h₆, rfl, hpending, fun w => ?_⟩
  show 1 ∉ Function.update (fun _ => []) 1 [2] w
  by_cases hw : w = 1
  · simp [hw]
  · simp [Function.update_of_ne hw]

/-- **With two workers `wait_idle` returns too early**: a job whose `submit`
returned before the wait began has not been taken by any worker, and the
counter reads zero. -/
theorem waitIdle_twoWorkers :
    ∃ s, Waited 2 s ∧ s.clients 1 = .waiting [1] ∧ s.pendingJobs = 0 ∧ (∀ w, 1 ∉ s.finished w)
      ∧ ¬ WaitIdlePromise 2 := by
  obtain ⟨s, h, hwaiting, hzero, hnot⟩ := waitIdle_early (le_refl 2)
  refine ⟨s, h, hwaiting, hzero, hnot, fun hpromise => ?_⟩
  obtain ⟨w, -, hmem⟩ := hpromise s h 1 [1] hwaiting hzero 1 (List.mem_singleton_self 1)
  exact hnot w hmem

/-- **`wait_idle` keeps its promise to another thread exactly with one worker.**
With more, but fewer than `2 ^ 20`, it does so in every state in which no job
has been subtracted before it is counted. -/
theorem waitIdle_iff (hn : 0 < n) :
    (WaitIdlePromise n ↔ n = 1)
      ∧ (n < 2 ^ 20 → ∀ s, Waited n s → s.CountsInTime n → ∀ t since,
        s.clients t = .waiting since → s.pendingJobs = 0 →
          ∀ j, j ∈ since → ∃ w, w < n ∧ j ∈ s.finished w) := by
  refine ⟨⟨fun hpromise => ?_, ?_⟩, ?_⟩
  · by_contra hne
    obtain ⟨s, h, hwaiting, hzero, hnot⟩ := waitIdle_early (show 2 ≤ n by omega)
    obtain ⟨w, -, hmem⟩ := hpromise s h 1 [1] hwaiting hzero 1 (List.mem_singleton_self 1)
    exact hnot w hmem
  · rintro rfl
    exact waitIdlePromise_one
  · intro hlt s h htime t since ht hzero j hj
    exact finished_of_countsInTime hn hlt (fun _ _ ha => ha.oneSubmitter) h hzero htime
      (remembers_of_reachable h t since ht hj)

/-- With one worker it does, with two it does not. -/
theorem waitIdle_iff_one_two : WaitIdlePromise 1 ∧ ¬ WaitIdlePromise 2 := by
  refine ⟨(waitIdle_iff Nat.one_pos).1.mpr rfl, fun hpromise => ?_⟩
  exact absurd ((waitIdle_iff Nat.two_pos).1.mp hpromise) (by decide)

end JobSystem

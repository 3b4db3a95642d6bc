import SapCore.JobSystemExactlyOnce

/-!
# What an idle counter says

`wait_idle` returns when it loads a zero from `m_pending_jobs`. With one
submitting thread the jobs pushed are the jobs accepted and at most one more,
which is pushed and not yet counted (`Tallied`). Each worker is at most 4096 jobs
behind: 4095 that its ring holds and one in hand. So with fewer than `2 ^ 20`
workers the counter cannot come round, and a zero means that every job pushed
has been subtracted but for as many as are uncounted (`sum_outstanding_of_idle`). If
the uncounted job is not among those subtracted, all accepted jobs have finished
(`finished_of_idle`); if it is, one accepted job may not have.
-/

namespace JobSystem

open SpscQueue (tryPush tryPop)

variable {n : ℕ} {s s' : State} {τ : Thread} {j : Job}

/-! ## What a wait remembers -/

/-- A thread inside `wait_idle` began when the jobs it remembers had been
accepted. -/
def Remembers (s : State) : Prop :=
  ∀ t since, s.clients t = .waiting since → since ⊆ s.accepted

/-- A thread that moves inside `submit` waits for nothing. -/
theorem Remembers.setCall (h : Remembers s) (call : Option Submit) :
    Remembers (s.setCall call τ) := by
  intro t since ht
  rw [State.setCall_accepted]
  cases τ with
  | worker w => exact h t since ht
  | client u =>
    change Function.update s.clients u (Client.ofCall call) t = _ at ht
    by_cases htu : t = u
    · subst htu
      rw [Function.update_self] at ht
      cases call <;> cases ht
    · rw [Function.update_of_ne htu] at ht
      exact h t since ht

/-- **Every step keeps what is remembered.** -/
theorem remembers_step {a : Action} (h : Remembers s) (hmove : Moves n s a s') :
    Remembers s' := by
  cases hmove with
  | submit hcan => exact Remembers.setCall (s := { s with submitted := s.submitted + 1 }) h _
  | fetch hcall => exact Remembers.setCall (s := { s with nextQueue := s.nextQueue + 1 }) h _
  | push hcall htry => exact Remembers.setCall (s := s.storePush _ _ _) h _
  | publish hcall htry => exact Remembers.setCall (s := s.storePush _ _ _) h _
  | full hcall htry hi => exact Remembers.setCall (s := s.storePush _ _ _) h _
  | reject hcall htry =>
    exact Remembers.setCall (s := { s.storePush _ _ _ with rejected := s.rejected ++ [_] }) h _
  | @count τ job hcall =>
    refine Remembers.setCall (s := { s with
      pendingJobs := s.pendingJobs + 1, accepted := s.accepted ++ [job] }) ?_ _
    exact fun t since ht => List.subset_append_of_subset_left _ (h t since ht)
  | @client t a pc stop hmove =>
    refine (Function.forall_update_iff s.clients fun _ (pc : Client) =>
      ∀ since, pc = .waiting since → since ⊆ s.accepted).mpr ⟨?_, fun u _ => h u⟩
    rintro since rfl
    cases hmove with
    | waitIdle hpc => exact List.Subset.refl _
    | spin hpc hne => exact h t since hpc
  | _ => exact h

theorem remembers_of_reachable {C : State → Action → Prop} (h : (machine n).ReachableBy C s) :
    Remembers s := by
  refine Machine.ReachableBy.invariant (I := Remembers) ?_
    (fun _ _ _ _ hs _ hstep => remembers_step hs (step_cases hstep)) h
  rintro t since ⟨⟩

/-! ## The jobs pushed and the jobs accepted -/

/-- A call of `submit` that has pushed its job and not yet counted it. -/
def Submit.uncounted : Option Submit → List Job
  | some (.count job) => [job]
  | _ => []

/-- The job client zero has pushed and not yet counted. -/
def State.uncounted (s : State) : List Job := Submit.uncounted (s.call (.client 0))

/-- **The jobs pushed are the jobs accepted and the one not yet counted**, which
is the last of its queue. -/
structure Tallied (n : ℕ) (s : State) : Prop where
  sum : ∑ w ∈ Finset.range n, (s.pushed w).length = s.accepted.length + s.uncounted.length
  last : ∀ j, j ∈ s.uncounted → ∃ w, w < n ∧ (s.pushed w).getLast? = some j

theorem State.call_of_uncounted (h : j ∈ s.uncounted) :
    s.call (.client 0) = some (.count j) := by
  unfold State.uncounted Submit.uncounted at h
  split at h
  · rename_i job hcall
    rw [hcall, List.mem_singleton.mp h]
  · cases h

theorem State.uncounted_congr (h : s'.call = s.call) : s'.uncounted = s.uncounted := by
  unfold State.uncounted
  rw [h]

/-- The tally depends on the lists and on client zero alone. -/
theorem Tallied.congr (h : Tallied n s) (hpushed : s'.pushed = s.pushed)
    (haccepted : s'.accepted = s.accepted) (huncounted : s'.uncounted = s.uncounted) :
    Tallied n s' := by
  constructor
  · rw [hpushed, haccepted, huncounted]
    exact h.sum
  · rw [hpushed, huncounted]
    exact h.last

/-- Where client zero goes inside `submit` says what is uncounted. -/
theorem State.uncounted_setCall (call : Option Submit) :
    (s.setCall call (.client 0)).uncounted = Submit.uncounted call := by
  unfold State.uncounted
  rw [State.call_setCall_self (s := s) (τ := .client 0) trivial]

/-- **Every step with one submitter keeps the tally.** -/
theorem tallied_step {a : Action} (hn : 0 < n) (h : Tallied n s) (horderly : Orderly n s)
    (ha : OneSubmitter a) (hmove : Moves n s a s') : Tallied n s' := by
  -- a call of client zero that carries its job, before and after
  have hcarry : ∀ {c : Submit} {s₁ : State} {call : Option Submit},
      s.call (.client 0) = some c → c.Carries → s₁.pushed = s.pushed →
      s₁.accepted = s.accepted → Submit.uncounted call = [] →
      Tallied n (s₁.setCall call (.client 0)) := by
    intro c s₁ call hc hcarries hpushed haccepted hcall
    refine h.congr (by simpa using hpushed) (by simpa using haccepted) ?_
    rw [State.uncounted_setCall, hcall, State.uncounted, hc]
    cases c with
    | count job => exact hcarries.elim
    | _ => rfl
  cases hmove with
  | submit hcan =>
    have hτ : _ = Thread.client 0 := ha
    subst hτ
    refine h.congr (by simp) (by simp) ?_
    rw [State.uncounted_setCall, State.uncounted, State.call_of_canSubmit hcan]
    rfl
  | @fetch τ job hcall =>
    obtain rfl := horderly.calls τ _ hcall
    exact hcarry hcall trivial rfl rfl rfl
  | @push τ start i pc pc' q hcall htry =>
    obtain rfl := horderly.calls τ _ hcall
    have hpublished := ((SpscQueue.tryPush_published htry).1 _ rfl).1
    exact hcarry hcall trivial (storePush_pushed hpublished) rfl rfl
  | @full τ start i pc q hcall htry hi =>
    obtain rfl := horderly.calls τ _ hcall
    have hpublished := (SpscQueue.tryPush_published htry).2.1 rfl
    exact hcarry hcall trivial (storePush_pushed hpublished) rfl rfl
  | @reject τ start i pc q hcall htry =>
    obtain rfl := horderly.calls τ _ hcall
    have hpublished := (SpscQueue.tryPush_published htry).2.1 rfl
    exact hcarry hcall trivial (storePush_pushed (q := q) hpublished) rfl rfl
  | @publish τ start i pc q hcall htry =>
    obtain rfl := horderly.calls τ _ hcall
    have hpublished := (SpscQueue.tryPush_published htry).2.2 rfl
    have hsum := h.sum
    rw [State.uncounted, hcall] at hsum
    -- one more pushed, and it is the one not yet counted
    constructor
    · rw [State.uncounted_setCall, State.setCall_pushed, State.setCall_accepted]
      simp only [State.storePush, sum_length_update s.pushed (queueIndex_lt hn start i), hsum,
        hpublished]
      rfl
    · rw [State.uncounted_setCall, State.setCall_pushed]
      intro j hj
      obtain rfl : j = pc.item := by simpa [Submit.uncounted] using hj
      exact ⟨_, queueIndex_lt hn start i, by simp [State.storePush, hpublished]⟩
  | @count τ job hcall =>
    obtain rfl := horderly.calls τ _ hcall
    have hsum := h.sum
    rw [State.uncounted, hcall] at hsum
    constructor
    · rw [State.uncounted_setCall, State.setCall_pushed, State.setCall_accepted, hsum]
      simp [Submit.uncounted]
    · rw [State.uncounted_setCall]
      rintro j ⟨⟩
  | @client t a pc stop hmove =>
    have hcalls : State.call { s with
        stopRequested := stop, clients := Function.update s.clients t pc } = s.call :=
      State.call_of_client rfl rfl hmove.call_eq
    exact h.congr rfl rfl (State.uncounted_congr hcalls)
  | check hw hpc => exact h.congr rfl rfl rfl
  | pop hw hpc htry => exact h.congr rfl rfl rfl
  | take hw hpc htry => exact h.congr rfl rfl rfl
  | empty hw hpc htry => exact h.congr rfl rfl rfl
  | finish hw hpc => exact h.congr rfl rfl rfl
  | subtract hw hpc => exact h.congr rfl rfl rfl

theorem tallied_of_reachable (hn : 0 < n) {C : State → Action → Prop}
    (hC : ∀ s a, C s a → OneSubmitter a) (h : (machine n).ReachableBy C s) : Tallied n s := by
  refine Machine.ReachableBy.invariant (I := Tallied n) ⟨by simp [machine, State.uncounted,
    State.call, Client.call, Submit.uncounted], ?_⟩ ?_ h
  · rintro j ⟨⟩
  · intro s a s' hs htallied ha hstep
    exact tallied_step hn htallied (orderly_of_reachable hC hs) (hC s a ha) (step_cases hstep)

/-! ## A zero in the counter -/

/-- What a worker has subtracted is, in order, the first of what was pushed to
it. -/
theorem subtracted_prefix_pushed (hkept : Kept s) (hsound : Sound n s) {w : ℕ} (hw : w < n) :
    s.subtracted w <+: s.pushed w := by
  refine List.IsPrefix.trans ?_ (finished_prefix_pushed hkept (hsound.fifo w hw))
  rw [(hkept w).2]
  exact List.prefix_append _ _

/-- A worker has at most one job in hand. -/
theorem Worker.length_hand_le (pc : Worker) : pc.holding.length + pc.owing.length ≤ 1 := by
  cases pc <;> simp [Worker.holding, Worker.owing]

/-- **A worker is at most 4096 jobs behind**: those its ring holds, and one in
hand. -/
theorem length_pushed_le (hkept : Kept s) (hsound : Sound n s) {w : ℕ} (hw : w < n) :
    (s.pushed w).length ≤ (s.subtracted w).length + 4096 := by
  have hfree := (hsound.inv w hw).free
  have hhand := (s.workers w).length_hand_le
  obtain ⟨hran, hcounted⟩ := hkept w
  rw [hran, hcounted, List.length_append, List.length_append] at hfree
  omega

/-- The jobs of a queue that its worker has not subtracted. -/
def State.outstanding (s : State) (w : ℕ) : List Job :=
  (s.pushed w).drop (s.subtracted w).length

theorem pushed_eq_append (hkept : Kept s) (hsound : Sound n s) {w : ℕ} (hw : w < n) :
    s.pushed w = s.subtracted w ++ s.outstanding w := by
  obtain ⟨rest, hrest⟩ := subtracted_prefix_pushed hkept hsound hw
  unfold State.outstanding
  rw [← hrest, List.drop_left]

/-- The sum over the queues of what was pushed. -/
theorem sum_pushed_eq (hkept : Kept s) (hsound : Sound n s) :
    ∑ w ∈ Finset.range n, (s.pushed w).length
      = s.subtractions n + ∑ w ∈ Finset.range n, (s.outstanding w).length := by
  unfold State.subtractions
  rw [← Finset.sum_add_distrib]
  refine Finset.sum_congr rfl (fun w hw => ?_)
  rw [pushed_eq_append hkept hsound (Finset.mem_range.mp hw), List.length_append]

theorem sum_outstanding_le (hkept : Kept s) (hsound : Sound n s) :
    ∑ w ∈ Finset.range n, (s.outstanding w).length ≤ 4096 * n := by
  have hle : ∀ w ∈ Finset.range n, (s.outstanding w).length ≤ 4096 := by
    intro w hw
    have hbehind := length_pushed_le hkept hsound (Finset.mem_range.mp hw)
    rw [State.outstanding, List.length_drop]
    omega
  calc ∑ w ∈ Finset.range n, (s.outstanding w).length
      ≤ ∑ w ∈ Finset.range n, 4096 := Finset.sum_le_sum hle
    _ = 4096 * n := by rw [Finset.sum_const_nat (fun _ _ => rfl), Finset.card_range, Nat.mul_comm]

theorem State.length_uncounted_le (s : State) : s.uncounted.length ≤ 1 := by
  unfold State.uncounted Submit.uncounted
  split <;> simp

/-- A zero in the counter, as an equation of naturals modulo `2 ^ 32`. -/
theorem Counted.mod_eq (h : Counted n s) (hzero : s.pendingJobs = 0) :
    s.subtractions n % 2 ^ 32 = s.accepted.length % 2 ^ 32 := by
  unfold Counted at h
  rw [hzero, UInt32.zero_add] at h
  simpa using congrArg UInt32.toNat h

/-- **With fewer than `2 ^ 20` workers, a zero in the counter leaves outstanding
no more than is uncounted.** -/
theorem sum_outstanding_of_idle (hlt : n < 2 ^ 20) (hkept : Kept s) (hsound : Sound n s)
    (hcounted : Counted n s) (htallied : Tallied n s) (hzero : s.pendingJobs = 0) :
    ∑ w ∈ Finset.range n, (s.outstanding w).length = s.uncounted.length := by
  have hsum := htallied.sum
  have hmod := hcounted.mod_eq hzero
  have hle := sum_outstanding_le hkept hsound
  have hone := s.length_uncounted_le
  rw [sum_pushed_eq hkept hsound] at hsum
  -- both sides are below `2 ^ 32`, and they agree modulo `2 ^ 32`
  omega

/-- **When everything pushed has been subtracted the counter is zero**, with
client zero outside `submit`. -/
theorem pendingJobs_eq_zero (hcounted : Counted n s) (htallied : Tallied n s)
    (hall : ∀ w, w < n → s.subtracted w = s.pushed w) (hcall : s.call (.client 0) = none) :
    s.pendingJobs = 0 := by
  have hsum := htallied.sum
  have hnone : s.uncounted = [] := by
    unfold State.uncounted
    rw [hcall]
    rfl
  have heq : s.subtractions n = ∑ w ∈ Finset.range n, (s.pushed w).length :=
    Finset.sum_congr rfl (fun w hw => by rw [hall w (Finset.mem_range.mp hw)])
  rw [← heq, hnone, List.length_nil, Nat.add_zero] at hsum
  unfold Counted at hcounted
  rw [hsum] at hcounted
  simpa using hcounted

/-- Two jobs outstanding are one, where only one is. -/
theorem eq_of_sum_length_le_one {lists : ℕ → List Job} {v w : ℕ} {i : Job}
    (hsum : ∑ w ∈ Finset.range n, (lists w).length ≤ 1) (hv : v < n) (hw : w < n)
    (hi : i ∈ lists v) (hj : j ∈ lists w) : i = j := by
  have hposi : 0 < (lists v).length := List.length_pos_of_mem hi
  have hposj : 0 < (lists w).length := List.length_pos_of_mem hj
  by_cases hvw : v = w
  · subst hvw
    have hle : (lists v).length ≤ ∑ w ∈ Finset.range n, (lists w).length :=
      Finset.single_le_sum (f := fun w => (lists w).length) (fun _ _ => Nat.zero_le _)
        (Finset.mem_range.mpr hv)
    obtain ⟨x, hx⟩ := List.length_eq_one_iff.mp (show (lists v).length = 1 by omega)
    rw [hx] at hi hj
    rw [List.mem_singleton.mp hi, List.mem_singleton.mp hj]
  · have hle : ∑ w ∈ {v, w}, (lists w).length ≤ ∑ w ∈ Finset.range n, (lists w).length := by
      refine Finset.sum_le_sum_of_subset ?_
      simp [Finset.insert_subset_iff, hv, hw]
    rw [Finset.sum_pair hvw] at hle
    omega

/-- **Where the uncounted job is not among those subtracted, a zero in the
counter means that every accepted job has finished.** -/
theorem finished_of_idle {place : Job → Place} (hplaced : Placed n s place) (hkept : Kept s)
    (hsound : Sound n s)
    (hsum : ∑ w ∈ Finset.range n, (s.outstanding w).length = s.uncounted.length)
    (hlate : ∀ i, i ∈ s.uncounted → ∀ w, w < n → i ∉ s.subtracted w)
    (hj : j ∈ s.accepted) : ∃ w, w < n ∧ j ∈ s.finished w := by
  obtain ⟨w, hw, hplace, hmem⟩ := hplaced.pushed_of_accepted hj
  rw [pushed_eq_append hkept hsound hw, List.mem_append] at hmem
  obtain hsubtracted | hout := hmem
  · refine ⟨w, hw, ?_⟩
    rw [(hkept w).2]
    exact List.mem_append_left _ hsubtracted
  · -- only one job is outstanding, and the uncounted one is
    exfalso
    have hone := s.length_uncounted_le
    have hle : (s.outstanding w).length ≤ ∑ w ∈ Finset.range n, (s.outstanding w).length :=
      Finset.single_le_sum (f := fun w => (s.outstanding w).length) (fun _ _ => Nat.zero_le _)
        (Finset.mem_range.mpr hw)
    have hpos : 0 < (s.outstanding w).length := List.length_pos_of_mem hout
    obtain ⟨i, hi⟩ := List.exists_mem_of_length_pos (show 0 < s.uncounted.length by omega)
    obtain ⟨v, hplace'⟩ := hplaced.uncounted (.client 0) i (State.call_of_uncounted hi)
    have hmem' : i ∈ s.pushed v := (hplaced.mem_pushed v i).mpr (Or.inr ⟨_, hplace'⟩)
    have hv := hplaced.index_lt v i hmem'
    rw [pushed_eq_append hkept hsound hv, List.mem_append] at hmem'
    have hout' := hmem'.resolve_left (hlate i hi v hv)
    -- so the accepted job would be the uncounted one
    have heq := eq_of_sum_length_le_one (by omega) hv hw hout' hout
    rw [heq, hplace] at hplace'
    cases hplace'

/-- The job that is pushed and not yet counted has not been subtracted. -/
def State.CountsInTime (n : ℕ) (s : State) : Prop :=
  ∀ i, i ∈ s.uncounted → ∀ w, w < n → i ∉ s.subtracted w

/-- **A zero in the counter**, with one submitter who counts in time. -/
theorem finished_of_countsInTime (hn : 0 < n) (hlt : n < 2 ^ 20) {C : State → Action → Prop}
    (hC : ∀ s a, C s a → OneSubmitter a) (h : (machine n).ReachableBy C s)
    (hzero : s.pendingJobs = 0) (htime : s.CountsInTime n) (hj : j ∈ s.accepted) :
    ∃ w, w < n ∧ j ∈ s.finished w := by
  obtain ⟨place, hplaced⟩ := placed_of_reachable hn h
  have hkept := kept_of_reachable h
  have hsound := sound_of_submitter hn hC h
  refine finished_of_idle hplaced hkept hsound ?_ htime hj
  exact sum_outstanding_of_idle hlt hkept hsound (counted_of_reachable h)
    (tallied_of_reachable hn hC h) hzero

end JobSystem

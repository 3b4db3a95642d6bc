import Mathlib.Algebra.BigOperators.Group.Finset.Basic
import SapCore.JobSystemMoves

/-!
# The books of the job system

The invariants that hold in every run, whoever calls `submit` and whenever,
because they do not depend on what the queues hold: what a worker has popped is
what it has finished and the job it runs, and what it has finished is what it
has subtracted and the one subtraction it owes (`Kept`); the pending counter is,
in 32 bits, the jobs accepted less the jobs subtracted (`Counted`); and every
job is in one place – with the call that brought it, in one queue, or rejected
(`Placed`).
-/

namespace JobSystem

variable {n : ℕ} {s s' : State} {τ τ' : Thread} {call : Option Submit}

/-! ## The books of a worker -/

/-- **The books of worker `w`**: what it has popped is what it has finished and
the job it runs; what it has finished is what it has subtracted and the one it
still has to. -/
def KeptAt (s : State) (w : ℕ) : Prop :=
  s.popped w = s.finished w ++ (s.workers w).holding
    ∧ s.finished w = s.subtracted w ++ (s.workers w).owing

/-- The books of every worker. -/
def Kept (s : State) : Prop := ∀ w, KeptAt s w

/-- A step of worker `w` is judged by its own books. -/
theorem Kept.of_worker (h : Kept s) {w : ℕ}
    (hsame : ∀ v, v ≠ w → s'.workers v = s.workers v ∧ s'.popped v = s.popped v
      ∧ s'.finished v = s.finished v ∧ s'.subtracted v = s.subtracted v)
    (hw : KeptAt s' w) : Kept s' := by
  intro v
  by_cases hv : v = w
  · exact hv ▸ hw
  · obtain ⟨hworker, hpopped, hfinished, hsubtracted⟩ := hsame v hv
    unfold KeptAt
    rw [hworker, hpopped, hfinished, hsubtracted]
    exact h v

/-- A thread that moves inside `submit` leaves the books alone. -/
theorem Kept.setCall (h : Kept s) : Kept (s.setCall call τ) := by
  intro w
  simpa [KeptAt] using h w

/-- An access of `try_pop` keeps the books when the worker goes on holding what
it took. -/
theorem Kept.storePop (h : Kept s) {w : ℕ} {draining : Bool} {q : SpscQueue Job}
    {pc : SpscQueue.Pop Job} {pc' : Worker} (hpc : s.workers w = .pop draining pc)
    (hholding : pc'.holding = pc.taken) (howing : pc'.owing = []) :
    Kept (s.storePop w q pc pc') := by
  refine h.of_worker (w := w) (fun v hv => ?_) ?_
  · simp [State.storePop, Function.update_of_ne hv]
  · obtain ⟨hran, hcounted⟩ := h w
    rw [hpc] at hran hcounted
    simp only [Worker.holding, Worker.owing, List.append_nil] at hran hcounted
    simp [KeptAt, State.storePop, hholding, howing, hran, hcounted]

/-- **Every step keeps the books.** -/
theorem kept_step {a : Action} (h : Kept s) (hmove : Moves n s a s') : Kept s' := by
  cases hmove with
  | submit hcan => exact Kept.setCall (s := { s with submitted := s.submitted + 1 }) h
  | fetch hcall => exact Kept.setCall (s := { s with nextQueue := s.nextQueue + 1 }) h
  | push hcall htry => exact Kept.setCall (s := s.storePush _ _ _) h
  | publish hcall htry => exact Kept.setCall (s := s.storePush _ _ _) h
  | full hcall htry hi => exact Kept.setCall (s := s.storePush _ _ _) h
  | reject hcall htry =>
    exact Kept.setCall (s := { s.storePush _ _ _ with rejected := s.rejected ++ [_] }) h
  | @count τ job hcall =>
    exact Kept.setCall (s := { s with
      pendingJobs := s.pendingJobs + 1, accepted := s.accepted ++ [job] }) h
  | client hmove => exact h
  | @check w hw hpc =>
    refine h.of_worker (w := w) (fun v hv => ?_) ?_
    · simp [Function.update_of_ne hv]
    · simpa [KeptAt, hpc, Worker.holding, Worker.owing] using h w
  | pop hw hpc htry =>
    exact h.storePop hpc ((SpscQueue.tryPop_taken htry).1 _ rfl).symm rfl
  | take hw hpc htry =>
    exact h.storePop hpc ((SpscQueue.tryPop_taken htry).2.2 _ rfl).symm rfl
  | @empty w draining pc q hw hpc htry =>
    have htaken := (SpscQueue.tryPop_taken htry).2.1 rfl
    refine h.storePop hpc ?_ ?_ <;> cases draining <;> simp [Worker.holding, Worker.owing, htaken]
  | @finish w draining job hw hpc =>
    refine h.of_worker (w := w) (fun v hv => ?_) ?_
    · simp [Function.update_of_ne hv]
    · have hkept := h w
      simp only [KeptAt, hpc, Worker.holding, Worker.owing, List.append_nil] at hkept
      simp [KeptAt, Worker.holding, Worker.owing, hkept.1, hkept.2]
  | @subtract w draining job hw hpc =>
    refine h.of_worker (w := w) (fun v hv => ?_) ?_
    · simp [Function.update_of_ne hv]
    · have hkept := h w
      simp only [KeptAt, hpc, Worker.holding, Worker.owing, List.append_nil] at hkept
      cases draining <;> simp [KeptAt, Worker.holding, Worker.owing, hkept.1, hkept.2]

/-- **The workers' books are kept in every run.** -/
theorem kept_of_reachable {C : State → Action → Prop} (h : (machine n).ReachableBy C s) :
    Kept s :=
  Machine.ReachableBy.invariant (I := Kept) (fun _ => ⟨rfl, rfl⟩)
    (fun _ _ _ _ hs _ hstep => kept_step hs (step_cases hstep)) h

/-! ## The pending counter -/

/-- The number of subtractions the `n` workers have made. -/
def State.subtractions (n : ℕ) (s : State) : ℕ :=
  ∑ w ∈ Finset.range n, (s.subtracted w).length

/-- A list that grows makes the sum of the lengths grow by as much. -/
theorem sum_length_update (lists : ℕ → List Job) {w : ℕ} (hw : w < n) (more : List Job) :
    ∑ v ∈ Finset.range n, (Function.update lists w (lists w ++ more) v).length
      = ∑ v ∈ Finset.range n, (lists v).length + more.length := by
  rw [← Finset.add_sum_erase _ _ (Finset.mem_range.mpr hw),
    ← Finset.add_sum_erase _ (fun v => (lists v).length) (Finset.mem_range.mpr hw)]
  have hrest : ∑ v ∈ (Finset.range n).erase w,
        (Function.update lists w (lists w ++ more) v).length
      = ∑ v ∈ (Finset.range n).erase w, (lists v).length := by
    refine Finset.sum_congr rfl (fun v hv => ?_)
    rw [Function.update_of_ne (Finset.ne_of_mem_erase hv)]
  rw [hrest, Function.update_self, List.length_append]
  omega

/-- The counter is, in 32 bits, what was accepted less what was subtracted. -/
def Counted (n : ℕ) (s : State) : Prop :=
  s.pendingJobs + UInt32.ofNat (s.subtractions n) = UInt32.ofNat s.accepted.length

/-- **Every step keeps the counter.** -/
theorem counted_step {a : Action} (h : Counted n s) (hmove : Moves n s a s') :
    Counted n s' := by
  unfold Counted State.subtractions at h ⊢
  cases hmove with
  | @count τ job hcall =>
    simp only [State.setCall_pendingJobs, State.setCall_subtracted, State.setCall_accepted,
      List.length_append, List.length_singleton, UInt32.ofNat_add]
    rw [← h]
    grind
  | @subtract w draining job hw hpc =>
    simp only [sum_length_update s.subtracted hw, List.length_singleton, UInt32.ofNat_add]
    rw [← h]
    grind
  | _ => simpa [State.storePush, State.storePop] using h

/-- **The counter is right in every run.** -/
theorem counted_of_reachable {C : State → Action → Prop} (h : (machine n).ReachableBy C s) :
    Counted n s := by
  refine Machine.ReachableBy.invariant (I := Counted n) ?_
    (fun _ _ _ _ hs _ hstep => counted_step hs (step_cases hstep)) h
  simp [Counted, State.subtractions, machine]

/-! ## The place of a job -/

/-- The job a call of `submit` was made with. -/
def Submit.job : Submit → Job
  | .fetchQueue job => job
  | .push _ _ pc => pc.item
  | .count job => job

/-- A call that has not pushed its job yet. -/
def Submit.Carries : Submit → Prop
  | .fetchQueue _ => True
  | .push _ _ _ => True
  | .count _ => False

/-- **Where a job can be.** -/
inductive Place where
  /-- No call of `submit` has been made with it. -/
  | unborn
  /-- With the call of `submit` of a thread. -/
  | carried (τ : Thread)
  /-- Pushed to queue `w` and not yet counted by the thread that did. -/
  | uncounted (w : ℕ) (τ : Thread)
  /-- Pushed to queue `w`, and `submit` has returned `true`. -/
  | accepted (w : ℕ)
  /-- `submit` has returned `false`. -/
  | rejected
  deriving DecidableEq

/-- A job that was pushed to queue `w`. -/
def Place.InQueue (w : ℕ) (p : Place) : Prop := p = .accepted w ∨ ∃ τ, p = .uncounted w τ

/-- **Every job is in one place**, and the history agrees with it. -/
structure Placed (n : ℕ) (s : State) (place : Job → Place) : Prop where
  unborn : ∀ j, s.submitted < j → place j = .unborn
  carried : ∀ τ c, s.call τ = some c → c.Carries → place c.job = .carried τ
  uncounted : ∀ τ j, s.call τ = some (.count j) → ∃ w, place j = .uncounted w τ
  mem_pushed : ∀ w j, j ∈ s.pushed w ↔ (place j).InQueue w
  nodup : ∀ w, (s.pushed w).Nodup
  index_lt : ∀ w j, j ∈ s.pushed w → w < n
  mem_accepted : ∀ j, j ∈ s.accepted ↔ ∃ w, place j = .accepted w
  mem_rejected : ∀ j, j ∈ s.rejected ↔ place j = .rejected

variable {place : Job → Place}

/-- A job that was accepted is in the queue it was pushed to. -/
theorem Placed.pushed_of_accepted (h : Placed n s place) {j : Job} (hj : j ∈ s.accepted) :
    ∃ w, w < n ∧ place j = .accepted w ∧ j ∈ s.pushed w := by
  obtain ⟨w, hplace⟩ := (h.mem_accepted j).mp hj
  have hmem : j ∈ s.pushed w := (h.mem_pushed w j).mpr (Or.inl hplace)
  exact ⟨w, h.index_lt w j hmem, hplace, hmem⟩

/-- Where only a call of `submit` moves, with the same job, no job does. -/
theorem Placed.carry (h : Placed n s place) {c c' : Submit} (hcall : s.call τ = some c)
    (hc : c.Carries) (hc' : c'.Carries) (hjob : c'.job = c.job) :
    Placed n (s.setCall (some c') τ) place where
  unborn j hj := h.unborn j (by simpa using hj)
  carried τ' d hd hcarries := by
    by_cases hτ : τ' = τ
    · subst hτ
      rw [State.call_setCall_self (State.inJob_of_call hcall)] at hd
      cases hd
      rw [hjob]
      exact h.carried _ c hcall hc
    · rw [State.call_setCall_of_ne hτ] at hd
      exact h.carried τ' d hd hcarries
  uncounted τ' j hj := by
    by_cases hτ : τ' = τ
    · subst hτ
      rw [State.call_setCall_self (State.inJob_of_call hcall)] at hj
      cases hj
      exact hc'.elim
    · rw [State.call_setCall_of_ne hτ] at hj
      exact h.uncounted τ' j hj
  mem_pushed w j := by simpa using h.mem_pushed w j
  nodup w := by simpa using h.nodup w
  index_lt w j hj := h.index_lt w j (by simpa using hj)
  mem_accepted j := by simpa using h.mem_accepted j
  mem_rejected j := by simpa using h.mem_rejected j

/-- What is asked of a step that moves job `j`, and only that one, to place `p`
while thread `τ` goes to `call`: the history says of `j` what `p` says, and of
every other job what it said. -/
structure Relocates (n : ℕ) (s s₁ : State) (j : Job) (p : Place) (τ : Thread)
    (call : Option Submit) : Prop where
  call_eq : s₁.call = s.call
  inJob : s₁.InJob τ
  born : ∀ i, s₁.submitted < i → i ≠ j ∧ s.submitted < i
  carries : ∀ c, call = some c → c.Carries → c.job = j ∧ p = .carried τ
  counts : ∀ i, call = some (.count i) → i = j ∧ ∃ w, p = .uncounted w τ
  pushed : ∀ w, j ∈ s₁.pushed w ↔ p.InQueue w
  pushed_ne : ∀ w i, i ≠ j → (i ∈ s₁.pushed w ↔ i ∈ s.pushed w)
  nodup : ∀ w, (s₁.pushed w).Nodup
  index_lt : ∀ w, p.InQueue w → w < n
  accepted : j ∈ s₁.accepted ↔ ∃ w, p = .accepted w
  accepted_ne : ∀ i, i ≠ j → (i ∈ s₁.accepted ↔ i ∈ s.accepted)
  rejected : j ∈ s₁.rejected ↔ p = .rejected
  rejected_ne : ∀ i, i ≠ j → (i ∈ s₁.rejected ↔ i ∈ s.rejected)

theorem Placed.ne_of_unborn (h : Placed n s place) {i j : Job} (hj : place j ≠ .unborn)
    (hi : s.submitted < i) : i ≠ j := by
  rintro rfl
  exact hj (h.unborn i hi)

/-- A job that is new or with one thread is with no other. -/
theorem Placed.job_ne (h : Placed n s place) {j : Job} {c : Submit}
    (hown : place j = .unborn ∨ place j = .carried τ ∨ ∃ w, place j = .uncounted w τ)
    (hτ : τ' ≠ τ) (hcall : s.call τ' = some c) : c.job ≠ j := by
  rintro rfl
  have hplace : place c.job = .carried τ' ∨ ∃ w, place c.job = .uncounted w τ' := by
    cases c with
    | fetchQueue job => exact Or.inl (h.carried τ' _ hcall trivial)
    | push start i pc => exact Or.inl (h.carried τ' _ hcall trivial)
    | count job => exact Or.inr (h.uncounted τ' job hcall)
  grind

/-- **A job that moves takes its place with it.** -/
theorem Placed.relocate (h : Placed n s place) {s₁ : State} {j : Job} {p : Place}
    (hown : place j = .unborn ∨ place j = .carried τ ∨ ∃ w, place j = .uncounted w τ)
    (hmove : Relocates n s s₁ j p τ call) :
    Placed n (s₁.setCall call τ) (Function.update place j p) where
  unborn i hi := by
    obtain ⟨hne, hlt⟩ := hmove.born i (by simpa using hi)
    rw [Function.update_of_ne hne]
    exact h.unborn i hlt
  carried τ' c hc hcarries := by
    by_cases hτ : τ' = τ
    · subst hτ
      rw [State.call_setCall_self hmove.inJob] at hc
      obtain ⟨rfl, hp⟩ := hmove.carries c hc hcarries
      rw [Function.update_self, hp]
    · -- another thread's job is another job
      rw [State.call_setCall_of_ne hτ, hmove.call_eq] at hc
      rw [Function.update_of_ne (h.job_ne hown hτ hc)]
      exact h.carried τ' c hc hcarries
  uncounted τ' i hi := by
    by_cases hτ : τ' = τ
    · subst hτ
      rw [State.call_setCall_self hmove.inJob] at hi
      obtain ⟨rfl, hp⟩ := hmove.counts i hi
      rw [Function.update_self]
      exact hp
    · rw [State.call_setCall_of_ne hτ, hmove.call_eq] at hi
      have hne : i ≠ j := h.job_ne hown hτ hi
      rw [Function.update_of_ne hne]
      exact h.uncounted τ' i hi
  mem_pushed w i := by
    by_cases hi : i = j
    · subst hi
      simpa using hmove.pushed w
    · simpa [Function.update_of_ne hi, hmove.pushed_ne w i hi] using h.mem_pushed w i
  nodup w := by simpa using hmove.nodup w
  index_lt w i hi := by
    rw [State.setCall_pushed] at hi
    by_cases hij : i = j
    · exact hmove.index_lt w ((hmove.pushed w).mp (hij ▸ hi))
    · exact h.index_lt w i ((hmove.pushed_ne w i hij).mp hi)
  mem_accepted i := by
    by_cases hi : i = j
    · subst hi
      simpa using hmove.accepted
    · simpa [Function.update_of_ne hi, hmove.accepted_ne i hi] using h.mem_accepted i
  mem_rejected i := by
    by_cases hi : i = j
    · subst hi
      simpa using hmove.rejected
    · simpa [Function.update_of_ne hi, hmove.rejected_ne i hi] using h.mem_rejected i

/-- A call of `submit` brings a new job. -/
theorem Placed.submit (h : Placed n s place) (hcan : s.canSubmit n τ = true) :
    Placed n ({ s with submitted := s.submitted + 1 }.setCall
      (some (.fetchQueue (s.submitted + 1))) τ)
      (Function.update place (s.submitted + 1) (.carried τ)) := by
  have hnew := h.unborn (s.submitted + 1) (Nat.lt_succ_self _)
  refine h.relocate (Or.inl hnew) {
    call_eq := rfl
    inJob := State.inJob_of_canSubmit hcan
    born := fun i hi => ⟨Nat.ne_of_gt hi, Nat.lt_of_succ_lt hi⟩
    carries := ?_
    counts := by simp
    pushed := ?_
    pushed_ne := fun _ _ _ => Iff.rfl
    nodup := h.nodup
    index_lt := by simp [Place.InQueue]
    accepted := ?_
    accepted_ne := fun _ _ => Iff.rfl
    rejected := ?_
    rejected_ne := fun _ _ => Iff.rfl }
  · rintro c ⟨⟩ -
    exact ⟨rfl, rfl⟩
  · intro w
    simpa [hnew, Place.InQueue] using h.mem_pushed w (s.submitted + 1)
  · simpa [hnew] using h.mem_accepted (s.submitted + 1)
  · simpa [hnew] using h.mem_rejected (s.submitted + 1)

/-- A `try_push` that returns `true` puts its job in the queue. -/
theorem Placed.publish (h : Placed n s place) (hn : 0 < n) {start i : ℕ}
    {pc : SpscQueue.Push Job} {q : SpscQueue Job} (hcall : s.call τ = some (.push start i pc))
    (hpublished : pc.published = [pc.item]) :
    Placed n ((s.storePush (queueIndex n start i) q pc).setCall (some (.count pc.item)) τ)
      (Function.update place pc.item (.uncounted (queueIndex n start i) τ)) := by
  have hcarried : place pc.item = .carried τ := h.carried τ _ hcall trivial
  -- a job that is still carried is in no queue
  have hnew : ∀ w, pc.item ∉ s.pushed w := by
    intro w hmem
    simpa [hcarried, Place.InQueue] using (h.mem_pushed w _).mp hmem
  refine h.relocate (Or.inr (Or.inl hcarried)) {
    call_eq := rfl
    inJob := State.inJob_of_call hcall
    born := fun j hj => ⟨h.ne_of_unborn (by simp [hcarried]) hj, hj⟩
    carries := ?_
    counts := ?_
    pushed := ?_
    pushed_ne := ?_
    nodup := ?_
    index_lt := ?_
    accepted := ?_
    accepted_ne := fun _ _ => Iff.rfl
    rejected := ?_
    rejected_ne := fun _ _ => Iff.rfl }
  · rintro c ⟨⟩ ⟨⟩
  · rintro j ⟨⟩
    exact ⟨rfl, _, rfl⟩
  · intro w
    by_cases hw : w = queueIndex n start i
    · simp [State.storePush, hpublished, hw, Place.InQueue]
    · simp [State.storePush, Function.update_of_ne hw, Place.InQueue, hnew, Ne.symm hw]
  · intro w j hj
    by_cases hw : w = queueIndex n start i
    · simp [State.storePush, hpublished, hw, hj]
    · simp [State.storePush, Function.update_of_ne hw]
  · intro w
    by_cases hw : w = queueIndex n start i
    · subst hw
      simpa [State.storePush, hpublished] using
        (h.nodup _).append (List.nodup_singleton _) (by simpa using hnew _)
    · simpa [State.storePush, Function.update_of_ne hw] using h.nodup w
  · rintro w (hw | ⟨τ', hw⟩)
    · cases hw
    · cases hw
      exact queueIndex_lt hn start i
  · simpa [State.storePush, hcarried] using h.mem_accepted pc.item
  · simpa [State.storePush, hcarried] using h.mem_rejected pc.item

/-- A call of `submit` that finds every queue full drops its job. -/
theorem Placed.reject (h : Placed n s place) {c : Submit} (hcall : s.call τ = some c)
    (hc : c.Carries) :
    Placed n ({ s with rejected := s.rejected ++ [c.job] }.setCall none τ)
      (Function.update place c.job .rejected) := by
  have hcarried := h.carried τ c hcall hc
  refine h.relocate (Or.inr (Or.inl hcarried)) {
    call_eq := rfl
    inJob := State.inJob_of_call hcall
    born := fun j hj => ⟨h.ne_of_unborn (by simp [hcarried]) hj, hj⟩
    carries := by simp
    counts := by simp
    pushed := ?_
    pushed_ne := fun _ _ _ => Iff.rfl
    nodup := h.nodup
    index_lt := by simp [Place.InQueue]
    accepted := ?_
    accepted_ne := fun _ _ => Iff.rfl
    rejected := by simp
    rejected_ne := fun j hj => by simp [hj] }
  · intro w
    simpa [hcarried, Place.InQueue] using h.mem_pushed w c.job
  · simpa [hcarried] using h.mem_accepted c.job

/-- A call of `submit` that counts its job has it accepted. -/
theorem Placed.count (h : Placed n s place) {j : Job} (hcall : s.call τ = some (.count j)) :
    ∃ w, Placed n ({ s with
      pendingJobs := s.pendingJobs + 1, accepted := s.accepted ++ [j] }.setCall none τ)
      (Function.update place j (.accepted w)) := by
  obtain ⟨w, huncounted⟩ := h.uncounted τ j hcall
  refine ⟨w, h.relocate (Or.inr (Or.inr ⟨w, huncounted⟩)) {
    call_eq := rfl
    inJob := State.inJob_of_call hcall
    born := fun i hi => ⟨h.ne_of_unborn (by simp [huncounted]) hi, hi⟩
    carries := by simp
    counts := by simp
    pushed := ?_
    pushed_ne := fun _ _ _ => Iff.rfl
    nodup := h.nodup
    index_lt := ?_
    accepted := by simp
    accepted_ne := fun i hi => by simp [hi]
    rejected := ?_
    rejected_ne := fun _ _ => Iff.rfl }⟩
  · intro v
    simpa [huncounted, Place.InQueue] using h.mem_pushed v j
  · intro v hv
    refine h.index_lt v j ((h.mem_pushed v j).mpr ?_)
    simpa [huncounted, Place.InQueue] using hv
  · simpa [huncounted] using h.mem_rejected j

/-- An access of `try_push` that publishes nothing changes no list. -/
theorem storePush_pushed {w : ℕ} {q : SpscQueue Job} {pc : SpscQueue.Push Job}
    (hpublished : pc.published = []) : (s.storePush w q pc).pushed = s.pushed := by
  show Function.update s.pushed w (s.pushed w ++ pc.published) = s.pushed
  rw [hpublished, List.append_nil, Function.update_eq_self]

/-- The places depend on the calls and the lists alone. -/
theorem Placed.congr (h : Placed n s place) (hcall : s'.call = s.call)
    (hsubmitted : s'.submitted = s.submitted) (hpushed : s'.pushed = s.pushed)
    (haccepted : s'.accepted = s.accepted) (hrejected : s'.rejected = s.rejected) :
    Placed n s' place := by
  constructor
  · rw [hsubmitted]; exact h.unborn
  · rw [hcall]; exact h.carried
  · rw [hcall]; exact h.uncounted
  · rw [hpushed]; exact h.mem_pushed
  · rw [hpushed]; exact h.nodup
  · rw [hpushed]; exact h.index_lt
  · rw [haccepted]; exact h.mem_accepted
  · rw [hrejected]; exact h.mem_rejected

/-- An access of `try_push` that publishes nothing moves no job. -/
theorem Placed.storePush (h : Placed n s place) {w : ℕ} {q : SpscQueue Job}
    {pc : SpscQueue.Push Job} (hpublished : pc.published = []) :
    Placed n (s.storePush w q pc) place :=
  h.congr rfl rfl (storePush_pushed hpublished) rfl rfl

/-- **Every step keeps every job in one place.** -/
theorem placed_step {a : Action} (hn : 0 < n) (h : ∃ place, Placed n s place)
    (hmove : Moves n s a s') : ∃ place, Placed n s' place := by
  obtain ⟨place, h⟩ := h
  cases hmove with
  | submit hcan => exact ⟨_, h.submit hcan⟩
  | fetch hcall =>
    have hfetched : Placed n { s with nextQueue := s.nextQueue + 1 } place :=
      h.congr rfl rfl rfl rfl rfl
    exact ⟨place, hfetched.carry hcall trivial trivial rfl⟩
  | push hcall htry =>
    obtain ⟨hpublished, hitem⟩ := (SpscQueue.tryPush_published htry).1 _ rfl
    exact ⟨place, (h.storePush hpublished).carry hcall trivial trivial hitem⟩
  | publish hcall htry =>
    exact ⟨_, h.publish hn hcall ((SpscQueue.tryPush_published htry).2.2 rfl)⟩
  | full hcall htry hi =>
    have hpublished := (SpscQueue.tryPush_published htry).2.1 rfl
    exact ⟨place, (h.storePush hpublished).carry hcall trivial trivial rfl⟩
  | @reject τ start i pc q hcall htry =>
    have hpublished := (SpscQueue.tryPush_published htry).2.1 rfl
    exact ⟨_, (h.storePush hpublished).reject (τ := τ) hcall trivial⟩
  | count hcall =>
    obtain ⟨w, hcounted⟩ := h.count hcall
    exact ⟨_, hcounted⟩
  | check hw hpc =>
    exact ⟨place, h.congr (State.call_of_worker rfl rfl (by rw [hpc]; rfl)) rfl rfl rfl rfl⟩
  | pop hw hpc htry =>
    exact ⟨place, h.congr (State.call_of_worker rfl rfl (by rw [hpc]; rfl)) rfl rfl rfl rfl⟩
  | take hw hpc htry =>
    exact ⟨place, h.congr (State.call_of_worker rfl rfl (by rw [hpc]; rfl)) rfl rfl rfl rfl⟩
  | @empty w draining pc q hw hpc htry =>
    refine ⟨place, h.congr (State.call_of_worker rfl rfl ?_) rfl rfl rfl rfl⟩
    rw [hpc]
    cases draining <;> rfl
  | finish hw hpc =>
    exact ⟨place, h.congr (State.call_of_worker rfl rfl (by rw [hpc]; rfl)) rfl rfl rfl rfl⟩
  | @subtract w draining job hw hpc =>
    refine ⟨place, h.congr (State.call_of_worker rfl rfl ?_) rfl rfl rfl rfl⟩
    rw [hpc]
    cases draining <;> rfl
  | client hmove =>
    exact ⟨place, h.congr (State.call_of_client rfl rfl hmove.call_eq) rfl rfl rfl rfl⟩

/-- **In every run every job is in one place.** -/
theorem placed_of_reachable (hn : 0 < n) {C : State → Action → Prop}
    (h : (machine n).ReachableBy C s) : ∃ place, Placed n s place := by
  refine Machine.ReachableBy.invariant (I := fun s => ∃ place, Placed n s place) ?_
    (fun _ _ _ _ hs _ hstep => placed_step hn hs (step_cases hstep)) h
  refine ⟨fun _ => .unborn, ⟨fun _ _ => rfl, ?_, ?_, ?_, fun _ => List.nodup_nil, ?_, ?_, ?_⟩⟩
  · rintro (t | w) c hc <;> cases hc
  · rintro (t | w) j hj <;> cases hj
  · simp [machine, Place.InQueue]
  · simp [machine]
  · simp [machine]
  · simp [machine]

end JobSystem

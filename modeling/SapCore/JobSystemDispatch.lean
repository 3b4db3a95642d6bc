import SapCore.JobSystemOneSubmitter

/-!
# Which queues a call of `submit` tries

`submit` starts at the queue the dispatch counter says and goes on from there, queue by
queue, until one has room. A call leaves no trace of the queues it found full, so the runs
are recorded here: each time `try_push` compares its indices, the comparison is entered with
the number of the call, the queue, what the variable `job` holds at that moment, and whether
there was room. The variable matters because it is handed to `try_push(T&&)`: the queue moves
out of it when it writes its slot, and not before.

With one submitting thread the calls come one after the other, so the record of a call can be
written down (`Recorded`): the queues from its first one on, all full, with the job intact,
and, unless the call was refused, one that had room, where the job then is.
-/

namespace JobSystem

open SpscQueue (tryPush)

/-- **A comparison of `try_push`** on behalf of `submit`. -/
structure Try where
  /-- The number of the call. -/
  call : ℕ
  /-- What the variable `job` of the call holds. -/
  item : Job
  /-- The queue. -/
  queue : ℕ
  /-- Whether there was room. -/
  room : Bool
  deriving DecidableEq, Repr

/-- **The record of a run**: the variable `job` of the call in progress, zero once it was moved
from, and the comparisons so far. -/
structure Dispatch where
  held : Job
  tries : List Try
  deriving DecidableEq, Repr

/-- The variable after an access of `try_push(T&&)`: writing the slot moves out of it. -/
def leftBy (held : Job) : SpscQueue.Push Job → Job
  | .loadHead _ => held
  | .loadTail _ _ => held
  | .writeSlot _ _ => 0
  | .storeHead _ _ => held

/-- What an access of `try_push` enters: the load of the tail is where it compares. -/
def compared (n : ℕ) (s : State) (start i : ℕ) (held : Job) : SpscQueue.Push Job → List Try
  | .loadHead _ => []
  | .loadTail _ head =>
    let w := queueIndex n start i
    [⟨s.submitted, held, w, SpscQueue.next queueCapacity head ≠ (s.queues w).tail⟩]
  | .writeSlot _ _ => []
  | .storeHead _ _ => []

/-- **What a step enters in the record.** -/
def enterTry (n : ℕ) (s : State) (a : Action) (s' : State) (r : Dispatch) : Dispatch :=
  match a with
  | .submit _ => { r with held := s'.submitted }
  | .next τ =>
    match s.call τ with
    | some (.push start i pc) =>
      ⟨leftBy r.held pc, r.tries ++ compared n s start i r.held pc⟩
    | _ => r
  | _ => r

/-- **The job system with a record of its dispatches.** -/
def dispatching (n : ℕ) : Machine (State × Dispatch) Action :=
  (machine n).recording (enterTry n) ⟨0, []⟩

/-! ## What the record of a call is -/

/-- The record of one call. -/
def Dispatch.log (r : Dispatch) (j : ℕ) : List Try := r.tries.filter (fun t => t.call = j)

/-- The queue of the `i`-th round of call `j`, where the calls count from one and the counter
has 32 bits. -/
def roundQueue (n j i : ℕ) : ℕ := queueIndex n ((j - 1) % 2 ^ 32 % n) i

/-- The first `i` rounds of call `j`, all of which found their queue full. -/
def fullRounds (n j i : ℕ) : List Try :=
  (List.range i).map (fun k => ⟨j, j, roundQueue n j k, false⟩)

/-- The rounds of call `j`, up to the `i`-th, which found room. -/
def roundsTo (n j i : ℕ) : List Try := fullRounds n j i ++ [⟨j, j, roundQueue n j i, true⟩]

theorem fullRounds_succ (n j i : ℕ) :
    fullRounds n j (i + 1) = fullRounds n j i ++ [⟨j, j, roundQueue n j i, false⟩] := by
  rw [fullRounds, fullRounds, List.range_succ, List.map_append]
  rfl

/-- **How a call ended**: in a queue that had room, or with every queue found full. -/
def Ended (n : ℕ) (s : State) (r : Dispatch) (j : ℕ) : Prop :=
  (∃ i, i < n ∧ r.log j = roundsTo n j i ∧ j ∉ s.rejected
      ∧ ∀ w, j ∈ s.pushed w ↔ w = roundQueue n j i)
    ∨ (r.log j = fullRounds n j n ∧ ∀ w, j ∉ s.pushed w)

/-- The job of call `j` has not left it. -/
def Carried (s : State) (j : ℕ) : Prop := j ∉ s.rejected ∧ ∀ w, j ∉ s.pushed w

/-- **Where call `j` stands**, and what its record is there. -/
def Standing (n : ℕ) (s : State) (r : Dispatch) (j : ℕ) : Option Submit → Prop
  | none => Ended n s r j
  | some (.fetchQueue job) => job = j ∧ r.held = j ∧ r.log j = [] ∧ Carried s j
  | some (.push start i pc) =>
    start = (j - 1) % 2 ^ 32 % n ∧ i < n ∧ pc.item = j ∧ Carried s j
      ∧ match pc with
        | .loadHead _ => r.held = j ∧ r.log j = fullRounds n j i
        | .loadTail _ _ => r.held = j ∧ r.log j = fullRounds n j i
        | .writeSlot _ _ => r.held = j ∧ r.log j = roundsTo n j i
        | .storeHead _ _ => r.log j = roundsTo n j i
  | some (.count job) =>
    job = j ∧ ∃ i, i < n ∧ r.log j = roundsTo n j i ∧ j ∉ s.rejected
      ∧ ∀ w, j ∈ s.pushed w ↔ w = roundQueue n j i

/-- The calls that have fetched the counter. -/
def State.fetched (s : State) : ℕ :=
  match s.call (.client 0) with
  | some (.fetchQueue _) => s.submitted - 1
  | _ => s.submitted

/-- **What the record of a run is**, with one submitting thread. -/
structure Recorded (n : ℕ) (s : State) (r : Dispatch) : Prop where
  counter : s.nextQueue.toNat = s.fetched % 2 ^ 32
  fresh : s.submitted = 0 → s.call (.client 0) = none
  past : ∀ j, 0 < j → j < s.submitted → Ended n s r j
  present : 0 < s.submitted → Standing n s r s.submitted (s.call (.client 0))
  absent : ∀ j, j = 0 ∨ s.submitted < j → r.log j = [] ∧ Carried s j

/-! ## Steps inside a call -/

variable {n : ℕ} {s s' : State} {r r' : Dispatch} {j : ℕ}

/-- Nothing has happened to the job of call `j`. -/
def Untouched (j : ℕ) (s s' : State) : Prop :=
  (∀ w, j ∈ s'.pushed w ↔ j ∈ s.pushed w) ∧ (j ∈ s'.rejected ↔ j ∈ s.rejected)

theorem Ended.congr (h : Ended n s r j) (hsame : Untouched j s s') (hlog : r'.log j = r.log j) :
    Ended n s' r' j := by
  obtain ⟨hpushed, hrejected⟩ := hsame
  unfold Ended
  simp only [hpushed, hrejected, hlog]
  exact h

theorem Carried.congr (h : Carried s j) (hsame : Untouched j s s') : Carried s' j :=
  ⟨fun hj => h.1 (hsame.2.mp hj), fun w hj => h.2 w ((hsame.1 w).mp hj)⟩

/-- A call in progress has a number. -/
theorem Recorded.pos_of_call (h : Recorded n s r) {c : Submit}
    (hcall : s.call (.client 0) = some c) : 0 < s.submitted := by
  refine Nat.pos_of_ne_zero (fun hzero => ?_)
  rw [h.fresh hzero] at hcall
  cases hcall

/-- **A step of the call in progress**: it is enough to say what has become of its own job. -/
theorem Recorded.advance (h : Recorded n s r) (hpos : 0 < s.submitted)
    (hsubmitted : s'.submitted = s.submitted)
    (hother : ∀ j, j ≠ s.submitted → Untouched j s s' ∧ r'.log j = r.log j)
    (hcounter : s'.nextQueue.toNat = s'.fetched % 2 ^ 32)
    (hpresent : Standing n s' r' s.submitted (s'.call (.client 0))) : Recorded n s' r' where
  counter := hcounter
  fresh hzero := by omega
  past j hj hlt := by
    rw [hsubmitted] at hlt
    obtain ⟨hsame, hlog⟩ := hother j (by omega)
    exact (h.past j hj hlt).congr hsame hlog
  present _ := by
    rw [hsubmitted]
    exact hpresent
  absent j hj := by
    rw [hsubmitted] at hj
    obtain ⟨hnone, hcarried⟩ := h.absent j hj
    obtain ⟨hsame, hlog⟩ := hother j (by omega)
    exact ⟨hlog.trans hnone, hcarried.congr hsame⟩

/-- The calls that have fetched the counter, where the one in progress has. -/
theorem fetched_of_call {call : Option Submit} (hcall : s.call (.client 0) = call)
    (hpast : ∀ job, call ≠ some (.fetchQueue job)) : s.fetched = s.submitted := by
  unfold State.fetched
  rw [hcall]
  cases call with
  | none => rfl
  | some c =>
    cases c with
    | fetchQueue job => exact absurd rfl (hpast job)
    | _ => rfl

/-- A new call. -/
theorem Recorded.submit (h : Recorded n s r) (hidle : s.call (.client 0) = none) :
    Recorded n ({ s with submitted := s.submitted + 1 }.setCall
      (some (.fetchQueue (s.submitted + 1))) (.client 0)) { r with held := s.submitted + 1 } := by
  have hcall : ({ s with submitted := s.submitted + 1 }.setCall
      (some (.fetchQueue (s.submitted + 1))) (.client 0)).call (.client 0)
        = some (.fetchQueue (s.submitted + 1)) := State.call_setCall_self trivial
  refine ⟨?_, fun hzero => ?_, fun j hj hlt => ?_, fun _ => ?_, fun j hj => ?_⟩
  · have hcounter := h.counter
    rw [fetched_of_call hidle (by simp)] at hcounter
    simp only [State.fetched, hcall, State.setCall_submitted, Nat.add_sub_cancel]
    exact hcounter
  · simp at hzero
  · -- the call before this one has ended
    simp only [State.setCall_submitted] at hlt
    obtain hlt | rfl := Nat.lt_succ_iff_lt_or_eq.mp hlt
    · exact (h.past j hj hlt).congr ⟨fun _ => Iff.rfl, Iff.rfl⟩ rfl
    · have hended := h.present hj
      rw [hidle] at hended
      exact Ended.congr hended ⟨fun _ => Iff.rfl, Iff.rfl⟩ rfl
  · rw [hcall]
    obtain ⟨hlog, hcarried⟩ := h.absent (s.submitted + 1) (Or.inr (Nat.lt_succ_self _))
    exact ⟨rfl, rfl, hlog, hcarried⟩
  · exact h.absent j (hj.imp id Nat.lt_of_succ_lt)

/-- The call fetches the counter, which its number says. -/
theorem Recorded.fetch (h : Recorded n s r) (hn : 0 < n) {job : Job}
    (hcall : s.call (.client 0) = some (.fetchQueue job)) :
    Recorded n ({ s with nextQueue := s.nextQueue + 1 }.setCall
      (some (.push (s.nextQueue.toNat % n) 0 (.loadHead job))) (.client 0)) r := by
  have hpos := h.pos_of_call hcall
  have hcall' : ({ s with nextQueue := s.nextQueue + 1 }.setCall
      (some (.push (s.nextQueue.toNat % n) 0 (.loadHead job))) (.client 0)).call (.client 0)
        = some (.push (s.nextQueue.toNat % n) 0 (.loadHead job)) := State.call_setCall_self trivial
  have hcounter := h.counter
  have hfetched : s.fetched = s.submitted - 1 := by
    unfold State.fetched
    rw [hcall]
  rw [hfetched] at hcounter
  obtain ⟨rfl, hheld, hlog, hcarried⟩ : Standing n s r s.submitted (some (.fetchQueue job)) :=
    hcall ▸ h.present hpos
  refine h.advance hpos (by simp) (fun j _ => ⟨⟨by simp, by simp⟩, rfl⟩) ?_ ?_
  · rw [fetched_of_call hcall' (by simp)]
    show (s.nextQueue + 1).toNat = s.submitted % 2 ^ 32
    rw [UInt32.toNat_add, hcounter, show (1 : UInt32).toNat = 1 from rfl]
    omega
  · rw [hcall', hcounter]
    exact ⟨rfl, hn, rfl, hcarried, hheld, hlog⟩

/-- A step past the fetch: the call goes to another place past it, or returns. -/
theorem Recorded.within (h : Recorded n s r) {c : Submit} (hcall : s.call (.client 0) = some c)
    (hpast : ∀ job, c ≠ .fetchQueue job) {s₁ : State} (call : Option Submit)
    (hpast' : ∀ job, call ≠ some (.fetchQueue job)) (hsubmitted : s₁.submitted = s.submitted)
    (hnext : s₁.nextQueue = s.nextQueue)
    (hother : ∀ j, j ≠ s.submitted → Untouched j s s₁ ∧ r'.log j = r.log j)
    (hpresent : Standing n s₁ r' s.submitted call) :
    Recorded n (s₁.setCall call (.client 0)) r' := by
  have hcall' : (s₁.setCall call (.client 0)).call (.client 0) = call :=
    State.call_setCall_self trivial
  refine h.advance (h.pos_of_call hcall) hsubmitted hother ?_ ?_
  · have hcounter := h.counter
    rw [fetched_of_call hcall (fun job heq => hpast job (Option.some.inj heq))] at hcounter
    rw [fetched_of_call hcall' hpast', State.setCall_submitted, hsubmitted, ← hcounter, ← hnext]
    rfl
  · rw [hcall']
    exact hpresent

theorem mem_storePush_pushed {v w : ℕ} {q : SpscQueue Job} {pc : SpscQueue.Push Job} :
    j ∈ (s.storePush v q pc).pushed w ↔ j ∈ s.pushed w ∨ (w = v ∧ j ∈ pc.published) := by
  show j ∈ Function.update s.pushed v (s.pushed v ++ pc.published) w ↔ _
  rw [Function.update_apply]
  split
  · rename_i hw
    rw [List.mem_append, hw]
    simp
  · rename_i hw
    simp [hw]

/-- An access of `try_push` touches the job it publishes, and no other. -/
theorem untouched_storePush {v : ℕ} {q : SpscQueue Job} {pc : SpscQueue.Push Job}
    (hnot : j ∉ pc.published) : Untouched j s (s.storePush v q pc) :=
  ⟨fun w => by simp [mem_storePush_pushed, hnot], Iff.rfl⟩

/-- A comparison of the call in progress is entered in its own record. -/
theorem log_concat (held : Job) {t : Try} (ht : t.call = s.submitted) :
    (Dispatch.mk held (r.tries ++ [t])).log s.submitted = r.log s.submitted ++ [t]
      ∧ ∀ j, j ≠ s.submitted → (Dispatch.mk held (r.tries ++ [t])).log j = r.log j := by
  unfold Dispatch.log
  refine ⟨by simp [ht], fun j hj => ?_⟩
  have hne : t.call ≠ j := by
    rw [ht]
    exact hj.symm
  simp [hne]

/-! ### The rounds -/

section Rounds

variable {start i : ℕ} {pc pc' : SpscQueue.Push Job} {q : SpscQueue Job}

theorem submit_push_of_inl
    (htry : tryPush queueCapacity (s.queues (queueIndex n start i)) pc = (q, .inl pc')) :
    JobSystem.submit n s (.push start i pc)
      = (s.storePush (queueIndex n start i) q pc, .inl (.push start i pc')) := by
  simp only [JobSystem.submit, htry]
  rfl

theorem submit_push_of_true
    (htry : tryPush queueCapacity (s.queues (queueIndex n start i)) pc = (q, .inr true)) :
    JobSystem.submit n s (.push start i pc)
      = (s.storePush (queueIndex n start i) q pc, .inl (.count pc.item)) := by
  simp only [JobSystem.submit, htry]
  rfl

theorem submit_push_of_false
    (htry : tryPush queueCapacity (s.queues (queueIndex n start i)) pc = (q, .inr false))
    (hi : i + 1 < n) :
    JobSystem.submit n s (.push start i pc)
      = (s.storePush (queueIndex n start i) q pc,
        .inl (.push start (i + 1) (.loadHead pc.item))) := by
  simp only [JobSystem.submit, htry, if_pos hi]
  rfl

theorem submit_push_of_last
    (htry : tryPush queueCapacity (s.queues (queueIndex n start i)) pc = (q, .inr false))
    (hi : ¬ i + 1 < n) :
    JobSystem.submit n s (.push start i pc)
      = ({ s.storePush (queueIndex n start i) q pc with rejected := s.rejected ++ [pc.item] },
        .inr false) := by
  simp only [JobSystem.submit, htry, if_neg hi]
  rfl

/-- **The comparison of a round**: where there is room the call stays in the round, and
otherwise it goes to the next or returns. -/
theorem Recorded.compare (h : Recorded n s r) {item : Job} {head : ℕ}
    (hcall : s.call (.client 0) = some (.push start i (.loadTail item head))) :
    Recorded n ((JobSystem.submit n s (.push start i (.loadTail item head))).1.setCall
        (JobSystem.submit n s (.push start i (.loadTail item head))).2.getLeft? (.client 0))
      ⟨r.held, r.tries ++ compared n s start i r.held (.loadTail item head)⟩ := by
  have hstands := h.present (h.pos_of_call hcall)
  rw [hcall] at hstands
  obtain ⟨hstart, hi, hitem, hcarried, hheld, hlog⟩ := hstands
  replace hitem : item = s.submitted := hitem
  have hqueue : queueIndex n start i = roundQueue n s.submitted i := by
    rw [hstart]
    rfl
  have hsame : ∀ j, Untouched j s (s.storePush (queueIndex n start i)
      (s.queues (queueIndex n start i)) (.loadTail item head)) :=
    fun j => untouched_storePush List.not_mem_nil
  by_cases hfull : SpscQueue.next queueCapacity head = (s.queues (queueIndex n start i)).tail
  · have htry : tryPush queueCapacity (s.queues (queueIndex n start i)) (.loadTail item head)
        = (s.queues (queueIndex n start i), .inr false) := if_pos hfull
    have hentered : compared n s start i r.held (.loadTail item head)
        = [⟨s.submitted, s.submitted, roundQueue n s.submitted i, false⟩] := by
      simp only [compared, hfull, hheld, ← hqueue, ne_eq, not_true_eq_false, decide_false]
    obtain ⟨hown, hothers⟩ := log_concat (s := s) (r := r) s.submitted
      (t := ⟨s.submitted, s.submitted, roundQueue n s.submitted i, false⟩) rfl
    rw [hlog, ← fullRounds_succ] at hown
    rw [hentered, hheld]
    by_cases hlast : i + 1 < n
    · rw [submit_push_of_false htry hlast]
      refine h.within hcall (by simp) (some (.push start (i + 1) (.loadHead item))) (by simp) rfl
        rfl (fun j hj => ⟨hsame j, hothers j hj⟩) ?_
      exact ⟨hstart, hlast, hitem, hcarried.congr (hsame _), rfl, hown⟩
    · -- the last queue is full, too
      obtain rfl : n = i + 1 := by omega
      rw [submit_push_of_last htry hlast]
      refine h.within hcall (by simp) none (by simp) rfl rfl (fun j hj => ⟨⟨?_, ?_⟩, hothers j hj⟩)
        (Or.inr ⟨hown, fun w => ?_⟩)
      · exact (hsame j).1
      · show j ∈ s.rejected ++ [item] ↔ _
        simp [hitem, hj]
      · exact (hcarried.congr (hsame _)).2 w
  · have htry : tryPush queueCapacity (s.queues (queueIndex n start i)) (.loadTail item head)
        = (s.queues (queueIndex n start i), .inl (.writeSlot item head)) := if_neg hfull
    have hentered : compared n s start i r.held (.loadTail item head)
        = [⟨s.submitted, s.submitted, roundQueue n s.submitted i, true⟩] := by
      simp only [compared, hfull, hheld, ← hqueue, ne_eq, not_false_eq_true, decide_true]
    obtain ⟨hown, hothers⟩ := log_concat (s := s) (r := r) s.submitted
      (t := ⟨s.submitted, s.submitted, roundQueue n s.submitted i, true⟩) rfl
    rw [hlog] at hown
    rw [hentered, hheld, submit_push_of_inl htry]
    refine h.within hcall (by simp) (some (.push start i (.writeSlot item head))) (by simp) rfl
      rfl (fun j hj => ⟨hsame j, hothers j hj⟩) ?_
    exact ⟨hstart, hi, hitem, hcarried.congr (hsame _), rfl, hown⟩

/-- **An access of `try_push`** in the round of a call. -/
theorem Recorded.push (h : Recorded n s r)
    (hcall : s.call (.client 0) = some (.push start i pc)) :
    Recorded n ((JobSystem.submit n s (.push start i pc)).1.setCall
        (JobSystem.submit n s (.push start i pc)).2.getLeft? (.client 0))
      ⟨leftBy r.held pc, r.tries ++ compared n s start i r.held pc⟩ := by
  have hstands := h.present (h.pos_of_call hcall)
  rw [hcall] at hstands
  obtain ⟨hstart, hi, hitem, hcarried, hrest⟩ := hstands
  cases pc with
  | loadHead item =>
    rw [compared, List.append_nil, submit_push_of_inl rfl]
    refine h.within hcall (by simp) (some (.push start i (.loadTail item _))) (by simp) rfl rfl
      (fun j _ => ⟨untouched_storePush List.not_mem_nil, rfl⟩) ?_
    exact ⟨hstart, hi, hitem, hcarried.congr (untouched_storePush List.not_mem_nil), hrest⟩
  | loadTail item head => exact h.compare hcall
  | writeSlot item head =>
    rw [compared, List.append_nil, submit_push_of_inl rfl]
    refine h.within hcall (by simp) (some (.push start i (.storeHead item head))) (by simp) rfl rfl
      (fun j _ => ⟨untouched_storePush List.not_mem_nil, rfl⟩) ?_
    exact ⟨hstart, hi, hitem, hcarried.congr (untouched_storePush List.not_mem_nil), hrest.2⟩
  | storeHead item head =>
    -- the store publishes the job in the queue of the round
    replace hitem : item = s.submitted := hitem
    rw [compared, List.append_nil, submit_push_of_true rfl]
    refine h.within hcall (by simp) (some (.count item)) (by simp) rfl rfl
      (fun j hj =>
        ⟨untouched_storePush (by simpa [SpscQueue.Push.published, hitem] using hj), rfl⟩) ?_
    refine ⟨hitem, i, hi, hrest, hcarried.1, fun w => ?_⟩
    rw [mem_storePush_pushed, hstart]
    simp [hcarried.2 w, SpscQueue.Push.published, hitem, roundQueue]

end Rounds

/-! ## Every run -/

/-- A thread that is not inside `submit` leaves the jobs, the counter and the call alone. -/
theorem frame_of_outside {τ : Thread} (hcall : s.call τ = none)
    (hmove : Moves n s (.next τ) s') :
    s'.pushed = s.pushed ∧ s'.rejected = s.rejected ∧ s'.submitted = s.submitted
      ∧ s'.nextQueue = s.nextQueue ∧ s'.call = s.call := by
  cases hmove with
  | fetch hc => rw [hcall] at hc; cases hc
  | push hc _ => rw [hcall] at hc; cases hc
  | publish hc _ => rw [hcall] at hc; cases hc
  | full hc _ _ => rw [hcall] at hc; cases hc
  | reject hc _ => rw [hcall] at hc; cases hc
  | count hc => rw [hcall] at hc; cases hc
  | check hw hpc => exact ⟨rfl, rfl, rfl, rfl, State.call_of_worker rfl rfl (by rw [hpc]; rfl)⟩
  | pop hw hpc htry => exact ⟨rfl, rfl, rfl, rfl, State.call_of_worker rfl rfl (by rw [hpc]; rfl)⟩
  | take hw hpc htry => exact ⟨rfl, rfl, rfl, rfl, State.call_of_worker rfl rfl (by rw [hpc]; rfl)⟩
  | @empty w draining pc q hw hpc htry =>
    refine ⟨rfl, rfl, rfl, rfl, State.call_of_worker rfl rfl ?_⟩
    rw [hpc]
    cases draining <;> rfl
  | finish hw hpc => exact ⟨rfl, rfl, rfl, rfl, State.call_of_worker rfl rfl (by rw [hpc]; rfl)⟩
  | @subtract w draining job hw hpc =>
    refine ⟨rfl, rfl, rfl, rfl, State.call_of_worker rfl rfl ?_⟩
    rw [hpc]
    cases draining <;> rfl
  | client hmove => exact ⟨rfl, rfl, rfl, rfl, State.call_of_client rfl rfl hmove.call_eq⟩

theorem Recorded.frame (h : Recorded n s r) (hpushed : s'.pushed = s.pushed)
    (hrejected : s'.rejected = s.rejected) (hsubmitted : s'.submitted = s.submitted)
    (hnext : s'.nextQueue = s.nextQueue) (hcall : s'.call = s.call) : Recorded n s' r := by
  have hsame : ∀ j, Untouched j s s' := fun j =>
    ⟨fun w => by rw [hpushed], by rw [hrejected]⟩
  have hfetched : s'.fetched = s.fetched := by
    unfold State.fetched
    rw [hcall, hsubmitted]
  refine ⟨?_, ?_, fun j hj hlt => ?_, fun hpos => ?_, fun j hj => ?_⟩
  · rw [hnext, hfetched]
    exact h.counter
  · rw [hsubmitted, hcall]
    exact h.fresh
  · exact (h.past j hj (hsubmitted ▸ hlt)).congr (hsame j) rfl
  · rw [hsubmitted, hcall]
    have hpresent := h.present (hsubmitted ▸ hpos)
    revert hpresent
    -- what a call stands at says of the state only what has become of the jobs
    cases s.call (.client 0) with
    | none => exact fun hended => Ended.congr hended (hsame _) rfl
    | some c =>
      cases c with
      | fetchQueue job => exact fun h => ⟨h.1, h.2.1, h.2.2.1, h.2.2.2.congr (hsame _)⟩
      | push start i pc =>
        exact fun h => ⟨h.1, h.2.1, h.2.2.1, h.2.2.2.1.congr (hsame _), h.2.2.2.2⟩
      | count job =>
        simp only [Standing, hpushed, hrejected]
        exact id
  · obtain ⟨hlog, hcarried⟩ := h.absent j (hsubmitted ▸ hj)
    exact ⟨hlog, hcarried.congr (hsame j)⟩

/-- **Every step of a run with one submitting thread keeps the record.** -/
theorem recorded_step (hn : 0 < n) (h : Recorded n s r) (horderly : Orderly n s) {a : Action}
    (ha : OneSubmitter a) (hstep : step n s a = some s') :
    Recorded n s' (enterTry n s a s' r) := by
  cases a with
  | submit τ =>
    obtain rfl : τ = .client 0 := ha
    have hmove := step_cases hstep
    cases hmove with
    | submit hcan => exact h.submit (State.call_of_canSubmit hcan)
    | client hmove => cases hmove
  | waitIdle t =>
    have hmove := step_cases hstep
    cases hmove with
    | client hmove => exact h.frame rfl rfl rfl rfl (State.call_of_client rfl rfl hmove.call_eq)
  | destroy t =>
    have hmove := step_cases hstep
    cases hmove with
    | client hmove => exact h.frame rfl rfl rfl rfl (State.call_of_client rfl rfl hmove.call_eq)
  | next τ =>
    cases hcall : s.call τ with
    | none =>
      obtain ⟨hpushed, hrejected, hsubmitted, hnext, hcalls⟩ :=
        frame_of_outside hcall (step_cases hstep)
      simp only [enterTry, hcall]
      exact h.frame hpushed hrejected hsubmitted hnext hcalls
    | some c =>
      obtain rfl := horderly.calls τ c hcall
      simp only [step, hcall, Option.some.injEq] at hstep
      subst hstep
      cases c with
      | fetchQueue job =>
        simp only [enterTry, hcall]
        exact h.fetch hn hcall
      | push start i pc =>
        simp only [enterTry, hcall]
        exact h.push hcall
      | count job =>
        simp only [enterTry, hcall]
        obtain ⟨hjob, hrest⟩ : Standing n s r s.submitted (some (.count job)) :=
          hcall ▸ h.present (h.pos_of_call hcall)
        exact h.within hcall (by simp) none (by simp) rfl rfl
          (fun j _ => ⟨⟨fun _ => Iff.rfl, Iff.rfl⟩, rfl⟩) (Or.inl hrest)

/-- **The record of every run with one submitting thread.** -/
theorem recorded_of_reachable (hn : 0 < n) {d : State × Dispatch}
    (h : (dispatching n).ReachableBy (fun _ a => OneSubmitter a) d) : Recorded n d.1 d.2 := by
  refine Machine.ReachableBy.invariant (I := fun d => Recorded n d.1 d.2) ?_ ?_ h
  · refine ⟨rfl, fun _ => rfl, fun j _ hlt => absurd hlt (Nat.not_lt_zero j),
      fun hpos => absurd hpos (Nat.lt_irrefl 0), fun j _ => ⟨rfl, ?_⟩⟩
    exact ⟨List.not_mem_nil, fun w => List.not_mem_nil⟩
  · intro d a d' hd hrecorded ha hstep
    obtain ⟨hstep', hentered⟩ := Machine.recording_step hstep
    have hreach : (machine n).ReachableBy (fun _ a => OneSubmitter a) d.1 :=
      Machine.ReachableBy.of_recording hd
    rw [hentered]
    exact recorded_step hn hrecorded (orderly_of_reachable (fun _ _ ha => ha) hreach) ha hstep'

end JobSystem

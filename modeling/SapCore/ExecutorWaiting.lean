import SapCore.ExecutorAccounting
import SapCore.ExecutorQueue

/-!
# No coroutine waits in vain

The books of the executor are kept as long as the coroutines that are scheduled are
running ones. Of what they say, a part holds whatever is scheduled: a coroutine
that is suspended in an awaiter is waited for by the reactor, and counted, or its
handle is in the ready queue – if not as the entry of its awaiter, then as another.
A queue that has run empty while the counter is zero therefore leaves no coroutine
behind. All that is asked of the run is that an awaiter is awaited once.

The part is stated for itself (`Waits`), since an entry more in the queue breaks
the rest: it resumes the coroutine before its awaiter is queued.
-/

namespace Executor

variable {α τ κ η : Type} {s s' : Executor α τ κ} {a : α} {h : κ} {w : IoAwaiter κ}

/-- **What holds of an awaiter whatever is scheduled.** -/
structure Waiting (s : Executor α τ κ) (a : α) (w : IoAwaiter κ) : Prop where
  pristine : w.continuation = none → w.phase ≠ .suspended ∧ w.queued = false ∧ w.registered = false
  idle : w.phase = .idle → w.continuation = none
  registered : w.registered = true → w.phase = .suspended
  suspendedIn_iff : ∀ h, s.suspendedIn h = some a ↔ w.phase = .suspended ∧ w.continuation = some h
  queued : ∀ h, w.phase = .suspended → w.queued = true → w.continuation = some h →
    h ∈ s.ready.map Prod.fst

/-- **The coroutines that wait**, and their number. -/
structure Waits (s : Executor α τ κ) : Prop where
  count : Counted s
  waiting : ∀ a, Waiting s a (s.awaiter a)

theorem waits_new : Waits (new : Executor α τ κ) where
  count := counted_new
  waiting a := {
    pristine := fun _ => ⟨by simp [new, IoAwaiter.new], rfl, rfl⟩
    idle := fun _ => rfl
    registered := fun hr => absurd hr (by simp [new, IoAwaiter.new])
    suspendedIn_iff := fun _ => by simp [new, IoAwaiter.new]
    queued := fun _ hphase => absurd hphase (by simp [new, IoAwaiter.new]) }

theorem Waits.continued (hs : Waits s) : Continued s := fun a hphase hc =>
  ((hs.waiting a).pristine hc).1 hphase

/-- **What holds between the events**, whatever is scheduled. -/
structure Attended (s : Executor α τ κ) : Prop where
  waits : Waits s
  remembered : Remembered s

/-- **An awaiter is awaited once.** -/
def Once (s : Executor α τ κ) : Event α τ κ → Prop
  | .coAwait a _ _ => (s.awaiter a).phase = .idle
  | _ => True

/-- **A queue that has run empty leaves no coroutine behind.** -/
theorem Attended.not_suspended (hs : Attended s) (hready : s.ready = [])
    (hpending : s.pendingIo = 0) (a : α) : (s.awaiter a).phase ≠ .suspended := by
  intro hphase
  obtain hregistered | hqueued := hs.remembered a hphase
  · obtain ⟨registered, hmem, hcard⟩ := hs.waits.count
    rw [hpending] at hcard
    have hempty : registered = ∅ := Finset.card_eq_zero.mp (Int.ofNat.inj hcard.symm)
    have hin := (hmem a).mpr hregistered
    rw [hempty] at hin
    exact absurd hin (Finset.notMem_empty a)
  · cases hc : (s.awaiter a).continuation with
    | none => exact hs.waits.continued a hphase hc
    | some h =>
      have hin := (hs.waits.waiting a).queued h hphase hqueued hc
      rw [hready] at hin
      exact absurd hin List.not_mem_nil

/-! ## Writes -/

/-- Entries may be added to the queue. -/
theorem Waiting.congr (hw : Waiting s a w) (hsuspended : s'.suspendedIn = s.suspendedIn)
    (hready : s.ready <+: s'.ready) : Waiting s' a w :=
  { hw with
    suspendedIn_iff := by
      rw [hsuspended]
      exact hw.suspendedIn_iff
    queued := fun h hphase hqueued hc =>
      (hready.map Prod.fst).subset (hw.queued h hphase hqueued hc) }

/-- Where no awaiter changes. -/
theorem Waits.congr (hs : Waits s) (hawaiter : s'.awaiter = s.awaiter)
    (hpending : s'.pendingIo = s.pendingIo) (hsuspended : s'.suspendedIn = s.suspendedIn)
    (hready : s.ready <+: s'.ready) : Waits s' where
  count := by
    unfold Counted
    rw [hawaiter, hpending]
    exact hs.count
  waiting a := by
    rw [hawaiter]
    exact (hs.waiting a).congr hsuspended hready

theorem Waits.setStop [DecidableEq τ] (hs : Waits s) (t : τ) (stop : StopState α α) :
    Waits (s.setStop t stop) :=
  hs.congr rfl rfl rfl (List.prefix_refl _)

theorem Waits.requestStop [DecidableEq τ] (hs : Waits s) (t : τ) : Waits (s.requestStop t) := by
  unfold Executor.requestStop
  split
  · exact hs
  · exact hs.congr rfl rfl rfl (List.prefix_refl _)

/-- A coroutine that is suspended in no awaiter is taken out of the queue. -/
theorem Waits.popFront (hs : Waits s) {owner : Option α} {rest : List (κ × Option α)}
    (hready : s.ready = (h, owner) :: rest) (hrunning : s.suspendedIn h = none) :
    Waits (s.popFront h rest) where
  count := hs.count
  waiting b := { hs.waiting b with
    queued := fun h' hphase hqueued hc => by
      have hin := ((hs.waiting b).suspendedIn_iff h').mpr ⟨hphase, hc⟩
      have hmem := (hs.waiting b).queued h' hphase hqueued hc
      rw [hready, List.map_cons, List.mem_cons] at hmem
      obtain heq | hmem := hmem
      · rw [heq, hrunning] at hin
        cases hin
      · exact hmem }

variable [DecidableEq α]

/-- Where one awaiter changes. -/
theorem Waits.write (hs : Waits s) (hcount : Counted s')
    (hawaiter : s'.awaiter = Function.update s.awaiter a w) (hself : Waiting s' a w)
    (hsuspended : s'.suspendedIn = s.suspendedIn) (hready : s.ready <+: s'.ready) : Waits s' where
  count := hcount
  waiting := forall_modify hawaiter hself (fun b _ => (hs.waiting b).congr hsuspended hready)

/-! ## The blocks -/

theorem Waits.setCancelled (hs : Waits s) (a : α) :
    Waits (s.modify a (fun w => { w with cancelled := true })) :=
  hs.write (hs.count.write rfl rfl rfl) rfl { hs.waiting a with } rfl (List.prefix_refl _)

theorem Waits.deregister [DecidableEq η] {setup : Setup α τ η} (hs : Waits s) (a : α) :
    Waits (s.deregister setup a) := by
  have hcount : Counted (s.deregister setup a) := hs.count.deregister a
  revert hcount
  unfold Executor.deregister
  split
  · intro hcount
    refine hs.write hcount rfl ?_ rfl (List.prefix_refl _)
    exact { hs.waiting a with
      pristine := fun hc => by
        obtain ⟨hphase, hqueued, -⟩ := (hs.waiting a).pristine hc
        exact ⟨hphase, hqueued, rfl⟩
      registered := fun hr => absurd hr (by simp) }
  · exact fun _ => hs

/-- Queueing an awaiter that has a continuation. -/
theorem Waits.setQueued (hs : Waits s) (hc : (s.awaiter a).continuation = some h)
    {addError : List Char} {addFailed : Bool} :
    Waits ((s.modify a (fun w => { w with
      addError := addError
      addFailed := addFailed
      queued := true })).push h (some a)) := by
  refine hs.write (hs.count.write rfl rfl rfl) rfl ?_ rfl (List.prefix_append _ _)
  exact { hs.waiting a with
    pristine := fun hnone => absurd (hc.symm.trans hnone) (Option.some_ne_none h)
    queued := fun h' _ _ hc' => by
      cases hc.symm.trans hc'
      show h ∈ (s.ready ++ [(h, some a)]).map Prod.fst
      simp }

theorem Waits.enqueue (hs : Waits s) (a : α) : Waits (s.enqueue a) := by
  unfold Executor.enqueue
  split
  · exact hs
  · split
    · rename_i h hc
      exact hs.setQueued hc
    · exact hs

theorem Waits.onCancel [DecidableEq η] {setup : Setup α τ η} (hs : Waits s) (a : α) :
    Waits (s.onCancel setup a) := by
  unfold Executor.onCancel
  split
  · exact hs
  · exact ((hs.setCancelled a).deregister a).enqueue a

theorem Waits.enqueueAll (hs : Waits s) (tokens : List α) : Waits (s.enqueueAll tokens) := by
  unfold Executor.enqueueAll
  induction tokens generalizing s with
  | nil => exact hs
  | cons a tokens ih => exact ih (hs.enqueue a)

theorem Waits.setPhase (hs : Waits s) (hphase : (s.awaiter a).phase ≠ .suspended)
    (hregistered : (s.awaiter a).registered = false) {phase : Phase} (hidle : phase ≠ .idle)
    (hsuspended : phase ≠ .suspended) :
    Waits (s.modify a (fun w => { w with phase := phase })) := by
  refine hs.write (hs.count.write rfl rfl rfl) rfl ?_ rfl (List.prefix_refl _)
  exact { hs.waiting a with
    pristine := fun hc => ⟨hsuspended, ((hs.waiting a).pristine hc).2⟩
    idle := fun heq => absurd heq hidle
    registered := fun hr => absurd (hregistered.symm.trans hr) (by simp)
    suspendedIn_iff := fun h => by
      refine ⟨fun hin => ?_, fun hand => absurd hand.1 hsuspended⟩
      exact absurd (((hs.waiting a).suspendedIn_iff h).mp hin).1 hphase
    queued := fun _ heq => absurd heq hsuspended }

/-! ## Awaiting -/

variable {setup : Setup α τ η}

/-- A running coroutine is suspended in an awaiter that was not awaited before. -/
theorem Waits.suspend [DecidableEq κ] (hs : Waits s) (hphase : (s.awaiter a).phase = .idle)
    (hrunning : s.suspendedIn h = none) : Waits (s.suspend a h) where
  count := hs.count.write rfl rfl rfl
  waiting := by
    have hnone := (hs.waiting a).idle hphase
    have hqueued := ((hs.waiting a).pristine hnone).2.1
    refine forall_modify (s := s) (a := a) rfl ?_ (fun b hb => ?_)
    · exact {
        pristine := fun hc => absurd hc (Option.some_ne_none h)
        idle := fun heq => by cases heq
        registered := fun _ => rfl
        suspendedIn_iff := fun h' => by
          refine (update_some_eq_some hrunning h' a).trans ?_
          rw [(hs.waiting a).suspendedIn_iff h', hnone]
          simp [eq_comm]
        queued := fun _ _ hq => absurd (hqueued.symm.trans hq) (by simp) }
    · exact { hs.waiting b with
        suspendedIn_iff := fun h' => by
          refine (update_some_eq_some hrunning h' b).trans ?_
          rw [(hs.waiting b).suspendedIn_iff h']
          simp [hb] }

theorem Waits.register (hs : Waits s) (hphase : (s.awaiter a).phase = .suspended)
    (hregistered : (s.awaiter a).registered = false) : Waits (s.register a) := by
  refine hs.write (hs.count.register hregistered) rfl ?_ rfl (List.prefix_refl _)
  exact { hs.waiting a with
    pristine := fun hc => absurd hphase ((hs.waiting a).pristine hc).1
    registered := fun _ => hphase }

theorem Waits.destroy [DecidableEq τ] (hs : Waits s) (hphase : (s.awaiter a).phase ≠ .suspended) :
    Waits (s.destroy setup a) := by
  have hregistered : (s.awaiter a).registered = false := by
    rw [← Bool.not_eq_true]
    exact fun hr => hphase ((hs.waiting a).registered hr)
  unfold Executor.destroy
  split
  · exact (hs.setStop _ _).setPhase hphase hregistered (by simp) (by simp)
  · exact hs.setPhase hphase hregistered (by simp) (by simp)

variable [DecidableEq η]

theorem Waits.armToken [DecidableEq τ] (hs : Waits s) (a : α) : Waits (s.armToken setup a) := by
  unfold Executor.armToken
  split
  · split
    · exact (hs.setStop _ _).onCancel a
    · exact hs.setStop _ _
  · exact hs

theorem Waits.coAwait [DecidableEq τ] [DecidableEq κ] (hs : Waits s)
    (hphase : (s.awaiter a).phase = .idle) (hrunning : s.suspendedIn h = none)
    (add : Option AddError) :
    Waits (s.coAwait setup a h add) := by
  have hnone := (hs.waiting a).idle hphase
  obtain ⟨-, -, hregistered⟩ := (hs.waiting a).pristine hnone
  unfold Executor.coAwait
  split
  · unfold awaitResume
    refine (hs.deregister a).setPhase ?_ ?_ (by simp) (by simp)
    · rw [deregister_awaiter, if_pos rfl]
      show (s.awaiter a).phase ≠ .suspended
      rw [hphase]
      simp
    · rw [deregister_awaiter, if_pos rfl]
  · have hsuspend := hs.suspend hphase hrunning
    unfold awaitSuspend
    cases add with
    | some err => exact hsuspend.setQueued (by rw [suspend_awaiter_self])
    | none =>
      refine (hsuspend.register ?_ ?_).armToken a
      · rw [suspend_awaiter_self]
      · rw [suspend_awaiter_self]
        exact hregistered

/-! ## Resuming -/

theorem Waits.countResumption (hs : Waits s) (owner : Option α) :
    Waits (s.countResumption owner) := by
  unfold Executor.countResumption
  split
  · exact hs.write (hs.count.write rfl rfl rfl) rfl { hs.waiting _ with } rfl (List.prefix_refl _)
  · exact hs

theorem Waits.leave [DecidableEq κ] (hs : Waits s) (hin : s.suspendedIn h = some a)
    (hregistered : (s.awaiter a).registered = false) (result : AwaitResult) :
    Waits (s.leave a h result) where
  count := hs.count.write rfl rfl rfl
  waiting := by
    obtain ⟨hphase, hc⟩ := ((hs.waiting a).suspendedIn_iff h).mp hin
    refine forall_modify (s := s) (a := a) rfl ?_ (fun b hb => ?_)
    · exact {
        pristine := fun hnone => absurd (hc.symm.trans hnone) (Option.some_ne_none h)
        idle := fun heq => by cases heq
        registered := fun hr => absurd (hregistered.symm.trans hr) (by simp)
        suspendedIn_iff := fun h' => by
          refine (update_none_eq_some h' a).trans ?_
          rw [(hs.waiting a).suspendedIn_iff h', hc]
          exact ⟨fun hand => absurd (Option.some.inj hand.2.2).symm hand.1,
            fun hand => by cases hand.1⟩
        queued := fun _ heq => by cases heq }
    · exact { hs.waiting b with
        suspendedIn_iff := fun h' => by
          refine (update_none_eq_some h' b).trans ?_
          rw [← (hs.waiting b).suspendedIn_iff h']
          exact and_iff_right_of_imp (ne_of_suspendedIn hin hb) }

/-- **A coroutine goes on**, and is then suspended in no awaiter. -/
theorem Waits.goOn [DecidableEq κ] (hs : Waits s) (h : κ) :
    Waits (s.goOn setup h) ∧ (s.goOn setup h).suspendedIn h = none := by
  cases hin : s.suspendedIn h with
  | some a =>
    rw [goOn_eq_leave hin]
    refine ⟨(hs.deregister a).leave ?_ ?_ _, Function.update_self _ _ _⟩
    · rw [(queues_deregister _ a).suspendedIn]
      exact hin
    · rw [deregister_awaiter, if_pos rfl]
  | none =>
    unfold Executor.goOn
    rw [hin]
    exact ⟨hs, hin⟩

theorem Waits.resumeFront [DecidableEq κ] (hs : Waits s) {owner : Option α}
    {rest : List (κ × Option α)} (hready : s.ready = (h, owner) :: rest) :
    Waits (s.resumeFront setup h owner rest) := by
  have hgrows : Grows [] s ((s.countResumption owner).goOn setup h) :=
    (grows_countResumption s owner).trans (grows_goOn _ h)
  have hready' : ((s.countResumption owner).goOn setup h).ready = (h, owner) :: rest := by
    rw [hgrows.ready, hready]
    exact List.append_nil _
  have hgoOn : Waits ((s.countResumption owner).goOn setup h) ∧ _ :=
    (hs.countResumption owner).goOn h
  obtain ⟨hwaits, hrunning⟩ := hgoOn
  rw [resumeFront_eq]
  exact hwaits.popFront hready' hrunning

theorem Waits.turn [DecidableEq τ] (hs : Waits s) (t : τ) : Waits (s.turn setup t) := by
  unfold Executor.turn
  split
  · split
    · exact (hs.setStop _ _).onCancel _
    · exact hs.setStop _ _
  · exact hs.congr rfl rfl rfl (List.prefix_refl _)

/-! ## Every event -/

/-- **Every event keeps the coroutines attended.** -/
theorem attended_step [DecidableEq τ] [DecidableEq κ] (hs : Attended s) {event : Event α τ κ}
    (honce : Once s event) (hstep : s.step setup event = some s') : Attended s' := by
  refine ⟨?_, hs.remembered.step hs.waits.continued hstep⟩
  cases step_cases hstep with
  | turn hdraining => exact hs.waits.turn _
  | coAwait hphase hrunning => exact hs.waits.coAwait honce hrunning _
  | trigger hadded => exact hs.waits.enqueueAll _
  | requestStop => exact hs.waits.requestStop _
  | resume hready => exact hs.waits.resumeFront hready
  | schedule => exact hs.waits.congr rfl rfl rfl (List.prefix_append _ _)
  | destroy hphase => exact hs.waits.destroy hphase

end Executor

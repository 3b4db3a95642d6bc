import SapCore.ExecutorRemembered

/-!
# The executor's accounting

Every event keeps the books, and no coroutine is forgotten, in every run in which
an awaiter is suspended only while it is not queued – in particular, where every
awaiter is awaited at most once. What the counter, the flags and the queue then say
of each other is put together in `accounting`.
-/

namespace Executor

variable {α τ κ η : Type} {setup : Setup α τ η} {s s' : Executor α τ κ} {a : α} {h : κ}

/-! ## What the books say -/

/-- **The awaiter whose entry is at the front**: its coroutine is suspended in it. -/
theorem Books.front (hs : Books setup s) {rest : List (κ × Option α)}
    (hready : s.ready = (h, some a) :: rest) :
    (s.awaiter a).phase = .suspended ∧ (s.awaiter a).queued = true
      ∧ (s.awaiter a).continuation = some h ∧ s.suspendedIn h = some a := by
  have hmem : (h, some a) ∈ s.ready := by
    rw [hready]
    exact List.mem_cons_self
  obtain ⟨hphase, hqueued⟩ := (hs.fits a).mem_owners.mp (mem_owners_iff.mpr ⟨h, hmem⟩)
  have hc := (hs.fits a).entry h hmem
  exact ⟨hphase, hqueued, hc, ((hs.fits a).suspendedIn_iff h).mpr ⟨hphase, hc⟩⟩

/-- An entry pushed for an awaiter is its continuation, and the coroutine is suspended
in it. -/
theorem Books.suspendedIn_of_entry (hs : Books setup s) (hmem : (h, some a) ∈ s.ready) :
    s.suspendedIn h = some a :=
  ((hs.fits a).suspendedIn_iff h).mpr
    ⟨((hs.fits a).mem_owners.mp (mem_owners_iff.mpr ⟨h, hmem⟩)).1, (hs.fits a).entry h hmem⟩

/-- Where a handle stands in the queue exactly for an awaiter, it does so as often as
the awaiter has entries. -/
theorem count_map_fst [DecidableEq α] [DecidableEq κ] {ready : List (κ × Option α)}
    (hiff : ∀ entry ∈ ready, entry.1 = h ↔ entry.2 = some a) :
    (ready.map Prod.fst).count h = (owners ready).count a := by
  induction ready with
  | nil => rfl
  | cons entry ready ih =>
    obtain ⟨h', owner⟩ := entry
    have ih' := ih (fun entry hmem => hiff entry (List.mem_cons_of_mem _ hmem))
    have hfirst : h' = h ↔ owner = some a := hiff (h', owner) List.mem_cons_self
    cases owner with
    | none =>
      have hne : h' ≠ h := fun heq => by cases hfirst.mp heq
      rw [List.map_cons, List.count_cons_of_ne hne, owners_cons_none]
      exact ih'
    | some b =>
      rw [List.map_cons, owners_cons_some]
      by_cases hb : b = a
      · subst hb
        rw [hfirst.mpr rfl, List.count_cons_self, List.count_cons_self, ih']
      · have hne : h' ≠ h := fun heq => hb (Option.some.inj (hfirst.mp heq))
        rw [List.count_cons_of_ne hne, List.count_cons_of_ne hb]
        exact ih'

/-- **The continuation of a suspended awaiter is in the queue once if it is queued, and
not at all otherwise.** -/
theorem Books.count_ready [DecidableEq α] [DecidableEq κ] (hs : Books setup s)
    (hphase : (s.awaiter a).phase = .suspended) (hc : (s.awaiter a).continuation = some h) :
    (s.ready.map Prod.fst).count h = if (s.awaiter a).queued then 1 else 0 := by
  have hin : s.suspendedIn h = some a := ((hs.fits a).suspendedIn_iff h).mpr ⟨hphase, hc⟩
  rw [count_map_fst (a := a) (fun entry hmem => ?_)]
  · cases hqueued : (s.awaiter a).queued with
    | true =>
      exact List.count_eq_one_of_mem hs.owners_nodup ((hs.fits a).mem_owners.mpr ⟨hphase, hqueued⟩)
    | false =>
      rw [List.count_eq_zero.mpr (fun hmem => ?_)]
      · simp
      · have hq := ((hs.fits a).mem_owners.mp hmem).2
        rw [hqueued] at hq
        cases hq
  · obtain ⟨h', owner⟩ := entry
    constructor
    · rintro rfl
      cases owner with
      | none => exact absurd (hin.symm.trans (hs.scheduled h' hmem)) (by simp)
      | some b => exact (hs.suspendedIn_of_entry hmem).symm.trans hin
    · rintro rfl
      have hc' := (hs.fits a).entry h' hmem
      exact Option.some.inj (hc'.symm.trans hc)

/-- **An error is returned exactly where the registration failed or the token was
stopped.** -/
theorem Books.awaitResult_ne_success (hs : Books setup s) (a : α) :
    s.awaitResult setup a ≠ .success
      ↔ (s.awaiter a).addFailed = true ∨ s.stopRequested (setup.token a) = true := by
  have haddError := (hs.fits a).ok.addError
  have hcancelled := (hs.fits a).cancelled
  unfold awaitResult
  by_cases herr : (s.awaiter a).addError = []
  · rw [if_neg (not_not.mpr herr)]
    have hfailed : ¬ (s.awaiter a).addFailed = true := fun hf => haddError.mpr hf herr
    by_cases hstop : s.stopRequested (setup.token a) = true
    · rw [if_pos (by simp [hstop])]
      exact ⟨fun _ => Or.inr hstop, fun _ heq => by cases heq⟩
    · have hnot : ¬ (s.awaiter a).cancelled = true := fun hc => hstop (hcancelled hc)
      rw [if_neg (by simp [hstop, hnot])]
      exact ⟨fun hne => absurd rfl hne, fun hor => absurd hor (not_or.mpr ⟨hfailed, hstop⟩)⟩
  · rw [if_pos herr]
    exact ⟨fun _ => Or.inl (haddError.mp herr), fun _ heq => by cases heq⟩

/-! ## The conditions -/

/-- **What holds between the events.** -/
structure Inv (setup : Setup α τ η) (s : Executor α τ κ) : Prop where
  books : Books setup s
  remembered : Remembered s

/-- **A careful event**: an awaiter in which a coroutine is suspended is not queued,
and a coroutine that is scheduled neither awaits nor is suspended. -/
def Careful (setup : Setup α τ η) (s : Executor α τ κ) : Event α τ κ → Prop
  | .coAwait a h _ => s.awaitReady setup a = false →
    (s.awaiter a).queued = false ∧ (h, none) ∉ s.ready
  | .schedule h => s.suspendedIn h = none
  | _ => True

/-- **Every awaiter is awaited at most once**, and a coroutine that is scheduled neither
awaits nor is suspended. -/
def AwaitedOnce (s : Executor α τ κ) : Event α τ κ → Prop
  | .coAwait a h _ => (s.awaiter a).phase = .idle ∧ (h, none) ∉ s.ready
  | .schedule h => s.suspendedIn h = none
  | _ => True

theorem AwaitedOnce.careful (hs : Books setup s) {event : Event α τ κ}
    (honce : AwaitedOnce s event) : Careful setup s event := by
  cases event with
  | coAwait a h add =>
    intro _
    have hnone := (hs.fits a).ok.idle honce.1
    exact ⟨((hs.fits a).ok.pristine hnone).2.1, honce.2⟩
  | schedule h => exact honce
  | _ => trivial

/-! ## The events -/

theorem Books.schedule (hs : Books setup s) (hrunning : s.suspendedIn h = none) :
    Books setup (s.push h none) where
  count := hs.count
  fits b := { hs.fits b with
    mem_owners := by
      show b ∈ owners (s.ready ++ [(h, none)]) ↔ _
      rw [owners_concat_none]
      exact (hs.fits b).mem_owners
    entry := fun h' hmem => by
      obtain hmem | hmem := List.mem_append.mp hmem
      · exact (hs.fits b).entry h' hmem
      · cases List.mem_singleton.mp hmem }
  owners_nodup := by
    show (owners (s.ready ++ [(h, none)])).Nodup
    rw [owners_concat_none]
    exact hs.owners_nodup
  scheduled h' hmem := by
    obtain hmem | hmem := List.mem_append.mp hmem
    · exact hs.scheduled h' hmem
    · cases List.mem_singleton.mp hmem
      exact hrunning
  list := hs.list
  draining := hs.draining

theorem Books.requestStop [DecidableEq τ] (hs : Books setup s) (t : τ) :
    Books setup (s.requestStop t) := by
  unfold Executor.requestStop
  split
  · exact hs
  · obtain ⟨l, hl⟩ := hs.list t
    have hflag : Books setup (s.setStop t { s.stop t with stopped := true }) :=
      hs.shrinkStop ⟨l, hl.setStopped true⟩ (fun _ hstate => hstate) rfl (fun _ => rfl)
    exact { hflag with
      fits := fun b => { hflag.fits b with }
      draining := fun t' ht => by
        cases ht
        show (Function.update s.stop t _ t).stopped = true
        rw [Function.update_self] }

variable [DecidableEq α]

theorem Books.enqueueAll (hs : Books setup s) (tokens : List α) :
    Books setup (s.enqueueAll tokens) := by
  unfold Executor.enqueueAll
  induction tokens generalizing s with
  | nil => exact hs
  | cons a tokens ih => exact ih (hs.enqueue a)

/-- **The loop over the triggers queues what `on_cancel` would**, if the awaiters have their
continuations. -/
theorem dispatch_eq {tokens : List α}
    (hcontinued : ∀ b ∈ tokens, (s.awaiter b).continuation ≠ none) :
    s.dispatch tokens = some (s.enqueueAll tokens) := by
  induction tokens generalizing s with
  | nil => rfl
  | cons b tokens ih =>
    have hfire : s.fire b = some (s.enqueue b) := by
      obtain ⟨k, hc⟩ := Option.ne_none_iff_exists'.mp (hcontinued b List.mem_cons_self)
      unfold fire enqueue
      rw [hc]
      split
      · rfl
      · rfl
    have hrest : ∀ c ∈ tokens, ((s.enqueue b).awaiter c).continuation ≠ none := by
      intro c hc
      rw [enqueue_awaiter]
      split
      · exact hcontinued b List.mem_cons_self
      · exact hcontinued c (List.mem_cons_of_mem b hc)
    show (s.fire b).bind _ = _
    rw [hfire, enqueueAll_cons]
    exact ih hrest

theorem Books.destroy [DecidableEq τ] (hs : Books setup s)
    (hphase : (s.awaiter a).phase ≠ .suspended) : Books setup (s.destroy setup a) := by
  unfold Executor.destroy
  cases htoken : setup.token a with
  | none => exact hs.setPhase hphase (by simp) (by simp)
  | some t =>
    obtain ⟨l, hl⟩ := hs.list t
    have hdestroy : Books setup (s.setStop t ((s.stop t).destroy a)) := by
      refine hs.shrinkStop ⟨_, hl.destroy a⟩ (fun b hb => ?_) ?_ ?_
      · exact (hl.state_iff b).mpr (List.mem_of_mem_erase (((hl.destroy a).state_iff b).mp hb))
      · unfold StopState.destroy
        split
        · rfl
        · rfl
      · unfold StopState.destroy
        split
        · exact id
        · exact id
    exact hdestroy.setPhase hphase (by simp) (by simp)

/-- A coroutine that goes on after its `co_await`, once the awaiter is deregistered. -/
def finish [DecidableEq κ] (s : Executor α τ κ) (a : α) (h : κ) (rest : List (κ × Option α))
    (result : AwaitResult) : Executor α τ κ :=
  { s with
    awaiter := Function.update s.awaiter a
      { s.awaiter a with
        phase := .resumed result
        resumptions := (s.awaiter a).resumptions + 1 }
    ready := rest
    resumed := s.resumed ++ [h]
    suspendedIn := Function.update s.suspendedIn h none }

theorem Books.finish [DecidableEq κ] (hs : Books setup s) {rest : List (κ × Option α)}
    (hready : s.ready = (h, some a) :: rest) (hunregistered : (s.awaiter a).registered = false)
    (result : AwaitResult) : Books setup (s.finish a h rest result) := by
  obtain ⟨hphase, hqueued, hc, hin⟩ := hs.front hready
  have howners : owners s.ready = a :: owners rest := by
    rw [hready]
    rfl
  have hmem : ∀ entry ∈ rest, entry ∈ s.ready := fun entry hentry => by
    rw [hready]
    exact List.mem_cons_of_mem _ hentry
  have hnodup := hs.owners_nodup
  rw [howners, List.nodup_cons] at hnodup
  exact { hs with
    count := hs.count.write rfl rfl rfl
    fits := forall_modify rfl
      { hs.fits a with
        ok := { (hs.fits a).ok with
          pristine := fun hnone => absurd (hc.symm.trans hnone) (by simp)
          idle := fun hidle => absurd hidle (by simp)
          registered := fun hr => absurd hr (by simp [hunregistered])
          spent := fun _ _ => hqueued
          unresumed := fun hsuspended => absurd hsuspended (by simp)
          once := by
            show (s.awaiter a).resumptions + 1 ≤ 1
            rw [(hs.fits a).ok.unresumed hphase] }
        suspendedIn_iff := fun h' => by
          refine (update_none_eq_some h' a).trans ?_
          rw [(hs.fits a).suspendedIn_iff h', hc]
          exact ⟨fun hand => absurd (Option.some.inj hand.2.2).symm hand.1,
            fun hand => by cases hand.1⟩
        mem_owners := by
          show a ∈ owners rest ↔ Phase.resumed result = .suspended ∧ _
          exact ⟨fun hin => absurd hin hnodup.1, fun hand => by cases hand.1⟩
        entry := fun h' hin => (hs.fits a).entry h' (hmem _ hin) }
      (fun b hb => { hs.fits b with
        suspendedIn_iff := fun h' => by
          refine (update_none_eq_some h' b).trans ?_
          rw [← (hs.fits b).suspendedIn_iff h']
          exact and_iff_right_of_imp (ne_of_suspendedIn hin hb)
        mem_owners := by
          show b ∈ owners rest ↔ _
          rw [← (hs.fits b).mem_owners, howners, List.mem_cons]
          exact ⟨Or.inr, fun hor => hor.resolve_left hb⟩
        entry := fun h' hin => (hs.fits b).entry h' (hmem _ hin) })
    owners_nodup := hnodup.2
    scheduled := fun h' hin => by
      show Function.update s.suspendedIn h none h' = none
      by_cases hh : h' = h
      · subst hh
        rw [Function.update_self]
      · rw [Function.update_of_ne hh]
        exact hs.scheduled h' (hmem _ hin) }

variable [DecidableEq η]

theorem deregister_ready (s : Executor α τ κ) (a : α) : (s.deregister setup a).ready = s.ready := by
  unfold deregister
  split
  · rfl
  · rfl

/-- **A turn of the loop of `request_stop`** is its end, or cancels an awaiter that was
suspended, with the token that is stopped. -/
theorem Books.turn_cases [DecidableEq τ] (hs : Books setup s) {t : τ}
    (hdraining : s.draining = some t) :
    s.turn setup t = { s with draining := none }
      ∨ ∃ cb, s.turn setup t = (s.setStop t ((s.stop t).unlink cb)).onCancel setup cb
        ∧ Books setup (s.setStop t ((s.stop t).unlink cb))
        ∧ (s.awaiter cb).continuation ≠ none
        ∧ (s.setStop t ((s.stop t).unlink cb)).stopRequested (setup.token cb) = true := by
  obtain ⟨l, hl⟩ := hs.list t
  unfold Executor.turn
  cases l with
  | nil =>
    rw [hl.unlinkHead_nil]
    exact Or.inl rfl
  | cons cb rest =>
    obtain ⟨hhead, hrest⟩ := hl.unlinkHead_cons
    have hstate := (hl.state_iff cb).mpr List.mem_cons_self
    obtain ⟨htoken, hfn, hcontinuation⟩ := (hs.fits cb).linked t hstate
    have hfn' : ((s.stop t).unlink cb).fn cb = some cb := hfn
    rw [hhead]
    dsimp only
    rw [hfn']
    refine Or.inr ⟨cb, rfl, ?_, hcontinuation, ?_⟩
    · refine hs.shrinkStop ⟨rest, hrest⟩ (fun b hb => ?_) rfl id
      have hmem := (hrest.state_iff b).mp hb
      exact (hl.state_iff b).mpr (List.mem_cons_of_mem _ hmem)
    · rw [htoken]
      show (Function.update s.stop t _ t).stopped = true
      rw [Function.update_self]
      exact hs.draining t hdraining

theorem Books.turn [DecidableEq τ] (hs : Books setup s) {t : τ} (hdraining : s.draining = some t) :
    Books setup (s.turn setup t) := by
  obtain hend | ⟨cb, hturn, hbooks, hcontinuation, hstop⟩ := hs.turn_cases hdraining
  · rw [hend]
    exact { hs with
      fits := fun b => { hs.fits b with }
      draining := fun _ hd => by cases hd }
  · rw [hturn]
    exact hbooks.onCancel hcontinuation hstop

variable [DecidableEq κ]

/-- Resuming a handle that was scheduled. -/
theorem Books.resume_scheduled (hs : Books setup s) {rest : List (κ × Option α)}
    (hready : s.ready = (h, none) :: rest) : Books setup (s.resumeFront setup h none rest) := by
  have hmem : ∀ entry ∈ rest, entry ∈ s.ready := fun entry hentry => by
    rw [hready]
    exact List.mem_cons_of_mem _ hentry
  have hrunning : s.suspendedIn h = none :=
    hs.scheduled h (by rw [hready]; exact List.mem_cons_self)
  have howners : owners rest = owners s.ready := by
    rw [hready]
    rfl
  have hrunning' : (s.popFront h rest).suspendedIn h = none := hrunning
  unfold Executor.resumeFront countResumption goOn
  dsimp only
  rw [hrunning']
  exact { hs with
    fits := fun b => { hs.fits b with
      mem_owners := by
        show b ∈ owners rest ↔ _
        rw [howners]
        exact (hs.fits b).mem_owners
      entry := fun h' hin => (hs.fits b).entry h' (hmem _ hin) }
    owners_nodup := by
      show (owners rest).Nodup
      rw [howners]
      exact hs.owners_nodup
    scheduled := fun h' hin => hs.scheduled h' (hmem _ hin) }

/-- **Resuming the continuation of an awaiter**: it is deregistered, and its coroutine
goes on. -/
theorem resumeFront_owner (hin : s.suspendedIn h = some a) (rest : List (κ × Option α)) :
    s.resumeFront setup h (some a) rest
      = (s.deregister setup a).finish a h rest (s.awaitResult setup a) := by
  have hresult : (((s.popFront h rest).countResumption (some a)).wake h).awaitResult setup a
      = s.awaitResult setup a :=
    awaitResult_congr (by simp [countResumption, wake, modify, popFront])
      (by simp [countResumption, wake, modify, popFront]) rfl
  have hin' : ((s.popFront h rest).countResumption (some a)).suspendedIn h = some a := hin
  unfold resumeFront goOn
  rw [hin']
  dsimp only
  unfold awaitResume
  rw [hresult]
  generalize s.awaitResult setup a = result
  unfold countResumption deregister finish
  cases hr : (s.awaiter a).registered with
  | false => simp [modify, wake, popFront, hr]
  | true => simp [modify, wake, popFront, hr]

/-- **Resuming the front of the queue keeps the books.** -/
theorem Books.resumeFront (hs : Books setup s) {owner : Option α} {rest : List (κ × Option α)}
    (hready : s.ready = (h, owner) :: rest) : Books setup (s.resumeFront setup h owner rest) := by
  cases owner with
  | none => exact hs.resume_scheduled hready
  | some a =>
    rw [resumeFront_owner (hs.front hready).2.2.2]
    refine (hs.deregister a).finish ?_ ?_ _
    · rw [deregister_ready]
      exact hready
    · rw [deregister_awaiter, if_pos rfl]

variable [DecidableEq τ]

theorem Books.coAwait (hs : Books setup s) {add : Option AddError}
    (hphase : (s.awaiter a).phase ≠ .suspended) (hrunning : s.suspendedIn h = none)
    (hcareful : Careful setup s (.coAwait a h add)) : Books setup (s.coAwait setup a h add) := by
  cases hready : s.awaitReady setup a with
  | true => exact hs.coAwait_ready hready hphase add
  | false =>
    obtain ⟨hqueued, hunscheduled⟩ := hcareful hready
    exact hs.coAwait_suspends hready hphase hqueued hrunning hunscheduled add

/-! ## Every run -/

/-- **Every careful event keeps the books.** -/
theorem Books.step (hs : Books setup s) {event : Event α τ κ} (hcareful : Careful setup s event)
    (hstep : s.step setup event = some s') : Books setup s' := by
  cases step_cases hstep with
  | turn hdraining => exact hs.turn hdraining
  | coAwait hphase hrunning => exact hs.coAwait hphase hrunning hcareful
  | trigger hadded => exact hs.enqueueAll _
  | requestStop => exact hs.requestStop _
  | resume hready => exact hs.resumeFront hready
  | schedule => exact hs.schedule hcareful
  | destroy hphase => exact hs.destroy hphase

theorem inv_step (hs : Inv setup s) {event : Event α τ κ} (hcareful : Careful setup s event)
    (hstep : s.step setup event = some s') : Inv setup s' :=
  ⟨hs.books.step hcareful hstep, hs.remembered.step hs.books.continued hstep⟩

theorem inv_of_reachable (hs : (machine setup).ReachableBy (Careful setup) s) : Inv setup s := by
  refine hs.invariant ?_ (fun s event s' _ hi hcareful hstep => inv_step hi hcareful hstep)
  exact ⟨books_new, fun a hphase => absurd hphase (by simp [machine, new, IoAwaiter.new])⟩

/-- **An awaiter that has just been resumed** is deregistered, and has an error exactly
where the registration failed or the token was stopped. -/
theorem resumed_step (hs : Inv setup s) {event : Event α τ κ}
    (hstep : s.step setup event = some s') {result : AwaitResult}
    (hchange : (s'.awaiter a).phase ≠ (s.awaiter a).phase)
    (hresumed : (s'.awaiter a).phase = .resumed result) :
    (s'.awaiter a).registered = false
      ∧ (result ≠ .success
        ↔ (s'.awaiter a).addFailed = true ∨ s'.stopRequested (setup.token a) = true) := by
  obtain ⟨w, hw, htouches⟩ := step_awaiter hstep a
  rw [hw] at hchange hresumed ⊢
  cases htouches with
  | resumed hevent hstop =>
    cases hresumed
    refine ⟨rfl, (hs.books.awaitResult_ne_success a).trans ?_⟩
    unfold stopRequested
    rw [hstop]
  | @suspended h add =>
    rw [suspended_phase] at hresumed
    cases hresumed
  | destroyed => cases hresumed
  | kept | counted | cancelled | queued => exact absurd rfl hchange

/-- **A registration fails in a `co_await` that the reactor refuses**, and at no other time. -/
theorem addFailed_step {event : Event α τ κ} (hstep : s.step setup event = some s') :
    (s'.awaiter a).addFailed = true ↔ (s.awaiter a).addFailed = true
      ∨ ∃ h err, event = .coAwait a h (some err) ∧ s.awaitReady setup a = false := by
  -- every event but such a `co_await`
  have hkept : (∀ h err, event = .coAwait a h (some err) → s.awaitReady setup a = true) →
      ((s.awaiter a).addFailed = true ↔ (s.awaiter a).addFailed = true
        ∨ ∃ h err, event = .coAwait a h (some err) ∧ s.awaitReady setup a = false) := by
    intro hevent
    refine ⟨Or.inl, fun hor => hor.resolve_right ?_⟩
    rintro ⟨h, err, heq, hready⟩
    cases (hevent h err heq).symm.trans hready
  obtain ⟨w, hw, htouches⟩ := step_awaiter hstep a
  rw [hw]
  cases htouches with
  | kept hevent => exact hkept (fun h err heq => absurd heq (hevent h _))
  | @suspended h add hready =>
    cases add with
    | some err => exact ⟨fun _ => .inr ⟨h, err, rfl, hready⟩, fun _ => rfl⟩
    | none => exact hkept nofun
  | resumed hevent => exact hkept (fun h err => hevent h _)
  | counted | cancelled | queued | destroyed => exact hkept nofun

/-! ## The accounting -/

theorem inv_of_awaitedOnce (hs : (machine setup).ReachableBy AwaitedOnce s) : Inv setup s := by
  refine hs.invariant (I := Inv setup) ?_ (fun s event s' _ hi honce hstep =>
    inv_step hi (AwaitedOnce.careful hi.books honce) hstep)
  exact inv_of_reachable Machine.ReachableBy.init

/-- **The executor's accounting.** In every run in which every awaiter is awaited at
most once, at all times:

* `m_pending_io` is the number of registered awaiters, so it never underflows;
* the continuation of a suspended awaiter is in `m_ready` exactly once if the awaiter is
  queued and not at all otherwise, and the awaiter is registered or queued;
* an entry pushed for an awaiter finds its coroutine suspended there, and is resumed at
  most once;
* an awaiter whose `await_resume` has just run is deregistered, and has returned an error
  exactly where the registration failed or its token was stopped by then; and a registration
  fails in a `co_await` whose token is not stopped and whose `add` is refused, and at no other
  time. -/
theorem accounting (setup : Setup α τ η) (s : Executor α τ κ)
    (hs : (machine setup).ReachableBy AwaitedOnce s) :
    (∃ registered : Finset α,
        (∀ a, a ∈ registered ↔ (s.awaiter a).registered = true) ∧ s.pendingIo = registered.card)
      ∧ (∀ a, (s.awaiter a).phase = .suspended → ∃ h, (s.awaiter a).continuation = some h
        ∧ (s.ready.map Prod.fst).count h = (if (s.awaiter a).queued then 1 else 0)
        ∧ ((s.awaiter a).registered = true ∨ (s.awaiter a).queued = true))
      ∧ (∀ h a, (h, some a) ∈ s.ready → s.suspendedIn h = some a)
      ∧ (∀ a, (s.awaiter a).resumptions ≤ 1)
      ∧ (∀ event s' a result, s.step setup event = some s' →
        (s'.awaiter a).phase ≠ (s.awaiter a).phase → (s'.awaiter a).phase = .resumed result →
          (s'.awaiter a).registered = false
            ∧ (result ≠ .success
              ↔ (s'.awaiter a).addFailed = true ∨ s'.stopRequested (setup.token a) = true))
      ∧ ∀ event s' a, s.step setup event = some s' →
        ((s'.awaiter a).addFailed = true ↔ (s.awaiter a).addFailed = true
          ∨ ∃ h err, event = .coAwait a h (some err) ∧ s.awaitReady setup a = false) := by
  have hi := inv_of_awaitedOnce hs
  refine ⟨hi.books.count, fun a hphase => ?_, fun h a => hi.books.suspendedIn_of_entry,
    fun a => (hi.books.fits a).ok.once, fun event s' a result hstep hchange hresumed =>
      resumed_step hi hstep hchange hresumed, fun event s' a => addFailed_step⟩
  obtain ⟨h, hc, -⟩ := hi.books.suspended hphase
  exact ⟨h, hc, hi.books.count_ready hphase hc, hi.remembered a hphase⟩

/-- Awaiters that are their own handles, all with one token. -/
def oneToken : Setup ℕ Unit ℕ := ⟨id, fun _ => some ()⟩

/-- What the reactor says where it refuses a handle. -/
def refusal : AddError := ⟨"epoll_ctl(ADD) failed: EPERM".toList, by decide⟩

/-- Three coroutines await, the last of which is refused. The reactor reports the first one
twice in a batch, the refused one is resumed, and then the stop is requested and cancels the
second. -/
def refusedAndStopped : List (Event ℕ Unit ℕ) :=
  [.coAwait 2 12 (some refusal), .coAwait 0 10 none, .coAwait 1 11 none, .trigger [0, 0],
    .resume, .requestStop (), .turn]

/-- After that run the first two are in the queue once each, and the third was resumed once,
with an error. -/
theorem accounting_refusedAndStopped :
    ∃ s : Executor ℕ Unit ℕ, (machine oneToken).ReachableBy AwaitedOnce s
      ∧ (machine oneToken).run new refusedAndStopped = some s
      ∧ (s.ready.map Prod.fst).count 10 = 1 ∧ (s.ready.map Prod.fst).count 11 = 1
      ∧ (s.awaiter 2).resumptions = 1 ∧ (s.awaiter 2).addFailed = true
      ∧ ∃ result, (s.awaiter 2).phase = .resumed result ∧ result ≠ .success := by
  have hrefused := Machine.ReachableBy.step (M := machine (κ := ℕ) oneToken)
    (C := AwaitedOnce) (a := .coAwait 2 12 (some refusal)) .init
    (by exact ⟨rfl, by simp [machine, new]⟩) rfl
  have hawait := Machine.ReachableBy.step (a := .coAwait 0 10 none) hrefused
    (by exact ⟨rfl, by decide⟩) rfl
  have hawait' := Machine.ReachableBy.step (a := .coAwait 1 11 none) hawait
    (by exact ⟨rfl, by decide⟩) rfl
  have htrigger := Machine.ReachableBy.step (a := .trigger [0, 0]) hawait' (by exact trivial) rfl
  have hresume := Machine.ReachableBy.step (a := .resume) htrigger (by exact trivial) rfl
  have hstop := Machine.ReachableBy.step (a := .requestStop ()) hresume (by exact trivial) rfl
  have hturn := Machine.ReachableBy.step (a := .turn) hstop (by exact trivial) rfl
  obtain ⟨-, -, -, -, -, hfails⟩ := accounting oneToken (new : Executor ℕ Unit ℕ) .init
  obtain ⟨-, -, -, -, hresumed, -⟩ := accounting oneToken _ htrigger
  obtain ⟨-, hsuspended, -⟩ := accounting oneToken _ hturn
  obtain ⟨h, hc, hcount, -⟩ := hsuspended 0 rfl
  cases hc
  obtain ⟨h', hc', hcount', -⟩ := hsuspended 1 rfl
  cases hc'
  have hfailed := (hfails (.coAwait 2 12 (some refusal)) _ 2 rfl).mpr
    (Or.inr ⟨12, refusal, rfl, rfl⟩)
  have herror := (hresumed .resume _ 2 _ rfl (by decide) rfl).2.mpr (Or.inl hfailed)
  exact ⟨_, hturn, rfl, hcount, hcount', rfl, hfailed, _, rfl, herror⟩

end Executor

import Mathlib.Data.Finset.Card
import SapCore.Executor

/-!
# What the executor's books say

Three flags of every awaiter, a counter and a queue have to agree after any order
of events. `Books` says how: the counter is the number of registered awaiters; an
awaiter is registered only while its coroutine is suspended in it; the queue holds
one entry for every suspended awaiter that is queued, with its continuation; an
awaiter that is no longer suspended stays queued for ever, which is why the node it
leaves in the list of its stop state does no harm.

The blocks the source repeats, deregistering and queueing, keep the books by
themselves; each event is put together from them. That no coroutine is forgotten
(`Remembered`: a suspended awaiter is registered or queued) holds between the
events only, since `on_cancel` deregisters before it queues.
-/

/-- **What holds of every awaiter by itself.** -/
structure IoAwaiter.Ok {κ : Type} (w : IoAwaiter κ) : Prop where
  /-- An awaiter without a continuation was never suspended. -/
  pristine : w.continuation = none →
    w.phase ≠ .suspended ∧ w.queued = false ∧ w.registered = false ∧ w.cancelled = false
      ∧ w.resumptions = 0 ∧ w.addError = []
  idle : w.phase = .idle → w.continuation = none
  registered : w.registered = true → w.phase = .suspended
  spent : w.continuation ≠ none → w.phase ≠ .suspended → w.queued = true
  unresumed : w.phase = .suspended → w.resumptions = 0
  once : w.resumptions ≤ 1
  addError : w.addError ≠ [] ↔ w.addFailed = true

theorem IoAwaiter.ok_new {κ : Type} : (IoAwaiter.new : IoAwaiter κ).Ok where
  pristine _ := ⟨by simp [new], rfl, rfl, rfl, rfl, rfl⟩
  idle _ := rfl
  registered hr := absurd hr (by simp [new])
  spent hc := absurd rfl hc
  unresumed _ := rfl
  once := Nat.zero_le _
  addError := by simp [new]

namespace Executor

variable {α τ κ η : Type}

/-- The awaiters for which there are entries in the ready queue. -/
def owners (ready : List (κ × Option α)) : List α := ready.filterMap Prod.snd

theorem mem_owners_iff {ready : List (κ × Option α)} {a : α} :
    a ∈ owners ready ↔ ∃ h, (h, some a) ∈ ready := by
  unfold owners
  rw [List.mem_filterMap]
  constructor
  · rintro ⟨⟨h, owner⟩, hmem, rfl⟩
    exact ⟨h, hmem⟩
  · rintro ⟨h, hmem⟩
    exact ⟨(h, some a), hmem, rfl⟩

@[simp] theorem owners_cons_some (h : κ) (a : α) (ready : List (κ × Option α)) :
    owners ((h, some a) :: ready) = a :: owners ready := rfl

@[simp] theorem owners_cons_none (h : κ) (ready : List (κ × Option α)) :
    owners ((h, none) :: ready) = owners ready := rfl

theorem owners_concat_some (ready : List (κ × Option α)) (h : κ) (a : α) :
    owners (ready ++ [(h, some a)]) = owners ready ++ [a] := by
  unfold owners
  rw [List.filterMap_append]
  rfl

theorem owners_concat_none (ready : List (κ × Option α)) (h : κ) :
    owners (ready ++ [(h, none)]) = owners ready := by
  unfold owners
  rw [List.filterMap_append]
  exact List.append_nil _

/-- **An awaiter and what the executor keeps of it agree**: the coroutine suspended
in it, its entry in the queue, its registration, its node. -/
structure Fits (setup : Setup α τ η) (s : Executor α τ κ) (a : α) (w : IoAwaiter κ) : Prop where
  ok : w.Ok
  suspendedIn_iff : ∀ h, s.suspendedIn h = some a ↔ w.phase = .suspended ∧ w.continuation = some h
  mem_owners : a ∈ owners s.ready ↔ w.phase = .suspended ∧ w.queued = true
  entry : ∀ h, (h, some a) ∈ s.ready → w.continuation = some h
  added : s.added a = true → w.registered = true
  cancelled : w.cancelled = true → s.stopRequested (setup.token a) = true
  linked : ∀ t, (s.stop t).state a = true →
    setup.token a = some t ∧ (s.stop t).fn a = some a ∧ w.continuation ≠ none

/-- **`m_pending_io` counts the registered awaiters.** -/
def Counted (s : Executor α τ κ) : Prop :=
  ∃ registered : Finset α,
    (∀ a, a ∈ registered ↔ (s.awaiter a).registered = true) ∧ s.pendingIo = registered.card

/-- **The books.** -/
structure Books (setup : Setup α τ η) (s : Executor α τ κ) : Prop where
  count : Counted s
  fits : ∀ a, Fits setup s a (s.awaiter a)
  owners_nodup : (owners s.ready).Nodup
  scheduled : ∀ h, (h, none) ∈ s.ready → s.suspendedIn h = none
  list : ∀ t, ∃ l, (s.stop t).Holds l
  draining : ∀ t, s.draining = some t → (s.stop t).stopped = true

/-- **No coroutine is forgotten**: a suspended awaiter is registered or queued. -/
def Remembered (s : Executor α τ κ) : Prop :=
  ∀ a, (s.awaiter a).phase = .suspended →
    (s.awaiter a).registered = true ∨ (s.awaiter a).queued = true

/-- A suspended awaiter has the handle of its coroutine. -/
def Continued (s : Executor α τ κ) : Prop :=
  ∀ a, (s.awaiter a).phase = .suspended → (s.awaiter a).continuation ≠ none

variable {setup : Setup α τ η} {s : Executor α τ κ} {a : α} {h : κ}

theorem counted_new : Counted (new : Executor α τ κ) := ⟨∅, by simp [new, IoAwaiter.new], rfl⟩

theorem books_new : Books setup (new : Executor α τ κ) where
  count := counted_new
  fits a := {
    ok := IoAwaiter.ok_new
    suspendedIn_iff := fun _ => by simp [new, IoAwaiter.new]
    mem_owners := by simp [new, IoAwaiter.new, owners]
    entry := fun _ hmem => absurd hmem List.not_mem_nil
    added := fun hadded => absurd hadded (by simp [new])
    cancelled := fun hc => absurd hc (by simp [new, IoAwaiter.new])
    linked := fun _ hstate => absurd hstate (by simp [new, StopState.new]) }
  owners_nodup := List.nodup_nil
  scheduled _ _ := rfl
  list _ := ⟨[], StopState.holds_new⟩
  draining _ hd := absurd hd (by simp [new])

/-- A suspended awaiter has the continuation of the coroutine suspended in it. -/
theorem Books.suspended (hs : Books setup s) (hphase : (s.awaiter a).phase = .suspended) :
    ∃ h, (s.awaiter a).continuation = some h ∧ s.suspendedIn h = some a := by
  cases hc : (s.awaiter a).continuation with
  | none => exact absurd hphase ((hs.fits a).ok.pristine hc).1
  | some h => exact ⟨h, rfl, ((hs.fits a).suspendedIn_iff h).mpr ⟨hphase, hc⟩⟩

theorem Books.continued (hs : Books setup s) : Continued s := fun a hphase hc =>
  ((hs.fits a).ok.pristine hc).1 hphase

/-- An awaiter that has a continuation and is not queued is suspended. -/
theorem Books.suspended_of_not_queued (hs : Books setup s)
    (hc : (s.awaiter a).continuation ≠ none) (hq : (s.awaiter a).queued = false) :
    (s.awaiter a).phase = .suspended := by
  by_contra hphase
  have hqueued := (hs.fits a).ok.spent hc hphase
  rw [hq] at hqueued
  cases hqueued

variable [DecidableEq α]

@[simp] theorem modify_awaiter_self (f : IoAwaiter κ → IoAwaiter κ) :
    (s.modify a f).awaiter a = f (s.awaiter a) :=
  Function.update_self _ _ _

@[simp] theorem suspend_awaiter_self [DecidableEq κ] :
    (s.suspend a h).awaiter a
      = { s.awaiter a with phase := .suspended, continuation := some h } :=
  Function.update_self _ _ _

@[simp] theorem register_awaiter_self :
    (s.register a).awaiter a = { s.awaiter a with registered := true } :=
  Function.update_self _ _ _

theorem modify_awaiter_of_ne {b : α} (hne : b ≠ a) (f : IoAwaiter κ → IoAwaiter κ) :
    (s.modify a f).awaiter b = s.awaiter b :=
  Function.update_of_ne hne _ _

/-- What is to be shown of every awaiter after a write to one of them. -/
theorem forall_modify {awaiter : α → IoAwaiter κ} {w : IoAwaiter κ}
    (hawaiter : awaiter = Function.update s.awaiter a w) {P : α → IoAwaiter κ → Prop}
    (hself : P a w) (hother : ∀ b, b ≠ a → P b (s.awaiter b)) : ∀ b, P b (awaiter b) := by
  intro b
  rw [hawaiter]
  by_cases hb : b = a
  · subst hb
    rw [Function.update_self]
    exact hself
  · rw [Function.update_of_ne hb]
    exact hother b hb

/-! ## Writing to one awaiter -/

variable {s' : Executor α τ κ} {w : IoAwaiter κ}

/-- The awaiters stay counted under a write that does not register. -/
theorem Counted.write (hs : Counted s) (hawaiter : s'.awaiter = Function.update s.awaiter a w)
    (hregistered : w.registered = (s.awaiter a).registered) (hpending : s'.pendingIo = s.pendingIo) :
    Counted s' := by
  obtain ⟨registered, hmem, hcard⟩ := hs
  refine ⟨registered, forall_modify (P := fun b w => b ∈ registered ↔ w.registered = true) hawaiter ?_
    (fun b _ => hmem b), hpending.trans hcard⟩
  rw [hregistered]
  exact hmem a

/-- One registered awaiter less. -/
theorem Counted.deregister [DecidableEq η] (hs : Counted s) (a : α) :
    Counted (s.deregister setup a) := by
  unfold Executor.deregister
  split
  · rename_i hregistered
    obtain ⟨registered, hmem, hcard⟩ := hs
    have ha : a ∈ registered := (hmem a).mpr hregistered
    refine ⟨registered.erase a, forall_modify
      (P := fun b w => b ∈ registered.erase a ↔ w.registered = true) rfl (by simp)
      (fun b hb => ?_), ?_⟩
    · rw [Finset.mem_erase]
      exact ⟨fun hand => (hmem b).mp hand.2, fun hr => ⟨hb, (hmem b).mpr hr⟩⟩
    · show s.pendingIo - 1 = _
      have hcard' := Finset.card_erase_add_one ha
      rw [hcard]
      omega
  · exact hs

/-- One registered awaiter more. -/
theorem Counted.register (hs : Counted s) (hregistered : (s.awaiter a).registered = false) :
    Counted (s.register a) := by
  obtain ⟨registered, hmem, hcard⟩ := hs
  have ha : a ∉ registered := fun hin => by
    have hr := (hmem a).mp hin
    rw [hregistered] at hr
    cases hr
  refine ⟨insert a registered, forall_modify
    (P := fun b w => b ∈ insert a registered ↔ w.registered = true) rfl (by simp)
    (fun b hb => ?_), ?_⟩
  · rw [Finset.mem_insert, ← hmem b]
    exact ⟨fun hor => hor.resolve_left hb, Or.inr⟩
  · show s.pendingIo + 1 = _
    rw [Finset.card_insert_of_notMem ha, hcard]
    rfl

theorem Books.setCancelled (hs : Books setup s) (hcontinuation : (s.awaiter a).continuation ≠ none)
    (hstop : s.stopRequested (setup.token a) = true) :
    Books setup (s.modify a (fun w => { w with cancelled := true })) :=
  { hs with
    count := hs.count.write rfl rfl rfl
    fits := forall_modify rfl
      { hs.fits a with
        ok := { (hs.fits a).ok with pristine := fun hc => absurd hc hcontinuation }
        cancelled := fun _ => hstop }
      (fun b _ => { hs.fits b with }) }

/-- An awaiter that is not suspended, and was awaited or destroyed now. -/
theorem Books.setPhase (hs : Books setup s) (hphase : (s.awaiter a).phase ≠ .suspended)
    {phase : Phase} (hsuspended : phase ≠ .suspended) (hidle : phase ≠ .idle) :
    Books setup (s.modify a (fun w => { w with phase := phase })) :=
  { hs with
    count := hs.count.write rfl rfl rfl
    fits := forall_modify rfl
      { hs.fits a with
        ok := { (hs.fits a).ok with
          pristine := fun hc => ⟨hsuspended, ((hs.fits a).ok.pristine hc).2⟩
          idle := fun heq => absurd heq hidle
          registered := fun hr => absurd ((hs.fits a).ok.registered hr) hphase
          spent := fun hc _ => (hs.fits a).ok.spent hc hphase
          unresumed := fun heq => absurd heq hsuspended }
        suspendedIn_iff := fun h' => by
          refine ((hs.fits a).suspendedIn_iff h').trans ?_
          simp [hphase, hsuspended]
        mem_owners := by
          refine (hs.fits a).mem_owners.trans ?_
          simp [hphase, hsuspended] }
      (fun b _ => { hs.fits b with }) }

/-- **Queueing an awaiter keeps the books**: an awaiter that is not queued is
suspended, or has no continuation. -/
theorem Books.enqueue (hs : Books setup s) (a : α) : Books setup (s.enqueue a) := by
  unfold Executor.enqueue
  split
  · exact hs
  · rename_i hqueued
    rw [Bool.not_eq_true] at hqueued
    split
    · rename_i h hc
      have hphase := hs.suspended_of_not_queued (by rw [hc]; simp) hqueued
      have hnot : a ∉ owners s.ready := fun hmem => by
        have hq := ((hs.fits a).mem_owners.mp hmem).2
        rw [hqueued] at hq
        cases hq
      have howners : owners (s.ready ++ [(h, some a)]) = owners s.ready ++ [a] :=
        owners_concat_some s.ready h a
      exact { hs with
        count := hs.count.write rfl rfl rfl
        fits := forall_modify rfl
          { hs.fits a with
            ok := { (hs.fits a).ok with
              pristine := fun hnone => absurd (hc.symm.trans hnone) (by simp)
              spent := fun _ _ => rfl }
            mem_owners := by
              show a ∈ owners (s.ready ++ [(h, some a)]) ↔ _
              rw [howners]
              simp [hphase]
            entry := fun h' hmem => by
              obtain hmem | hmem := List.mem_append.mp hmem
              · exact (hs.fits a).entry h' hmem
              · cases List.mem_singleton.mp hmem
                exact hc }
          (fun b hb => { hs.fits b with
            mem_owners := by
              show b ∈ owners (s.ready ++ [(h, some a)]) ↔ _
              rw [howners, ← (hs.fits b).mem_owners]
              simp [hb]
            entry := fun h' hmem => by
              obtain hmem | hmem := List.mem_append.mp hmem
              · exact (hs.fits b).entry h' hmem
              · cases List.mem_singleton.mp hmem
                exact absurd rfl hb })
        owners_nodup := by
          show (owners (s.ready ++ [(h, some a)])).Nodup
          rw [howners]
          exact hs.owners_nodup.append (List.nodup_singleton a) (List.disjoint_singleton.mpr hnot)
        scheduled := fun h' hmem => by
          obtain hmem | hmem := List.mem_append.mp hmem
          · exact hs.scheduled h' hmem
          · cases List.mem_singleton.mp hmem }
    · exact hs

/-- **Deregistering an awaiter keeps the books**, and takes the handle from the
reactor. -/
theorem Books.deregister [DecidableEq η] (hs : Books setup s) (a : α) :
    Books setup (s.deregister setup a) := by
  have hcount : Counted (s.deregister setup a) := hs.count.deregister a
  revert hcount
  unfold Executor.deregister
  split
  · intro hcount
    exact { hs with
      count := hcount
      fits := forall_modify rfl
        { hs.fits a with
          ok := { (hs.fits a).ok with
            pristine := fun hc => by
              obtain ⟨hphase, hqueued, -, hrest⟩ := (hs.fits a).ok.pristine hc
              exact ⟨hphase, hqueued, rfl, hrest⟩
            registered := fun hr => absurd hr (by simp) }
          added := fun hadded => absurd hadded (by simp) }
        (fun b _ => { hs.fits b with
          added := fun hadded => by
            refine (hs.fits b).added ?_
            by_contra hnot
            exact absurd hadded (by simp [hnot]) }) }
  · exact fun _ => hs

/-- Deregistering changes nothing else about the awaiters, and nothing about the
stop states. -/
theorem deregister_awaiter [DecidableEq η] (s : Executor α τ κ) (a b : α) :
    (s.deregister setup a).awaiter b
      = if b = a then { s.awaiter a with registered := false } else s.awaiter b := by
  unfold Executor.deregister
  split
  · show Function.update s.awaiter a _ b = _
    by_cases hb : b = a
    · subst hb
      rw [Function.update_self, if_pos rfl]
    · rw [Function.update_of_ne hb, if_neg hb]
  · rename_i hregistered
    rw [Bool.not_eq_true] at hregistered
    by_cases hb : b = a
    · subst hb
      rw [if_pos rfl, ← hregistered]
    · rw [if_neg hb]

@[simp] theorem deregister_stop [DecidableEq η] (s : Executor α τ κ) (a : α) :
    (s.deregister setup a).stop = s.stop := by
  unfold Executor.deregister
  split
  · rfl
  · rfl

/-- **`on_cancel` keeps the books**, called for an awaiter that was suspended and
whose token is stopped. -/
theorem Books.onCancel [DecidableEq η] (hs : Books setup s)
    (hcontinuation : (s.awaiter a).continuation ≠ none)
    (hstop : s.stopRequested (setup.token a) = true) : Books setup (s.onCancel setup a) := by
  unfold Executor.onCancel
  split
  · exact hs
  · exact ((hs.setCancelled hcontinuation hstop).deregister a).enqueue a

/-! ## Suspending -/

omit [DecidableEq α] in
/-- The coroutines that are suspended, with one that was running. -/
theorem update_some_eq_some [DecidableEq κ] {suspendedIn : κ → Option α}
    (hrunning : suspendedIn h = none) (h' : κ) (b : α) :
    Function.update suspendedIn h (some a) h' = some b
      ↔ (h' = h ∧ b = a) ∨ suspendedIn h' = some b := by
  by_cases hh : h' = h
  · subst hh
    simp [hrunning, eq_comm]
  · simp [hh]

omit [DecidableEq α] in
/-- The coroutines that are suspended, without one of them. -/
theorem update_none_eq_some [DecidableEq κ] {suspendedIn : κ → Option α} (h' : κ) (b : α) :
    Function.update suspendedIn h none h' = some b ↔ h' ≠ h ∧ suspendedIn h' = some b := by
  by_cases hh : h' = h
  · subst hh
    simp
  · simp [hh]

omit [DecidableEq α] in
/-- Coroutines suspended in different awaiters are different. -/
theorem ne_of_suspendedIn {suspendedIn : κ → Option α} {b : α} {h' : κ}
    (hin : suspendedIn h = some a) (hb : b ≠ a) (hin' : suspendedIn h' = some b) : h' ≠ h := by
  rintro rfl
  exact hb (Option.some.inj (hin'.symm.trans hin))

/-- **A coroutine that runs is suspended in an awaiter that has no continuation.** -/
theorem Books.suspend [DecidableEq κ] (hs : Books setup s) (hnone : (s.awaiter a).continuation = none)
    (hrunning : s.suspendedIn h = none) (hunscheduled : (h, none) ∉ s.ready) :
    Books setup (s.suspend a h) := by
  obtain ⟨hphase, hqueued, hregistered, hcancelled, hresumptions, haddError⟩ :=
    (hs.fits a).ok.pristine hnone
  exact { hs with
    count := hs.count.write rfl rfl rfl
    fits := forall_modify rfl
      { hs.fits a with
        ok := { (hs.fits a).ok with
          pristine := fun hc => absurd hc (by simp)
          idle := fun hidle => absurd hidle (by simp)
          registered := fun _ => rfl
          spent := fun _ hnot => absurd rfl hnot
          unresumed := fun _ => hresumptions }
        suspendedIn_iff := fun h' => by
          refine (update_some_eq_some hrunning h' a).trans ?_
          rw [(hs.fits a).suspendedIn_iff h']
          simp [hphase, eq_comm]
        mem_owners := by
          show a ∈ owners s.ready ↔ Phase.suspended = .suspended ∧ (s.awaiter a).queued = true
          rw [(hs.fits a).mem_owners, hqueued]
          simp
        entry := fun h' hmem => by
          have howner := (hs.fits a).mem_owners.mp (mem_owners_iff.mpr ⟨h', hmem⟩)
          exact absurd howner.1 hphase
        linked := fun t hstate => absurd hnone ((hs.fits a).linked t hstate).2.2 }
      (fun b hb => { hs.fits b with
        suspendedIn_iff := fun h' => by
          refine (update_some_eq_some hrunning h' b).trans ?_
          rw [(hs.fits b).suspendedIn_iff h']
          simp [hb] })
    scheduled := fun h' hmem => by
      have hh : h' ≠ h := fun heq => hunscheduled (heq ▸ hmem)
      show Function.update s.suspendedIn h (some a) h' = none
      rw [Function.update_of_ne hh]
      exact hs.scheduled h' hmem }

/-- The error of a registration that failed. -/
theorem Books.setAddError (hs : Books setup s) (hcontinuation : (s.awaiter a).continuation ≠ none)
    {text : List Char} (htext : text ≠ []) :
    Books setup (s.modify a (fun w => { w with addError := text, addFailed := true })) :=
  { hs with
    count := hs.count.write rfl rfl rfl
    fits := forall_modify rfl
      { hs.fits a with
        ok := { (hs.fits a).ok with
          pristine := fun hc => absurd hc hcontinuation
          addError := ⟨fun _ => rfl, fun _ => htext⟩ } }
      (fun b _ => { hs.fits b with }) }

/-- A registration that succeeded. -/
theorem Books.register (hs : Books setup s) (hphase : (s.awaiter a).phase = .suspended)
    (hregistered : (s.awaiter a).registered = false) :
    Books setup (s.register a) :=
  { hs with
    count := hs.count.register hregistered
    fits := forall_modify rfl
      { hs.fits a with
        ok := { (hs.fits a).ok with
          pristine := fun hc => absurd hphase ((hs.fits a).ok.pristine hc).1
          registered := fun _ => hphase }
        added := fun _ => rfl }
      (fun b hb => { hs.fits b with
        added := fun hadded => by
          change Function.update s.added a true b = true at hadded
          rw [Function.update_of_ne hb] at hadded
          exact (hs.fits b).added hadded }) }

/-! ## Writing to a stop state -/

variable [DecidableEq τ]

omit [DecidableEq α] in
/-- **A write to a stop state** whose nodes are still those of awaiters that were
suspended. -/
theorem Books.setStop (hs : Books setup s) {t : τ} {stop : StopState α α}
    (hholds : ∃ l, stop.Holds l)
    (hlinked : ∀ a, stop.state a = true →
      setup.token a = some t ∧ stop.fn a = some a ∧ (s.awaiter a).continuation ≠ none)
    (hstopped : (s.stop t).stopped = true → stop.stopped = true) :
    Books setup (s.setStop t stop) := by
  have hrequested : ∀ token, s.stopRequested token = true →
      (s.setStop t stop).stopRequested token = true := by
    intro token hr
    cases token with
    | none => exact hr
    | some t' =>
      show (Function.update s.stop t stop t').stopped = true
      by_cases ht : t' = t
      · subst ht
        rw [Function.update_self]
        exact hstopped hr
      · rw [Function.update_of_ne ht]
        exact hr
  exact {
    count := hs.count
    fits := fun a => { hs.fits a with
      cancelled := fun hc => hrequested _ ((hs.fits a).cancelled hc)
      linked := fun t' => by
        show (Function.update s.stop t stop t').state a = true → _
          ∧ (Function.update s.stop t stop t').fn a = some a ∧ _
        by_cases ht : t' = t
        · subst ht
          rw [Function.update_self]
          exact hlinked a
        · rw [Function.update_of_ne ht]
          exact (hs.fits a).linked t' }
    owners_nodup := hs.owners_nodup
    scheduled := hs.scheduled
    list := fun t' => by
      show ∃ l, (Function.update s.stop t stop t').Holds l
      by_cases ht : t' = t
      · subst ht
        rw [Function.update_self]
        exact hholds
      · rw [Function.update_of_ne ht]
        exact hs.list t'
    draining := fun t' hd => hrequested (some t') (hs.draining t' hd) }

omit [DecidableEq α] in
/-- **A stop state changed without linking anything**: what it holds is less, and it
is stopped if it was. -/
theorem Books.shrinkStop (hs : Books setup s) {t : τ} {stop : StopState α α}
    (hholds : ∃ l, stop.Holds l)
    (hstate : ∀ a, stop.state a = true → (s.stop t).state a = true)
    (hfn : stop.fn = (s.stop t).fn)
    (hstopped : (s.stop t).stopped = true → stop.stopped = true) :
    Books setup (s.setStop t stop) := by
  refine hs.setStop hholds (fun a hlinked => ?_) hstopped
  rw [hfn]
  exact (hs.fits a).linked t (hstate a hlinked)

/-- **Arming the node of an awaiter that is not linked.** -/
theorem Books.link (hs : Books setup s) {t : τ} (htoken : setup.token a = some t)
    (hcontinuation : (s.awaiter a).continuation ≠ none)
    (hunlinked : (s.stop t).state a = false) :
    Books setup (s.setStop t
      (StopState.link { s.stop t with fn := Function.update (s.stop t).fn a (some a) } a)) := by
  obtain ⟨l, hl⟩ := hs.list t
  have hnot : a ∉ l := fun hmem => by
    have hstate := (hl.state_iff a).mpr hmem
    rw [hunlinked] at hstate
    cases hstate
  refine hs.setStop ⟨a :: l, (hl.setFn _).link hnot⟩ (fun b => ?_) id
  show Function.update (s.stop t).state a true b = true → _
    ∧ Function.update (s.stop t).fn a (some a) b = some b ∧ _
  by_cases hb : b = a
  · subst hb
    exact fun _ => ⟨htoken, Function.update_self _ _ _, hcontinuation⟩
  · rw [Function.update_of_ne hb, Function.update_of_ne hb]
    exact (hs.fits b).linked t

/-! ## Awaiting -/

/-- Without a stop the node of a suspended awaiter is armed. -/
theorem armToken_of_not_stopped [DecidableEq η] {t : τ} (htoken : setup.token a = some t)
    (hstopped : (s.stop t).stopped = false) :
    s.armToken setup a = s.setStop t
      (StopState.link { s.stop t with fn := Function.update (s.stop t).fn a (some a) } a) := by
  unfold armToken StopState.arm
  simp [htoken, hstopped]

theorem Books.armToken [DecidableEq η] (hs : Books setup s)
    (hstop : s.stopRequested (setup.token a) = false)
    (hcontinuation : (s.awaiter a).continuation ≠ none)
    (hunlinked : ∀ t, (s.stop t).state a = false) : Books setup (s.armToken setup a) := by
  cases htoken : setup.token a with
  | none =>
    unfold Executor.armToken
    rw [htoken]
    exact hs
  | some t =>
    rw [htoken] at hstop
    rw [armToken_of_not_stopped htoken hstop]
    exact hs.link htoken hcontinuation (hunlinked t)

theorem truncate_ne_nil (err : AddError) : truncate err ≠ [] := by
  obtain ⟨text, hne⟩ := err
  cases text with
  | nil => exact absurd rfl hne
  | cons c text => simp [truncate]

omit [DecidableEq τ] in
/-- **An awaiter whose registration is refused is queued at once.** -/
theorem refuse_eq_enqueue (hqueued : (s.awaiter a).queued = false)
    (hcontinuation : (s.awaiter a).continuation = some h) (err : AddError) :
    s.refuse a h err
      = (s.modify a (fun w => { w with addError := truncate err, addFailed := true })).enqueue a := by
  unfold refuse enqueue
  simp [modify, hqueued, hcontinuation]

/-- **A `co_await` that suspends keeps the books**, if the awaiter was not queued
before. -/
theorem Books.coAwait_suspends [DecidableEq κ] [DecidableEq η] (hs : Books setup s)
    (hready : s.awaitReady setup a = false) (hphase : (s.awaiter a).phase ≠ .suspended)
    (hqueued : (s.awaiter a).queued = false) (hrunning : s.suspendedIn h = none)
    (hunscheduled : (h, none) ∉ s.ready) (add : Option AddError) :
    Books setup (s.coAwait setup a h add) := by
  have hnone : (s.awaiter a).continuation = none := by
    by_contra hc
    exact hphase (hs.suspended_of_not_queued hc hqueued)
  have hsuspended := hs.suspend hnone hrunning hunscheduled
  unfold Executor.coAwait awaitSuspend
  rw [if_neg (by simp [hready])]
  cases add with
  | some err =>
    dsimp only
    rw [refuse_eq_enqueue (by simpa using hqueued) (by simp)]
    exact (hsuspended.setAddError (by simp) (truncate_ne_nil err)).enqueue a
  | none =>
    obtain ⟨-, -, hunregistered, -⟩ := (hs.fits a).ok.pristine hnone
    have hregistered : Books setup ((s.suspend a h).register a) :=
      hsuspended.register (by simp) (by simpa using hunregistered)
    refine hregistered.armToken hready (by simp) (fun t => ?_)
    -- an awaiter without a continuation is not linked
    cases hstate : (s.stop t).state a with
    | false => exact hstate
    | true => exact absurd hnone ((hs.fits a).linked t hstate).2.2

/-- A `co_await` that does not suspend keeps the books. -/
theorem Books.coAwait_ready [DecidableEq κ] [DecidableEq η] (hs : Books setup s)
    (hready : s.awaitReady setup a = true) (hphase : (s.awaiter a).phase ≠ .suspended)
    (add : Option AddError) : Books setup (s.coAwait setup a h add) := by
  have hunregistered : ¬ (s.awaiter a).registered = true := fun hr =>
    hphase ((hs.fits a).ok.registered hr)
  unfold Executor.coAwait awaitResume Executor.deregister
  rw [if_pos hready, if_neg hunregistered]
  exact hs.setPhase hphase (by simp) (by simp)

end Executor

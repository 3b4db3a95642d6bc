import SapCore.IocpDrain

/-!
# Registered handles on the completion port, and their polls

A poll is answered once, so a handle is heard of again only if it is polled again. The backend
polls a handle where it is added, and nowhere else: `wait` takes the completion, clears `pending`
and reports the events, and the handle stays registered with no poll outstanding.

What does hold is told apart here. The drain loop of `add` and the other calls leave every
registered handle armed – a poll in flight, or its completion in the port – and so does a `wait`
that takes no completion of a registered handle. And if `add` does not give up its loop,
`pending` says of every handle whether a poll of it is outstanding, and there is never more than
one (`Single`); so the completion of a registered handle is reported when `wait` takes it, and
that is the last one. The condition is then exact, for all handles together and for each of
them (`armed_iff_spares`).
-/

namespace IocpReactor

variable {η : Type} [DecidableEq η] {r : IocpReactor η} {h k : η}

/-! ## Outstanding polls -/

/-- The polls of a handle that are in flight, and those whose completion is in the port. -/
def outstanding (r : IocpReactor η) (h : η) : ℕ :=
  r.inFlight.count h + r.queue.count (.completion h)

theorem outstanding_pos :
    0 < r.outstanding h ↔ h ∈ r.inFlight ∨ .completion h ∈ r.queue := by
  rw [outstanding, Nat.add_pos_iff_pos_or_pos, List.count_pos_iff, List.count_pos_iff]

theorem outstanding_submitPoll (r : IocpReactor η) (h k : η) (a : AddOutcome) :
    (r.submitPoll h a).2.outstanding k
      = r.outstanding k + if (r.submitPoll h a).1 = none ∧ k = h then 1 else 0 := by
  unfold submitPoll
  dsimp only
  split
  · simp only [outstanding, List.count_append, true_and]
    by_cases hkh : k = h
    · subst hkh
      rw [if_pos rfl, List.count_singleton_self]
      exact Nat.add_right_comm _ _ _
    · rw [if_neg hkh, List.count_singleton, if_neg (by simpa using Ne.symm hkh)]
      rfl
  · rw [if_neg (fun hok => nomatch hok.1)]
    rfl

theorem outstanding_register (r : IocpReactor η) (h k : η) (interest : EventFlags)
    (token : UInt64) (a : AddOutcome) :
    (r.register h interest token a).2.outstanding k
      = r.outstanding k + if (r.register h interest token a).1 = none ∧ k = h then 1 else 0 := by
  unfold register
  split
  · rw [if_neg (fun hok => nomatch hok.1), Nat.add_zero]
  · rename_i base _
    split
    · rw [if_neg (fun hok => nomatch hok.1), Nat.add_zero]
    · have hsubmit := outstanding_submitPoll
        (r.emplace h ⟨0, 0, 0, 0, token, base, interest, true, false⟩) h k a
      split
      · rename_i heq
        rwa [heq] at hsubmit
      · rename_i heq
        rw [heq] at hsubmit
        exact hsubmit

theorem outstanding_reRegister (r : IocpReactor η) (h k : η) (interest : EventFlags)
    (token : UInt64) (a : AddOutcome) :
    (r.reRegister h interest token a).2.outstanding k
      = r.outstanding k
        + if (r.reRegister h interest token a).1 = none ∧ k = h then 1 else 0 := by
  unfold reRegister
  split
  · rw [if_neg (fun hok => nomatch hok.1), Nat.add_zero]
  · dsimp only
    split
    · rw [if_neg (fun hok => nomatch hok.1)]
      rfl
    · exact outstanding_submitPoll _ h k a

/-- The kernel moves a poll from those in flight to the port. -/
theorem outstanding_complete (hmem : h ∈ r.inFlight) (status numberOfHandles fired : UInt32) :
    (r.complete h status numberOfHandles fired).outstanding = r.outstanding := by
  funext k
  simp only [outstanding, complete, List.count_append]
  by_cases hkh : k = h
  · subst hkh
    have hpos := List.count_pos_iff.mpr hmem
    rw [List.count_erase_self, List.count_singleton_self]
    omega
  · have hne : Packet.completion k ≠ .completion h := fun heq => hkh (Packet.completion.inj heq)
    rw [List.count_erase_of_ne hkh, List.count_singleton, if_neg (by simpa using hne.symm)]
    rfl

theorem registered_complete (r : IocpReactor η) (h : η) (status numberOfHandles fired : UInt32) :
    (r.complete h status numberOfHandles fired).registered = r.registered :=
  registered_modifyContext_eq r h (f := fun c => { c with
    status := status, numberOfHandles := numberOfHandles, fired := fired }) (fun _ => rfl)

theorem outstanding_wake (r : IocpReactor η) : r.wake.outstanding = r.outstanding := by
  funext k
  simp only [outstanding, wake, List.count_append]
  rfl

theorem inFlight_drain (r : IocpReactor η) (h : η) (n : ℕ) :
    (r.drain h n).inFlight = r.inFlight := by
  refine List.foldlRecOn (motive := fun r' : IocpReactor η => r'.inFlight = r.inFlight) _ _ rfl ?_
  intro r' hr' p _
  obtain ⟨heq, -⟩ | ⟨c, ctx, -, -, ⟨-, heq⟩ | ⟨-, heq⟩⟩ := drainEntry_cases h r' p
  all_goals rwa [heq]

/-- What `wait` leaves in the port. -/
theorem queue_wait (r : IocpReactor η) (n : ℕ) :
    (r.wait n).1.queue = r.queue.drop n ∧ (r.wait n).1.inFlight = r.inFlight := by
  refine List.foldlRecOn (motive := fun acc : IocpReactor η × List (η × Trigger) =>
    acc.1.queue = r.queue.drop n ∧ acc.1.inFlight = r.inFlight) _ _ ⟨rfl, rfl⟩ ?_
  intro acc hacc p _
  obtain ⟨heq, -⟩ | ⟨c, ctx, ts, -, -, -, heq, -⟩ := waitEntry_cases acc p
  all_goals rwa [heq]

/-! ## One poll at a time -/

/-- `pending` of the context of a handle, if there is one. -/
def polling (r : IocpReactor η) (h : η) : Bool :=
  ((r.contexts h).map AfdPollContext.pending).getD false

/-- **`pending` says whether a poll is outstanding**, and there is at most one; some packets have
been taken out of the port and not been processed yet. -/
def Single (r : IocpReactor η) (ps : List (Packet η)) : Prop :=
  ∀ k, r.outstanding k + ps.count (.completion k) = (r.polling k).toNat

theorem polling_modifyContext (r : IocpReactor η) (h : η) (f : AfdPollContext → AfdPollContext)
    (hf : ∀ ctx, (f ctx).pending = ctx.pending) : (r.modifyContext h f).polling = r.polling := by
  funext k
  rw [polling, polling, pending_modifyContext r h k f hf]

theorem polling_setPending (hctx : (r.contexts h).isSome = true) (b : Bool) :
    (r.setPending h b).polling = Function.update r.polling h b := by
  obtain ⟨ctx, hctx⟩ := Option.isSome_iff_exists.mp hctx
  funext k
  by_cases hkh : k = h
  · subst hkh
    simp only [polling, setPending, modifyContext, Function.update_self, hctx, Option.map_some,
      Option.getD_some]
  · simp only [polling, setPending, modifyContext, Function.update_of_ne hkh]

variable {ps : List (Packet η)} {c : η}

theorem Single.wake (hs : r.Single (.wake :: ps)) : r.Single ps := fun k => by
  have hk := hs k
  rwa [List.count_cons_of_ne (by simp)] at hk

theorem Single.polling (hs : r.Single (.completion c :: ps)) : r.polling c = true := by
  have hc := hs c
  rw [List.count_cons_self] at hc
  cases hpolling : r.polling c with
  | false =>
    rw [hpolling] at hc
    exact absurd hc (Nat.succ_ne_zero _)
  | true => rfl

/-- A completion is processed: its poll is not pending any more. -/
theorem Single.processed (hs : r.Single (.completion c :: ps))
    (hctx : (r.contexts c).isSome = true) : (r.setPending c false).Single ps := by
  intro k
  have hk := hs k
  have hsame : (r.setPending c false).outstanding k = r.outstanding k := rfl
  rw [polling_setPending hctx, hsame]
  by_cases hkc : k = c
  · subst hkc
    rw [hs.polling, List.count_cons_self, Bool.toNat_true] at hk
    rw [Function.update_self, Bool.toNat_false]
    omega
  · rw [List.count_cons_of_ne (fun heq => hkc (Packet.completion.inj heq).symm)] at hk
    rwa [Function.update_of_ne hkc]

theorem Single.taken (hs : r.Single []) (n : ℕ) :
    Single { r with queue := r.queue.drop n } (r.queue.take n) := by
  intro k
  refine Eq.trans ?_ (hs k)
  have hsplit := r.count_take_add_count_drop n (.completion k)
  simp only [outstanding, List.count_nil]
  omega

/-- A packet that is processed is of a handle that has a context. -/
theorem Single.isSome_contexts (hs : r.Single (.completion c :: ps)) :
    (r.contexts c).isSome = true := by
  have hpolling := hs.polling
  unfold IocpReactor.polling at hpolling
  cases hctx : r.contexts c with
  | none =>
    rw [hctx] at hpolling
    cases hpolling
  | some ctx => rfl

theorem Single.drainEntry {p : Packet η} (hs : r.Single (p :: ps)) (h : η) :
    (drainEntry h r p).Single ps := by
  obtain ⟨heq, hnone⟩ | ⟨c, ctx, rfl, hctx, ⟨-, heq⟩ | ⟨-, heq⟩⟩ := drainEntry_cases h r p
  · rw [heq]
    cases p with
    | wake => exact hs.wake
    | completion c =>
      have hknown := hs.isSome_contexts
      rw [hnone c rfl] at hknown
      cases hknown
  · rw [heq]
    exact hs.processed hs.isSome_contexts
  · -- the packet goes to the end of the queue
    rw [heq]
    intro k
    refine Eq.trans ?_ (hs k)
    simp only [outstanding, List.count_append, List.count_cons, List.count_nil]
    omega

theorem Single.waitEntry {p : Packet η} {acc : IocpReactor η × List (η × Trigger)}
    (hs : acc.1.Single (p :: ps)) : (waitEntry acc p).1.Single ps := by
  obtain ⟨heq, hoff⟩ | ⟨c, ctx, ts, rfl, -, -, heq, -⟩ := waitEntry_cases acc p
  · rw [heq]
    cases p with
    | wake => exact hs.wake
    | completion c =>
      obtain ⟨ctx, hctx⟩ := Option.isSome_iff_exists.mp hs.isSome_contexts
      have hpolling := hs.polling
      rw [IocpReactor.polling, hctx, Option.map_some, Option.getD_some, hoff c ctx rfl hctx]
        at hpolling
      cases hpolling
  · rw [heq]
    exact hs.processed hs.isSome_contexts

theorem Single.drain (hs : r.Single []) (h : η) (n : ℕ) : (r.drain h n).Single [] := by
  have hfold : ∀ (ps : List (Packet η)) (r : IocpReactor η), r.Single ps →
      (ps.foldl (IocpReactor.drainEntry h) r).Single [] := by
    intro ps
    induction ps with
    | nil => exact fun r hr => hr
    | cons p ps ih => exact fun r hr => ih _ (hr.drainEntry h)
  exact hfold _ _ (hs.taken n)

theorem Single.wait (hs : r.Single []) (n : ℕ) : (r.wait n).1.Single [] := by
  have hfold : ∀ (ps : List (Packet η)) (acc : IocpReactor η × List (η × Trigger)),
      acc.1.Single ps → (ps.foldl IocpReactor.waitEntry acc).1.Single [] := by
    intro ps
    induction ps with
    | nil => exact fun acc hacc => hacc
    | cons p ps ih => exact fun acc hacc => ih _ hacc.waitEntry
  exact hfold _ _ (hs.taken n)

theorem polling_submitPoll (hctx : (r.contexts h).isSome = true) (a : AddOutcome) :
    (r.submitPoll h a).2.polling
      = if (r.submitPoll h a).1 = none then Function.update r.polling h true else r.polling := by
  have hfirst : (r.modifyContext h (fun c => { c with
      status := 0, polled := toAfd c.interest })).polling = r.polling :=
    polling_modifyContext r h _ (fun _ => rfl)
  unfold submitPoll
  dsimp only
  split
  · rw [if_pos rfl, ← hfirst]
    refine polling_setPending ?_ true
    exact (isSome_modifyContext _ _ _ _).trans hctx
  · rw [if_neg (fun hok => nomatch hok)]
    exact hfirst

/-- A handle is polled that was not. -/
theorem Single.submitPoll (hs : r.Single []) (hctx : (r.contexts h).isSome = true)
    (hoff : r.polling h = false) (a : AddOutcome) : (r.submitPoll h a).2.Single [] := by
  intro k
  have hk : r.outstanding k = (r.polling k).toNat := hs k
  rw [outstanding_submitPoll, polling_submitPoll hctx, hk, List.count_nil, Nat.add_zero]
  by_cases hok : (r.submitPoll h a).1 = none
  · rw [if_pos hok]
    by_cases hkh : k = h
    · rw [if_pos ⟨hok, hkh⟩, hkh, hoff, Function.update_self]
      rfl
    · rw [if_neg (fun hboth => hkh hboth.2), Function.update_of_ne hkh, Nat.add_zero]
  · rw [if_neg hok, if_neg (fun hboth => hok hboth.1), Nat.add_zero]

/-- What keeps the polls and the `pending` flags keeps them in step. -/
theorem Single.congr {r' : IocpReactor η} (hs : r.Single []) (hpolling : r'.polling = r.polling)
    (houtstanding : r'.outstanding = r.outstanding) : r'.Single [] := by
  intro k
  rw [hpolling, houtstanding]
  exact hs k

theorem Single.modifyContext (hs : r.Single []) (h : η) {f : AfdPollContext → AfdPollContext}
    (hf : ∀ ctx, (f ctx).pending = ctx.pending) : (r.modifyContext h f).Single [] :=
  hs.congr (polling_modifyContext r h f hf) rfl

theorem Single.register (hs : r.Single []) (hctx : r.contexts h = none) (interest : EventFlags)
    (token : UInt64) (a : AddOutcome) : (r.register h interest token a).2.Single [] := by
  have hoff : r.polling h = false := by
    rw [IocpReactor.polling, hctx]
    rfl
  unfold IocpReactor.register
  split
  · exact hs
  · rename_i base _
    split
    · exact hs
    · -- the new context is not pending
      have hnew : (r.emplace h ⟨0, 0, 0, 0, token, base, interest, true, false⟩).polling
          = r.polling := by
        funext k
        by_cases hkh : k = h
        · rw [hkh, hoff]
          simp only [IocpReactor.polling, emplace, Function.update_self, Option.map_some,
            Option.getD_some]
        · simp only [IocpReactor.polling, emplace, Function.update_of_ne hkh]
      have hknown : ((r.emplace h ⟨0, 0, 0, 0, token, base, interest, true, false⟩).contexts
          h).isSome = true := by
        simp only [emplace, Function.update_self, Option.isSome_some]
      have hsubmit := (hs.congr hnew rfl).submitPoll hknown ((congrFun hnew h).trans hoff) a
      split
      · rename_i heq
        rwa [heq] at hsubmit
      · rename_i heq
        rw [heq] at hsubmit
        exact hsubmit.modifyContext h (fun _ => rfl)

theorem Single.reRegister (hs : r.Single []) (hctx : (r.contexts h).isSome = true)
    (hoff : r.polling h = false) (interest : EventFlags) (token : UInt64) (a : AddOutcome) :
    (r.reRegister h interest token a).2.Single [] := by
  unfold IocpReactor.reRegister
  split
  · exact hs
  · rename_i base _
    dsimp only
    have hbase := hs.modifyContext h (f := fun c => { c with baseHandle := base }) (fun _ => rfl)
    split
    · exact hbase
    · have hactive := hbase.modifyContext h (f := fun c => { c with
        interest := interest, userToken := token, active := true }) (fun _ => rfl)
      refine hactive.submitPoll ?_ ?_ a
      · exact ((isSome_modifyContext _ _ _ _).trans (isSome_modifyContext _ _ _ _)).trans hctx
      · refine (congrFun (polling_modifyContext _ _ _ ?_) h).trans
          ((congrFun (polling_modifyContext r h _ ?_) h).trans hoff)
        · exact fun _ => rfl
        · exact fun _ => rfl

/-! ## What `wait` reports -/

/-- Triggers are only added. -/
theorem mem_waitEntry (acc : IocpReactor η × List (η × Trigger)) (p : Packet η)
    {t : η × Trigger} (ht : t ∈ acc.2) : t ∈ (waitEntry acc p).2 := by
  obtain ⟨heq, -⟩ | ⟨c, ctx, ts, -, -, -, heq, -⟩ := waitEntry_cases acc p
  · rwa [heq]
  · rw [heq]
    exact List.mem_append_left ts ht

/-- The packets of others leave the context of a handle. -/
theorem contexts_waitEntry (acc : IocpReactor η × List (η × Trigger)) {p : Packet η}
    (hp : p ≠ .completion h) : (waitEntry acc p).1.contexts h = acc.1.contexts h := by
  obtain ⟨heq, -⟩ | ⟨c, ctx, ts, rfl, -, -, heq, -⟩ := waitEntry_cases acc p
  · rw [heq]
  · rw [heq]
    exact Function.update_of_ne (fun hhc => hp (congrArg _ hhc.symm)) _ _

/-- **`wait` reports a handle** if it takes its completion while its poll is pending, and this was
not cancelled. -/
theorem wait_reports {ctx : AfdPollContext} (hctx : r.contexts h = some ctx)
    (hactive : ctx.active = true) (hpending : ctx.pending = true)
    (hstatus : ctx.status ≠ statusCancelled) {n : ℕ} (hmem : .completion h ∈ r.queue.take n) :
    ∃ t ∈ (r.wait n).2, t.1 = h ∧ t.2.userToken = ctx.userToken := by
  have hadded : ∀ (ps : List (Packet η)) (acc : IocpReactor η × List (η × Trigger)) (t),
      t ∈ acc.2 → t ∈ (ps.foldl waitEntry acc).2 := fun ps acc t ht =>
    List.foldlRecOn (motive := fun acc : IocpReactor η × List (η × Trigger) => t ∈ acc.2) _ _ ht
      (fun acc ht p _ => mem_waitEntry acc p ht)
  -- up to the completion the context is as it was
  have hfold : ∀ (ps : List (Packet η)) (acc : IocpReactor η × List (η × Trigger)),
      .completion h ∈ ps → acc.1.contexts h = some ctx →
      ∃ t ∈ (ps.foldl waitEntry acc).2, t.1 = h ∧ t.2.userToken = ctx.userToken := by
    intro ps
    induction ps with
    | nil => exact fun acc hmem _ => absurd hmem List.not_mem_nil
    | cons p ps ih =>
      intro acc hmem hctx
      by_cases hp : p = .completion h
      · subst hp
        obtain ⟨-, hoff⟩ | ⟨c, ctx', ts, hc, hctx', -, heq, hts, hreports⟩ :=
          waitEntry_cases acc (.completion h)
        · cases (hoff h ctx rfl hctx).symm.trans hpending
        · cases hc
          cases hctx.symm.trans hctx'
          obtain ⟨t, ht⟩ := List.exists_mem_of_ne_nil ts (hreports hactive hstatus)
          refine ⟨t, hadded ps _ t ?_, (hts t ht).1, (hts t ht).2.2⟩
          rw [heq]
          exact List.mem_append_right _ ht
      · have hrest := (List.mem_cons.mp hmem).resolve_left (Ne.symm hp)
        exact ih _ hrest ((contexts_waitEntry acc hp).trans hctx)
  exact hfold _ _ hmem hctx

end IocpReactor

namespace Iocp

open IocpReactor

variable {η : Type} [DecidableEq η] {s s' : Iocp η} {label : Label η} {r' : IocpReactor η}
  {call' : Option (ReRegistration η)}

/-! ## Registered handles stay armed -/

/-- **Every registered handle is armed**: a poll of it is in flight, or its completion is in the
port. -/
def Armed (r : IocpReactor η) : Prop :=
  ∀ h, (r.registered h).isSome = true → h ∈ r.inFlight ∨ .completion h ∈ r.queue

/-- A handle that is being re-registered has a context, which is not active. -/
def Resting (r : IocpReactor η) (call : Option (ReRegistration η)) : Prop :=
  ∀ c, call = some c → (r.contexts c.handle).isSome = true ∧ r.registered c.handle = none

omit [DecidableEq η] in
theorem armed_create : Armed (create : IocpReactor η) := fun _ hh => Bool.noConfusion hh

omit [DecidableEq η] in
theorem resting_new : Resting (new : Iocp η).reactor (new : Iocp η).call :=
  fun _ hc => (nomatch hc)

/-- The poll of an `add` that re-registers a handle is not refused. -/
def Granted : Label η → Prop
  | .drainFails k => k.base ≠ none ∧ k.association ≠ .failed → k.submitted = true
  | .finish k => k.base ≠ none ∧ k.association ≠ .failed → k.submitted = true
  | _ => True

/-- A step is a `wait` that takes a completion of the handle out of the port. -/
def dequeues (s : Iocp η) (h : η) : Label η → Bool
  | .wait _ n => decide (.completion h ∈ s.reactor.queue.take n)
  | _ => false

/-- **The condition on a step**: no `wait` takes a completion of a registered handle out of the
port. -/
def Spares (s : Iocp η) (label : Label η) : Prop :=
  ∀ h, (s.reactor.registered h).isSome = true → s.dequeues h label = false

/-- **The handles that were heard of**: which of the registered handles have had a completion
taken out of the port by a `wait`, since they were registered. -/
def heardAfter (s : Iocp η) (label : Label η) (heard : η → Bool) : η → Bool :=
  fun h => (s.reactor.registered h).isSome && (heard h || s.dequeues h label)

/-- The reactor, with a record of the handles that were heard of. -/
def listening : Machine (Iocp η × (η → Bool)) (Label η) :=
  machine.recording (fun s label _ heard => s.heardAfter label heard) (fun _ => false)

theorem Resting.effect (hs : Resting s.reactor s.call) (heffect : Effect s label r' call') :
    Resting r' call' := by
  cases heffect with
  | answered | registered | removed | waited | finished => exact fun c hc => nomatch hc
  | entered hidle hctx hinactive =>
    intro c hc
    cases hc
    refine ⟨hctx ▸ rfl, ?_⟩
    rw [registered, hctx, Option.bind_some, registration, hinactive]
    rfl
  | modified hidle hctx =>
    intro c hc
    cases hc
    refine ⟨?_, ?_⟩
    · exact (isSome_modifyContext _ _ _ _).trans (hctx ▸ rfl)
    · rw [IocpReactor.remove, registered_deactivate, Function.update_self]
  | @drained c n hcall =>
    intro c' hc'
    cases hc'
    obtain ⟨hregistered, hknown⟩ := drain_keeps s.reactor c.handle n
    rw [hknown, hregistered]
    exact hs c hcall
  | woken => exact hs
  | completed hmem =>
    intro c hc
    refine ⟨(isSome_modifyContext _ _ _ _).trans (hs c hc).1, ?_⟩
    rw [registered_complete]
    exact (hs c hc).2

/-- **The handles that were not heard of are armed.** -/
def ArmedBut (r : IocpReactor η) (heard : η → Bool) : Prop :=
  ∀ h, (r.registered h).isSome = true → heard h = false → 0 < r.outstanding h

/-- **The handles that were heard of are not.** -/
def Deaf (r : IocpReactor η) (heard : η → Bool) : Prop :=
  ∀ h, (r.registered h).isSome = true → heard h = true → r.outstanding h = 0

theorem armed_iff {r : IocpReactor η} : Armed r ↔ ArmedBut r (fun _ => false) := by
  simp only [Armed, ArmedBut, outstanding_pos, forall_const]

variable {heard : η → Bool}

theorem heardAfter_eq {h : η} (hregistered : (s.reactor.registered h).isSome = true) :
    s.heardAfter label heard h = (heard h || s.dequeues h label) := by
  rw [heardAfter, hregistered, Bool.true_and]

/-- A handle that is removed is not registered, and its polls are left. -/
theorem registered_of_remove {r : IocpReactor η} {h k : η}
    (hk : ((r.remove h).registered k).isSome = true) : (r.registered k).isSome = true := by
  rw [IocpReactor.remove, registered_deactivate] at hk
  by_cases hkh : k = h
  · rw [hkh, Function.update_self] at hk
    cases hk
  · rwa [Function.update_of_ne hkh] at hk

/-- The loop of `add` leaves the polls of registered handles. -/
theorem outstanding_drain (hresting : Resting s.reactor s.call) {c : ReRegistration η}
    (hcall : s.call = some c) {k : η} (hk : (s.reactor.registered k).isSome = true) (n : ℕ) :
    (s.reactor.drain c.handle n).outstanding k = s.reactor.outstanding k := by
  have hspared : s.reactor.spared c.handle (.completion k) = true := by
    refine spared_completion.mpr ⟨fun hkh => ?_, hk⟩
    rw [hkh, (hresting c hcall).2] at hk
    cases hk
  rw [outstanding, inFlight_drain, count_drain_spared hspared]
  rfl

/-- What a re-registration does, if its poll is not refused. -/
theorem registered_of_granted {c : ReRegistration η} {a : AddOutcome}
    (hresting : Resting s.reactor s.call) (hcall : s.call = some c) (hgranted : Granted label)
    (hlabel : label = .finish a ∧ s.pending c = false ∨ label = .drainFails a) :
    (s.reactor.reRegister c.handle c.interest c.token a).2.registered
      = if (s.reactor.reRegister c.handle c.interest c.token a).1 = none then
          Function.update s.reactor.registered c.handle (some (c.interest, c.token))
        else s.reactor.registered := by
  obtain ⟨ctx, hctx⟩ := Option.isSome_iff_exists.mp (hresting c hcall).1
  obtain ⟨hregistered, hnone⟩ := registered_reRegister hctx c.interest c.token a
  have hsubmitted : a.base ≠ none ∧ a.association ≠ .failed → a.submitted = true := by
    obtain ⟨rfl, -⟩ | rfl := hlabel <;> exact hgranted
  have hiff : (a.base ≠ none ∧ a.association ≠ .failed)
      ↔ (s.reactor.reRegister c.handle c.interest c.token a).1 = none :=
    ⟨fun hassociated => hnone.mpr ⟨hassociated, hsubmitted hassociated⟩,
      fun hok => (hnone.mp hok).1⟩
  rw [hregistered]
  exact if_congr hiff rfl rfl

/-- What a `wait` leaves outstanding, and what it takes. -/
theorem outstanding_wait (r : IocpReactor η) (n : ℕ) (k : η) :
    (r.wait n).1.outstanding k + (r.queue.take n).count (.completion k) = r.outstanding k := by
  obtain ⟨hqueue, hflight⟩ := queue_wait r n
  have hsplit := r.count_take_add_count_drop n (.completion k)
  rw [outstanding, outstanding, hqueue, hflight]
  omega

/-- How many completions of a handle a step takes out of the port. -/
def taken (s : Iocp η) (h : η) : Label η → ℕ
  | .wait _ n => (s.reactor.queue.take n).count (.completion h)
  | _ => 0

theorem dequeues_iff {h : η} : s.dequeues h label = true ↔ 0 < s.taken h label := by
  cases label with
  | wait room n => rw [dequeues, taken, decide_eq_true_iff, List.count_pos_iff]
  | _ => simp [dequeues, taken]

/-- A handle that is polled was not registered before, and no other is concerned. -/
theorem outstanding_polled {h k : η} {P : Prop} [Decidable P]
    {value : Option (EventFlags × UInt64)} (hunregistered : s.reactor.registered h = none)
    (hregistered : r'.registered
      = if P then Function.update s.reactor.registered h value else s.reactor.registered)
    (houtstanding : r'.outstanding k = s.reactor.outstanding k + if P ∧ k = h then 1 else 0)
    (hk : (r'.registered k).isSome = true) :
    ((s.reactor.registered k).isSome = true ∧ r'.outstanding k + 0 = s.reactor.outstanding k)
      ∨ (s.reactor.registered k = none ∧ 0 < r'.outstanding k) := by
  rw [houtstanding]
  by_cases hnew : P ∧ k = h
  · rw [if_pos hnew, hnew.2]
    exact .inr ⟨hunregistered, Nat.succ_pos _⟩
  · rw [if_neg hnew]
    refine .inl ⟨?_, rfl⟩
    rw [hregistered] at hk
    split at hk
    · rename_i hpolled
      rwa [Function.update_of_ne (fun hkh => hnew ⟨hpolled, hkh⟩)] at hk
    · exact hk

/-- **What a step does to the polls of a handle** that is registered afterwards: it takes
completions of it out of the port, or the handle was not registered before and is polled. -/
theorem outstanding_effect (hresting : Resting s.reactor s.call) (hgranted : Granted label)
    (heffect : Effect s label r' call') {k : η} (hk : (r'.registered k).isSome = true) :
    ((s.reactor.registered k).isSome = true
        ∧ r'.outstanding k + s.taken k label = s.reactor.outstanding k)
      ∨ (s.reactor.registered k = none ∧ 0 < r'.outstanding k) := by
  cases heffect with
  | answered hidle hlabel =>
    cases label with
    | wait room n => exact absurd rfl (hlabel room n)
    | _ => exact .inl ⟨hk, rfl⟩
  | entered => exact .inl ⟨hk, rfl⟩
  | registered hidle hctx =>
    refine outstanding_polled ?_ (registered_register hctx _ _ _)
      (outstanding_register _ _ k _ _ _) hk
    rw [IocpReactor.registered, hctx]
    rfl
  | modified | removed => exact .inl ⟨registered_of_remove hk, rfl⟩
  | @waited room n hidle =>
    rw [(registered_wait s.reactor n).1] at hk
    exact .inl ⟨hk, outstanding_wait s.reactor n k⟩
  | @drained c n hcall =>
    rw [(drain_keeps s.reactor c.handle n).1] at hk
    exact .inl ⟨hk, outstanding_drain hresting hcall hk n⟩
  | @finished c a label hcall hlabel =>
    have hpolled := outstanding_polled (hresting c hcall).2
      (registered_of_granted hresting hcall hgranted hlabel)
      (outstanding_reRegister _ _ k _ _ _) hk
    obtain ⟨rfl, -⟩ | rfl := hlabel <;> exact hpolled
  | woken => exact .inl ⟨hk, congrFun (outstanding_wake _) k⟩
  | completed hmem =>
    rw [registered_complete] at hk
    exact .inl ⟨hk, congrFun (outstanding_complete hmem _ _ _) k⟩

/-- **One step leaves the handles armed that were not heard of.** -/
theorem ArmedBut.effect (hs : ArmedBut s.reactor heard) (hresting : Resting s.reactor s.call)
    (hgranted : Granted label) (heffect : Effect s label r' call') :
    ArmedBut r' (s.heardAfter label heard) := by
  intro k hk hheard
  obtain ⟨hold, hcount⟩ | ⟨-, hpos⟩ := outstanding_effect hresting hgranted heffect hk
  · rw [heardAfter_eq hold, Bool.or_eq_false_iff] at hheard
    have hpos := hs k hold hheard.1
    have hnone : ¬ 0 < s.taken k label := by
      rw [← dequeues_iff, hheard.2]
      exact Bool.false_ne_true
    omega
  · exact hpos

/-- `add` does not give up its loop. -/
def DrainsOut : Label η → Prop
  | .drainFails _ => False
  | _ => True

/-- **One step.** -/
theorem single_effect (hs : s.reactor.Single []) (hresting : Resting s.reactor s.call)
    (hdrains : DrainsOut label) (heffect : Effect s label r' call') : r'.Single [] := by
  cases heffect with
  | answered | entered => exact hs
  | registered hidle hctx => exact hs.register hctx _ _ _
  | modified | removed => exact hs.modifyContext _ (fun _ => rfl)
  | waited => exact hs.wait _
  | drained => exact hs.drain _ _
  | @finished c a label hcall hlabel =>
    obtain ⟨rfl, hpending⟩ | rfl := hlabel
    · exact hs.reRegister (hresting c hcall).1 hpending _ _ a
    · exact hdrains.elim
  | woken => exact hs.congr rfl (outstanding_wake _)
  | completed hmem =>
    exact hs.congr (polling_modifyContext _ _ _ (fun _ => rfl)) (outstanding_complete hmem _ _ _)

/-- **One step leaves the handles deaf that were heard of**, where `pending` says whether a poll
is outstanding. -/
theorem Deaf.effect (hs : Deaf s.reactor heard) (hsingle : s.reactor.Single [])
    (hresting : Resting s.reactor s.call) (hgranted : Granted label)
    (heffect : Effect s label r' call') : Deaf r' (s.heardAfter label heard) := by
  intro k hk hheard
  obtain ⟨hold, hcount⟩ | ⟨hnone, -⟩ := outstanding_effect hresting hgranted heffect hk
  · rw [heardAfter_eq hold, Bool.or_eq_true_iff, dequeues_iff] at hheard
    obtain hheard | htaken := hheard
    · have hzero := hs k hold hheard
      omega
    · -- there was one poll, and this `wait` takes its completion
      have hone : s.reactor.outstanding k = (s.reactor.polling k).toNat := hsingle k
      have hle := Bool.toNat_le (s.reactor.polling k)
      omega
  · rw [heardAfter, hnone] at hheard
    cases hheard

/-- **What holds in every state**, while `add` does not give up its loop. -/
theorem resting_of_reachable (hs : machine.Reachable s) : Resting s.reactor s.call :=
  hs.invariant (I := fun s => Resting s.reactor s.call) resting_new
    (fun _ _ _ _ hs _ hstep => hs.effect (effect_of_step hstep))

theorem single_of_reachable (hs : machine.ReachableBy (fun _ a => DrainsOut a) s) :
    s.reactor.Single [] :=
  hs.invariant (I := fun s => s.reactor.Single []) (fun _ => rfl)
    (fun _ _ _ hreach hs hdrains hstep =>
      single_effect hs (resting_of_reachable hreach.reachable) hdrains (effect_of_step hstep))

/-- A `wait` leaves the handles registered whose completions it takes. -/
theorem registered_of_dequeues {h : η} (htaken : s.dequeues h label = true)
    (heffect : Effect s label r' call') : r'.registered = s.reactor.registered := by
  cases heffect with
  | waited => exact (registered_wait s.reactor _).1
  | answered => rfl
  | finished _ hlabel => obtain ⟨rfl, -⟩ | rfl := hlabel <;> cases htaken
  | _ => cases htaken

/-- A step that meets the condition leaves the registered handles armed. -/
theorem armed_step (harmed : Armed s.reactor) (hresting : Resting s.reactor s.call)
    (hgranted : Granted label) (hspares : s.Spares label) (heffect : Effect s label r' call') :
    Armed r' := by
  have hbut := (armed_iff.mp harmed).effect hresting hgranted heffect
  refine armed_iff.mpr (fun h hregistered _ => hbut h hregistered ?_)
  rw [heardAfter, Bool.false_or, Bool.and_eq_false_iff]
  by_cases hold : (s.reactor.registered h).isSome = true
  · exact Or.inr (hspares h hold)
  · exact Or.inl (Bool.eq_false_iff.mpr hold)

/-- **The condition is what a step needs** to leave the registered handles armed. -/
theorem armed_step_iff (harmed : Armed s.reactor) (hsingle : s.reactor.Single [])
    (hresting : Resting s.reactor s.call) (hgranted : Granted label)
    (hstep : s.step label = some s') : Armed s'.reactor ↔ s.Spares label := by
  have heffect := effect_of_step hstep
  have hdeaf : Deaf s'.reactor (s.heardAfter label (fun _ => false)) :=
    Deaf.effect (fun _ _ hheard => by cases hheard) hsingle hresting hgranted heffect
  constructor
  · intro harmed' h hregistered
    by_contra htaken
    replace htaken := (Bool.not_eq_false _).mp htaken
    have hheard : s.heardAfter label (fun _ => false) h = true := by
      rw [heardAfter_eq hregistered, Bool.false_or]
      exact htaken
    have hregistered' : (s'.reactor.registered h).isSome = true := by
      rwa [registered_of_dequeues htaken heffect]
    have hzero := hdeaf h hregistered' hheard
    have hpos := outstanding_pos.mpr (harmed' h hregistered')
    omega
  · exact fun hspares => armed_step harmed hresting hgranted hspares heffect

/-- **Registered handles are armed**, as long as no `wait` takes a completion of one.

* In every run whose steps meet the condition, every registered handle is armed in every state,
  also inside the loop of `add` and whichever other calls of the kernel fail.
* Where no `add` gives up its loop, the condition is necessary: the registered handles are armed
  after every step of a run exactly if no step of it breaks the condition.
* There each handle can be told apart, in every run: a registered handle has one poll
  outstanding and is marked `pending` if no `wait` has taken a completion of it since it was
  registered, and otherwise it has none. The `wait` that takes the completion reports it, unless
  it was cancelled. -/
theorem armed_iff_spares :
    (∀ s : Iocp η, machine.ReachableBy (fun s a => Granted a ∧ s.Spares a) s → Armed s.reactor)
    ∧ (∀ (labels : List (Label η)) s, (∀ a ∈ labels, Granted a ∧ DrainsOut a) →
      machine.run new labels = some s →
        (machine.Along (fun s a => ∀ s', machine.step s a = some s' → Armed s'.reactor) new labels
          ↔ machine.Along Spares new labels))
    ∧ ∀ d : Iocp η × (η → Bool), listening.ReachableBy (fun _ a => Granted a ∧ DrainsOut a) d →
      ∀ h ctx, d.1.reactor.contexts h = some ctx → ctx.active = true →
        (h ∈ d.1.reactor.inFlight ∨ .completion h ∈ d.1.reactor.queue ↔ d.2 h = false)
          ∧ d.1.reactor.outstanding h = (!d.2 h).toNat ∧ ctx.pending = !d.2 h
          ∧ ∀ n, .completion h ∈ d.1.reactor.queue.take n → ctx.status ≠ statusCancelled →
            ∃ t ∈ (d.1.reactor.wait n).2, t.1 = h ∧ t.2.userToken = ctx.userToken := by
  refine ⟨fun s hs => ?_, fun labels s hlabels hrun => ?_, fun d hd h ctx hctx hactive => ?_⟩
  · refine hs.invariant (I := fun s => Armed s.reactor) armed_create ?_
    exact fun s label s' hreach harmed hC hstep => armed_step harmed
      (resting_of_reachable hreach.reachable) hC.1 hC.2 (effect_of_step hstep)
  · refine Machine.run_along_iff (L := fun a => Granted a ∧ DrainsOut a)
      (I := fun s : Iocp η => Armed s.reactor ∧ s.reactor.Single [] ∧ Resting s.reactor s.call)
      (P := fun _ _ s' => Armed s'.reactor) ?_ ?_ ⟨armed_create, fun _ => rfl, resting_new⟩ hlabels
      hrun
    · rintro s a s' ⟨-, hsingle, hresting⟩ hlabel hstep harmed'
      have heffect := effect_of_step hstep
      exact ⟨harmed', single_effect hsingle hresting hlabel.2 heffect, hresting.effect heffect⟩
    · rintro s a s' ⟨harmed, hsingle, hresting⟩ hlabel hstep
      exact armed_step_iff harmed hsingle hresting hlabel.1 hstep
  · have hs := hd.of_recording (C := fun _ a => Granted a ∧ DrainsOut a)
    have hresting : ∀ {s : Iocp η}, machine.ReachableBy (fun _ a => Granted a ∧ DrainsOut a) s →
        Resting s.reactor s.call := fun hs => resting_of_reachable hs.reachable
    have hsingle : ∀ {s : Iocp η}, machine.ReachableBy (fun _ a => Granted a ∧ DrainsOut a) s →
        s.reactor.Single [] := fun hs => single_of_reachable (hs.mono (fun _ _ hC => hC.2))
    obtain ⟨hbut, hdeaf⟩ : ArmedBut d.1.reactor d.2 ∧ Deaf d.1.reactor d.2 := by
      refine hd.invariant (I := fun d => ArmedBut d.1.reactor d.2 ∧ Deaf d.1.reactor d.2)
        ⟨armed_iff.mp armed_create, fun _ _ hheard => by cases hheard⟩ ?_
      rintro d label d' hreach ⟨hbut, hdeaf⟩ hC hstep
      obtain ⟨hstep, heq⟩ := Machine.recording_step hstep
      have hreach' := hreach.of_recording (C := fun _ a => Granted a ∧ DrainsOut a)
      rw [heq]
      exact ⟨hbut.effect (hresting hreach') hC.1 (effect_of_step hstep),
        hdeaf.effect (hsingle hreach') (hresting hreach') hC.1 (effect_of_step hstep)⟩
    have hregistered : (d.1.reactor.registered h).isSome = true :=
      (isSome_registered hctx).trans hactive
    have hpolling : d.1.reactor.outstanding h = ctx.pending.toNat := by
      have hh := hsingle hs h
      rwa [polling, hctx] at hh
    have hcount : d.1.reactor.outstanding h = (!d.2 h).toNat := by
      cases hheard : d.2 h with
      | true => exact hdeaf h hregistered hheard
      | false =>
        have hpos := hbut h hregistered hheard
        have hle := Bool.toNat_le ctx.pending
        rw [Bool.not_false, Bool.toNat_true]
        omega
    have hpending : ctx.pending = !d.2 h := by
      have heq := hpolling.symm.trans hcount
      generalize (!d.2 h) = b at heq ⊢
      cases b <;> simpa using heq
    refine ⟨?_, hcount, hpending, fun n hmem hstatus => ?_⟩
    · rw [← outstanding_pos, hcount]
      cases d.2 h <;> simp
    · refine wait_reports hctx hactive ?_ hstatus hmem
      have hpos := outstanding_pos.mpr (Or.inr (List.mem_of_mem_take hmem))
      cases hoff : ctx.pending with
      | true => rfl
      | false =>
        rw [hpolling, hoff] at hpos
        cases hpos

/-- Handle `2` is removed and its poll cancelled; the `wait` takes that completion and a wake. -/
def removedAndWoken : List (Label ℕ) :=
  [.add 1 .readable 7 allTaken, .add 2 .readable 8 allTaken, .remove 2,
    .complete 2 statusCancelled 0 0, .wake, .wait 8 2]

/-- Handle `1` is reported, and then removed and added again. Handle `2` is readable, too. -/
def reportedAndAdded : List (Label ℕ) :=
  [.add 1 .readable 7 allTaken, .add 2 .readable 8 allTaken, .complete 1 0 1 1, .wait 8 1,
    .complete 2 0 1 1, .remove 1, .add 1 .readable 7 allTaken, .finish allTaken]

/-- After the first run handle `1` is armed. Along the second the condition is not met, nor are
the handles always armed; at its end `1` has a poll again, and the next `wait` reports `2`. -/
theorem armed_iff_spares_reportedAndAdded :
    (∃ s, machine.run new removedAndWoken = some s
        ∧ (1 ∈ s.reactor.inFlight ∨ .completion 1 ∈ s.reactor.queue))
      ∧ ¬ machine.Along Spares new reportedAndAdded
      ∧ ¬ machine.Along (fun s a => ∀ s', machine.step s a = some s' → Armed s'.reactor) new
        reportedAndAdded
      ∧ ∃ d, listening.run listening.init reportedAndAdded = some d
        ∧ d.1.reactor.outstanding 1 = 1
        ∧ ∃ t ∈ (d.1.reactor.wait 1).2, t.1 = 2 ∧ t.2.userToken = 8 := by
  obtain ⟨harmed, hexact, hheard⟩ := armed_iff_spares (η := ℕ)
  have hlabels : ∀ a ∈ reportedAndAdded, Granted a ∧ DrainsOut a := by
    simp [reportedAndAdded, Granted, DrainsOut, allTaken, AddOutcome.submitted]
  have hspares : ∀ s : Iocp ℕ, machine.run new removedAndWoken = some s →
      machine.ReachableBy (fun s a => Granted a ∧ s.Spares a) s := by
    intro s hrun
    refine Machine.ReachableBy.init.run_along (.cons ⟨?_, ?_⟩ rfl (.cons ⟨?_, ?_⟩ rfl
      (.cons ⟨?_, ?_⟩ rfl (.cons ⟨?_, ?_⟩ rfl (.cons ⟨?_, ?_⟩ rfl (.cons ⟨?_, ?_⟩ rfl ?_)))))) hrun
    case refine_12 =>
      intro h hregistered
      refine decide_eq_false (fun hmem => ?_)
      replace hmem : Packet.completion h ∈ [Packet.completion 2, Packet.wake] := hmem
      obtain rfl : h = 2 := by simpa using hmem
      cases hregistered
    all_goals first | trivial | exact fun _ _ => rfl
  have hbroken : ¬ machine.Along Spares new reportedAndAdded := by
    rintro ⟨-, h⟩
    obtain ⟨-, h⟩ := h _ rfl
    obtain ⟨-, h⟩ := h _ rfl
    cases (h _ rfl).1 1 rfl
  have hreach : ∀ d, listening.run listening.init reportedAndAdded = some d →
      (listening (η := ℕ)).ReachableBy (fun _ a => Granted a ∧ DrainsOut a) d :=
    fun d hrun => Machine.ReachableBy.init.run hlabels hrun
  refine ⟨⟨_, rfl, harmed _ (hspares _ rfl) 1 rfl⟩, hbroken, ?_, _, rfl, ?_, ?_⟩
  · exact fun h => hbroken ((hexact reportedAndAdded _ hlabels rfl).mp h)
  · exact (hheard _ (hreach _ rfl) 1 _ rfl rfl).2.1
  · refine (hheard _ (hreach _ rfl) 2 _ rfl rfl).2.2.2 1 ?_ ?_
    · exact List.mem_singleton_self _
    · exact (by decide : (0 : UInt32) ≠ statusCancelled)

/-- **A handle that is not heard of again.** Its completion has been reported; it is registered,
no poll of it is in flight and the port is empty. -/
theorem reported_not_armed :
    ∃ s, machine.run new [.add (1 : ℕ) .readable 7 allTaken, .complete 1 0 1 1,
        .wait 8 1] = some s
      ∧ s.registry.conforming = true ∧ s.reactor.registered 1 = some (.readable, 7)
      ∧ s.reactor.inFlight = [] ∧ s.reactor.queue = [] :=
  ⟨_, rfl, rfl, rfl, rfl, rfl⟩

end Iocp

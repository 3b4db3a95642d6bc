import SapCore.EpollReactor
import SapCore.IocpReactor

/-!
# The two backends and the map of registrations

On the completion port a handle is registered if its context is active. Packets, polls and
`pending` flags do not enter into that, so only the ends of the calls matter. There the
emulation differs from the map in four ways: `remove` succeeds for any handle that has a
context, registered or not, and so does the first half of `modify`; a `modify` whose second half
fails has removed the handle; and an `add` that re-registers a handle leaves it active when the
poll is refused. The interest list of `epoll` differs from the map in the eventfd of the reactor,
which is in it from the start. In runs without these the two backends answer as the map of
registrations says (`Registry.kept_of_faithful`).
-/

namespace IocpReactor

variable {η : Type}

/-- What a context is registered with. -/
def registration (c : AfdPollContext) : Option (EventFlags × UInt64) :=
  if c.active then some (c.interest, c.userToken) else none

/-- **The registrations that the contexts hold.** -/
def registered (r : IocpReactor η) (h : η) : Option (EventFlags × UInt64) :=
  (r.contexts h).bind registration

variable [DecidableEq η] {r : IocpReactor η} {h : η} {f : AfdPollContext → AfdPollContext}

omit [DecidableEq η] in
/-- A handle is registered if its context is active. -/
theorem isSome_registered {ctx : AfdPollContext} (hctx : r.contexts h = some ctx) :
    (r.registered h).isSome = ctx.active := by
  rw [registered, hctx, Option.bind_some, registration]
  cases ctx.active <;> rfl

theorem registered_modifyContext (r : IocpReactor η) (h : η) (f : AfdPollContext → AfdPollContext) :
    (r.modifyContext h f).registered
      = Function.update r.registered h ((r.contexts h).bind (fun c => registration (f c))) := by
  funext k
  by_cases hkh : k = h
  · subst hkh
    simp only [registered, modifyContext, Function.update_self, Option.bind_map]
    rfl
  · simp only [registered, modifyContext, Function.update_of_ne hkh]

/-- A write that leaves the registration leaves them all. -/
theorem registered_modifyContext_eq (r : IocpReactor η) (h : η)
    (hf : ∀ c, registration (f c) = registration c) :
    (r.modifyContext h f).registered = r.registered := by
  rw [registered_modifyContext, Function.update_eq_self_iff]
  simp only [hf]
  rfl

/-- A handle is registered by a write to its context. -/
theorem registered_modifyContext_some {ctx : AfdPollContext} (hctx : r.contexts h = some ctx) :
    (r.modifyContext h f).registered = Function.update r.registered h (registration (f ctx)) := by
  rw [registered_modifyContext, hctx, Option.bind_some]

theorem contexts_modifyContext {ctx : AfdPollContext} (hctx : r.contexts h = some ctx) :
    (r.modifyContext h f).contexts h = some (f ctx) := by
  simp only [modifyContext, Function.update_self, hctx, Option.map_some]

theorem registered_deactivate (r : IocpReactor η) (h : η) :
    (r.deactivate h).registered = Function.update r.registered h none := by
  rw [deactivate, registered_modifyContext]
  refine congrArg _ ?_
  cases r.contexts h <;> rfl

theorem registered_setPending (r : IocpReactor η) (h : η) (b : Bool) :
    (r.setPending h b).registered = r.registered :=
  registered_modifyContext_eq r h (f := fun c => { c with pending := b }) (fun _ => rfl)

theorem registered_submitPoll (r : IocpReactor η) (h : η) (k : AddOutcome) :
    (r.submitPoll h k).2.registered = r.registered
      ∧ ((r.submitPoll h k).1 = none ↔ k.submitted = true) := by
  have hfirst : (r.modifyContext h (fun c => { c with
      status := 0, polled := toAfd c.interest })).registered = r.registered :=
    registered_modifyContext_eq r h (fun _ => rfl)
  unfold submitPoll
  dsimp only
  split
  · rename_i hsubmitted
    refine ⟨?_, iff_of_true rfl hsubmitted⟩
    exact (registered_setPending _ h true).trans hfirst
  · rename_i hrefused
    exact ⟨hfirst, iff_of_false (by simp) hrefused⟩

/-- **`add` of a handle that has no context** registers it, or changes nothing. -/
theorem registered_register (hctx : r.contexts h = none) (interest : EventFlags) (token : UInt64)
    (k : AddOutcome) :
    (r.register h interest token k).2.registered
      = if (r.register h interest token k).1 = none then
          Function.update r.registered h (some (interest, token)) else r.registered := by
  unfold register
  split
  · rfl
  · rename_i base hbase
    split
    · rfl
    · have hnew : (r.emplace h ⟨0, 0, 0, 0, token, base, interest, true, false⟩).registered
          = Function.update r.registered h (some (interest, token)) := by
        funext k
        by_cases hkh : k = h
        · subst hkh
          simp only [registered, emplace, Function.update_self, Option.bind_some, registration,
            if_true]
        · simp only [registered, emplace, Function.update_of_ne hkh]
      have hsubmit := (registered_submitPoll
        (r.emplace h ⟨0, 0, 0, 0, token, base, interest, true, false⟩) h k).1
      split
      · rename_i r' heq
        rw [heq] at hsubmit
        rw [if_pos rfl]
        exact hsubmit.trans hnew
      · rename_i e r' heq
        rw [heq] at hsubmit
        rw [if_neg (by simp), registered_deactivate, hsubmit, hnew, Function.update_idem]
        refine Function.update_eq_self_iff.mpr ?_
        rw [registered, hctx]
        rfl

/-- **`add` that re-registers a handle.** Where the poll is refused the handle is registered all
the same. -/
theorem registered_reRegister {ctx : AfdPollContext} (hctx : r.contexts h = some ctx)
    (interest : EventFlags) (token : UInt64) (k : AddOutcome) :
    (r.reRegister h interest token k).2.registered
      = (if k.base ≠ none ∧ k.association ≠ .failed then
          Function.update r.registered h (some (interest, token)) else r.registered)
      ∧ ((r.reRegister h interest token k).1 = none
        ↔ (k.base ≠ none ∧ k.association ≠ .failed) ∧ k.submitted = true) := by
  unfold reRegister
  split
  · rename_i hbase
    simp [hbase]
  · rename_i base hbase
    have hfirst : (r.modifyContext h (fun c => { c with baseHandle := base })).registered
        = r.registered := registered_modifyContext_eq r h (fun _ => rfl)
    have hctx' : (r.modifyContext h (fun c => { c with baseHandle := base })).contexts h
        = some { ctx with baseHandle := base } := contexts_modifyContext hctx
    dsimp only
    split
    · rename_i hfailed
      simp [hfailed, hfirst]
    · rename_i hassociated
      obtain ⟨hregistered, hnone⟩ := registered_submitPoll
        ((r.modifyContext h (fun c => { c with baseHandle := base })).modifyContext h (fun c =>
          { c with interest := interest, userToken := token, active := true })) h k
      refine ⟨?_, ?_⟩
      · rw [hregistered, registered_modifyContext_some hctx', hfirst, if_pos (by
          simp [hbase, hassociated])]
        rfl
      · rw [hnone]
        simp [hbase, hassociated]

theorem submitPoll_error (r : IocpReactor η) (h : η) (k : AddOutcome) {e : ReactorError}
    (he : (r.submitPoll h k).1 = some e) : e = .poll k.status := by
  unfold submitPoll at he
  dsimp only at he
  split at he
  · cases he
  · exact (Option.some.inj he).symm

/-- A call that registers a handle fails for reasons of the kernel only. -/
def IsKernelError (e : ReactorError) : Prop :=
  e = .baseHandle ∨ e = .associate ∨ ∃ status, e = .poll status

theorem register_error (r : IocpReactor η) (h : η) (interest : EventFlags) (token : UInt64)
    (k : AddOutcome) {e : ReactorError} (he : (r.register h interest token k).1 = some e) :
    IsKernelError e := by
  unfold register at he
  split at he
  · exact Or.inl (Option.some.inj he).symm
  · split at he
    · exact Or.inr (Or.inl (Option.some.inj he).symm)
    · split at he
      · cases he
      · rename_i e' r' heq
        obtain rfl := Option.some.inj he
        exact Or.inr (Or.inr ⟨_, submitPoll_error _ h k (congrArg Prod.fst heq)⟩)

theorem reRegister_error (r : IocpReactor η) (h : η) (interest : EventFlags) (token : UInt64)
    (k : AddOutcome) {e : ReactorError} (he : (r.reRegister h interest token k).1 = some e) :
    IsKernelError e := by
  unfold reRegister at he
  split at he
  · exact Or.inl (Option.some.inj he).symm
  · dsimp only at he
    split at he
    · exact Or.inr (Or.inl (Option.some.inj he).symm)
    · exact Or.inr (Or.inr ⟨_, submitPoll_error _ h k he⟩)

theorem isSome_modifyContext (r : IocpReactor η) (h k : η) (f : AfdPollContext → AfdPollContext) :
    ((r.modifyContext h f).contexts k).isSome = (r.contexts k).isSome := by
  by_cases hkh : k = h
  · subst hkh
    simp only [modifyContext, Function.update_self, Option.isSome_map]
  · simp only [modifyContext, Function.update_of_ne hkh]

/-- **What the loop of `add` makes of a packet**: nothing, or the poll is not pending any more, or
the packet is posted again. -/
theorem drainEntry_cases (h : η) (r : IocpReactor η) (p : Packet η) :
    (drainEntry h r p = r ∧ ∀ c, p = .completion c → r.contexts c = none)
      ∨ ∃ c ctx, p = .completion c ∧ r.contexts c = some ctx
        ∧ ((c = h ∨ ctx.active = false) ∧ drainEntry h r p = r.setPending c false
          ∨ (c ≠ h ∧ ctx.active = true)
            ∧ drainEntry h r p = { r with queue := r.queue ++ [.completion c] }) := by
  cases p with
  | wake => exact .inl ⟨rfl, fun _ heq => nomatch heq⟩
  | completion c =>
    cases hctx : r.contexts c with
    | none =>
      refine .inl ⟨?_, fun c' heq => ?_⟩
      · simp only [drainEntry, hctx]
      · cases heq
        exact hctx
    | some ctx =>
      refine .inr ⟨c, ctx, rfl, hctx, ?_⟩
      by_cases hdropped : c = h ∨ ctx.active = false
      · exact .inl ⟨hdropped, by simp only [drainEntry, hctx, if_pos hdropped]⟩
      · refine .inr ⟨?_, by simp only [drainEntry, hctx, if_neg hdropped]⟩
        rw [not_or, Bool.not_eq_false] at hdropped
        exact hdropped

theorem drainEntry_keeps (h : η) (r : IocpReactor η) (p : Packet η) :
    (drainEntry h r p).registered = r.registered
      ∧ ∀ k, ((drainEntry h r p).contexts k).isSome = (r.contexts k).isSome := by
  obtain ⟨heq, -⟩ | ⟨c, ctx, -, -, ⟨-, heq⟩ | ⟨-, heq⟩⟩ := drainEntry_cases h r p
  · rw [heq]
    exact ⟨rfl, fun _ => rfl⟩
  · rw [heq]
    exact ⟨registered_setPending r _ false, fun k => isSome_modifyContext r _ k _⟩
  · rw [heq]
    exact ⟨rfl, fun _ => rfl⟩

/-- **The loop of `add` leaves the registrations.** -/
theorem drain_keeps (r : IocpReactor η) (h : η) (n : ℕ) :
    (r.drain h n).registered = r.registered
      ∧ ∀ k, ((r.drain h n).contexts k).isSome = (r.contexts k).isSome := by
  refine List.foldlRecOn (motive := fun r' : IocpReactor η => r'.registered = r.registered
    ∧ ∀ k, (r'.contexts k).isSome = (r.contexts k).isSome) _ _ ⟨rfl, fun _ => rfl⟩ ?_
  rintro r' ⟨hregistered, hknown⟩ p -
  obtain ⟨hregistered', hknown'⟩ := drainEntry_keeps h r' p
  exact ⟨hregistered'.trans hregistered, fun k => (hknown' k).trans (hknown k)⟩

/-- **What `wait` makes of a packet**: nothing, or the poll is not pending any more; then the
handle is reported with its token if it is registered and the poll was not cancelled. -/
theorem waitEntry_cases (acc : IocpReactor η × List (η × Trigger)) (p : Packet η) :
    (waitEntry acc p = acc
        ∧ ∀ c ctx, p = .completion c → acc.1.contexts c = some ctx → ctx.pending = false)
      ∨ ∃ c ctx ts, p = .completion c ∧ acc.1.contexts c = some ctx ∧ ctx.pending = true
        ∧ waitEntry acc p = (acc.1.setPending c false, acc.2 ++ ts)
        ∧ (∀ t ∈ ts, t.1 = c ∧ ctx.active = true ∧ t.2.userToken = ctx.userToken)
        ∧ (ctx.active = true → ctx.status ≠ statusCancelled → ts ≠ []) := by
  cases p with
  | wake => exact .inl ⟨rfl, fun _ _ heq => nomatch heq⟩
  | completion c =>
    cases hctx : acc.1.contexts c with
    | none =>
      refine .inl ⟨by simp only [waitEntry, hctx], fun c' ctx heq hctx' => ?_⟩
      cases heq
      cases hctx.symm.trans hctx'
    | some ctx =>
      by_cases hpending : ctx.pending = false
      · refine .inl ⟨by simp only [waitEntry, hctx, if_pos hpending], fun c' ctx' heq hctx' => ?_⟩
        cases heq
        cases hctx.symm.trans hctx'
        exact hpending
      · have hentry : waitEntry acc (.completion c)
            = if ctx.active = false ∨ ctx.status = statusCancelled then
                (acc.1.setPending c false, acc.2)
              else (acc.1.setPending c false, acc.2 ++ [(c, ⟨if ctx.status = 0 then
                fromAfd (if ctx.numberOfHandles ≥ 1 then ctx.fired else 0) else .error,
                ctx.userToken⟩)]) := by
          simp only [waitEntry, hctx, if_neg hpending]
          split <;> split <;> simp_all
        rw [Bool.not_eq_false] at hpending
        by_cases hsilent : ctx.active = false ∨ ctx.status = statusCancelled
        · refine .inr ⟨c, ctx, [], rfl, hctx, hpending, ?_, by simp, ?_⟩
          · rw [hentry, if_pos hsilent, List.append_nil]
          · exact fun hactive hstatus => absurd hsilent (by simp [hactive, hstatus])
        · refine .inr ⟨c, ctx, _, rfl, hctx, hpending, hentry.trans (if_neg hsilent), ?_, by simp⟩
          rw [not_or, Bool.not_eq_false] at hsilent
          simp [hsilent.1]

/-- **What `wait` reports**: the registrations are what they were, and every trigger is of a
handle that is registered, with its token. -/
theorem registered_wait (r : IocpReactor η) (n : ℕ) :
    (r.wait n).1.registered = r.registered
      ∧ ∀ t ∈ (r.wait n).2, (r.registered t.1).map Prod.snd = some t.2.userToken := by
  refine List.foldlRecOn (motive := fun acc : IocpReactor η × List (η × Trigger) =>
    acc.1.registered = r.registered
      ∧ ∀ t ∈ acc.2, (r.registered t.1).map Prod.snd = some t.2.userToken) _ _
    ⟨rfl, fun t ht => absurd ht List.not_mem_nil⟩ ?_
  rintro acc ⟨hsame, hts⟩ p -
  obtain ⟨heq, -⟩ | ⟨c, ctx, ts, -, hctx, -, heq, hreported, -⟩ := waitEntry_cases acc p
  · rw [heq]
    exact ⟨hsame, hts⟩
  · rw [heq]
    refine ⟨(registered_setPending _ c false).trans hsame, fun t ht => ?_⟩
    obtain ht | ht := List.mem_append.mp ht
    · exact hts t ht
    · obtain ⟨rfl, hactive, htoken⟩ := hreported t ht
      rw [← hsame, registered, hctx, Option.bind_some, registration, if_pos hactive, htoken]
      rfl

end IocpReactor

namespace Iocp

open IocpReactor

variable {η : Type} [DecidableEq η] {s s' : Iocp η}

/-- **The condition on a step**: `remove` and `modify` are given handles that have no context or
are registered; in a `modify` no call of the kernel fails in the second half; and the poll of
an `add` that re-registers a handle is not refused. -/
def Faithful (s : Iocp η) : Label η → Prop
  | .modify h _ _ => ∀ ctx, s.reactor.contexts h = some ctx → ctx.active = true
  | .remove h => ∀ ctx, s.reactor.contexts h = some ctx → ctx.active = true
  | .drainFails k => ∀ c, s.call = some c → Taken c k
  | .finish k => ∀ c, s.call = some c → Taken c k
  | _ => True
where
  /-- How the kernel takes the end of a re-registration. -/
  Taken (c : ReRegistration η) (k : AddOutcome) : Prop :=
    (c.modify = true → k.base ≠ none ∧ k.association ≠ .failed)
      ∧ (k.base ≠ none ∧ k.association ≠ .failed → k.submitted = true)

/-- **The contexts hold the map of registrations**, but for the handle that a call is about to
re-register. -/
structure Agrees (s : Iocp η) : Prop where
  conforming : s.registry.conforming = true
  idle : s.call = none → s.reactor.registered = s.registry.map
  known : ∀ c, s.call = some c → ∃ ctx, s.reactor.contexts c.handle = some ctx
  busy : ∀ c, s.call = some c →
    s.reactor.registered = Function.update s.registry.map c.handle none
  held : ∀ c, s.call = some c → (s.registry.map c.handle).isSome = c.modify

/-- Outside the calls. -/
theorem agrees_idle {r : IocpReactor η} {registry : Registry η}
    (hconforming : registry.conforming = true) (hregistered : r.registered = registry.map) :
    Agrees ⟨r, none, registry⟩ :=
  ⟨hconforming, fun _ => hregistered, fun _ h => (nomatch h), fun _ h => (nomatch h),
    fun _ h => (nomatch h)⟩

theorem agrees_new : Agrees (new : Iocp η) := agrees_idle rfl rfl

/-- A call ends. -/
theorem Agrees.answer (hs : s.Agrees) {call : ReactorCall η}
    {r : Option ReactorError × IocpReactor η}
    (hconforms : s.registry.conforms call (.ofError r.1) = true)
    (hmap : r.2.registered = s.registry.after call (.ofError r.1)) : (s.answer call r).Agrees := by
  refine agrees_idle ?_ hmap
  simp only [Registry.record, hs.conforming, hconforms, Bool.and_self]

/-- A call gets to its loop. -/
theorem Agrees.enter (hs : s.Agrees) {c : ReRegistration η} {r : IocpReactor η}
    {ctx : AfdPollContext} (hctx : r.contexts c.handle = some ctx)
    (hregistered : r.registered = Function.update s.registry.map c.handle none)
    (hheld : (s.registry.map c.handle).isSome = c.modify) :
    Agrees ⟨r, some c, s.registry⟩ := by
  refine ⟨hs.conforming, fun hnone => (nomatch hnone), fun c' hc => ?_, fun c' hc => ?_,
    fun c' hc => ?_⟩ <;> cases hc
  · exact ⟨ctx, hctx⟩
  · exact hregistered
  · exact hheld

/-- The registrations stay, and so does the call. -/
theorem Agrees.congr (hs : s.Agrees) {r : IocpReactor η}
    (hregistered : r.registered = s.reactor.registered)
    (hknown : ∀ h, (s.reactor.contexts h).isSome = true → (r.contexts h).isSome = true) :
    Agrees { s with reactor := r } where
  conforming := hs.conforming
  idle h := hregistered.trans (hs.idle h)
  known c h := by
    obtain ⟨ctx, hctx⟩ := hs.known c h
    exact Option.isSome_iff_exists.mp (hknown c.handle (by rw [hctx]; rfl))
  busy c h := hregistered.trans (hs.busy c h)
  held := hs.held

/-- **A re-registration ends.** -/
theorem Agrees.finish (hs : s.Agrees) {c : ReRegistration η} (hcall : s.call = some c)
    {k : AddOutcome} (htaken : Faithful.Taken c k) : (s.finish c k).Agrees := by
  obtain ⟨ctx, hctx⟩ := hs.known c hcall
  obtain ⟨hregistered, hnone⟩ := registered_reRegister hctx c.interest c.token k
  rw [hs.busy c hcall, Function.update_idem] at hregistered
  have hheld := hs.held c hcall
  by_cases hassociated : k.base ≠ none ∧ k.association ≠ .failed
  · -- the handle is registered
    rw [if_pos hassociated] at hregistered
    have hok := hnone.mpr ⟨hassociated, htaken.2 hassociated⟩
    refine hs.answer ?_ ?_
    · rw [hok]
      unfold ReRegistration.call
      split
      · rename_i hmodify
        rw [hmodify] at hheld
        exact hheld
      · rename_i hadd
        rw [Bool.not_eq_true] at hadd
        rw [hadd] at hheld
        simpa [Registry.conforms, ReactorReply.ofError] using hheld
    · rw [hok, hregistered]
      unfold ReRegistration.call
      split <;> rfl
  · -- the call is an `add` that failed, and the map does not have the handle
    rw [if_neg hassociated] at hregistered
    have hadd : c.modify = false :=
      Bool.eq_false_iff.mpr (fun hmodify => hassociated (htaken.1 hmodify))
    rw [hadd, Option.isSome_eq_false_iff, Option.isNone_iff_eq_none] at hheld
    rw [Function.update_eq_self_iff.mpr hheld.symm] at hregistered
    obtain ⟨e, he⟩ := Option.ne_none_iff_exists'.mp (fun hok => hassociated (hnone.mp hok).1)
    have hkernel := reRegister_error _ _ _ _ _ he
    refine hs.answer ?_ ?_
    · rw [he, ReRegistration.call, hadd]
      obtain rfl | rfl | ⟨status, rfl⟩ := hkernel <;> rfl
    · rw [he, hregistered, ReRegistration.call, hadd]
      rfl

/-- **`add` of a handle that has no context.** -/
theorem Agrees.register (hs : s.Agrees) (hcall : s.call = none) {h : η}
    (hctx : s.reactor.contexts h = none) (interest : EventFlags) (token : UInt64) (k : AddOutcome) :
    (s.answer (.add h interest token) (s.reactor.register h interest token k)).Agrees := by
  have hregistered := registered_register hctx interest token k
  have hidle := hs.idle hcall
  have hmap : s.registry.map h = none := by
    rw [← hidle, registered, hctx]
    rfl
  cases he : (s.reactor.register h interest token k).1 with
  | none =>
    rw [if_pos he, hidle] at hregistered
    refine hs.answer ?_ ?_
    · simp [he, ReactorReply.ofError, Registry.conforms, hmap]
    · rw [he, hregistered]
      rfl
  | some e =>
    rw [if_neg (by simp [he]), hidle] at hregistered
    refine hs.answer ?_ ?_
    · rw [he]
      obtain rfl | rfl | ⟨status, rfl⟩ := register_error _ _ _ _ _ he <;> rfl
    · rw [he, hregistered]
      rfl

/-- A handle that has a context and is in the map, or not. -/
theorem Agrees.isSome_map (hs : s.Agrees) (hcall : s.call = none) {h : η} {ctx : AfdPollContext}
    (hctx : s.reactor.contexts h = some ctx) : (s.registry.map h).isSome = ctx.active := by
  rw [← hs.idle hcall, isSome_registered hctx]

theorem Agrees.map_none (hs : s.Agrees) (hcall : s.call = none) {h : η}
    (hctx : s.reactor.contexts h = none) : s.registry.map h = none := by
  rw [← hs.idle hcall, registered, hctx]
  rfl

/-- **A step outside the loop of `add`.** -/
theorem Agrees.callStep (hs : s.Agrees) (hcall : s.call = none) {label : Label η}
    (hfaithful : s.Faithful label) (h : s.callStep label = some s') : s'.Agrees := by
  have hidle := hs.idle hcall
  cases label with
  | add k interest token outcome =>
    simp only [Iocp.callStep] at h
    split at h
    · rename_i hctx
      cases h
      exact hs.register hcall hctx interest token outcome
    · rename_i ctx hctx
      have hsome := hs.isSome_map hcall hctx
      split at h
      · rename_i hactive
        cases h
        refine hs.answer ?_ hidle
        simp [ReactorReply.ofError, Registry.conforms, hsome, hactive]
      · rename_i hinactive
        cases h
        rw [Bool.not_eq_true] at hinactive
        rw [hinactive] at hsome
        refine hs.enter hctx ?_ hsome
        rw [Option.isSome_eq_false_iff, Option.isNone_iff_eq_none] at hsome
        rw [Function.update_eq_self_iff.mpr hsome.symm]
        exact hidle
  | modify k interest token =>
    simp only [Iocp.callStep] at h
    split at h
    · rename_i hctx
      cases h
      refine hs.answer ?_ hidle
      simp [ReactorReply.ofError, Registry.conforms, hs.map_none hcall hctx]
    · rename_i ctx hctx
      cases h
      have hsome := hs.isSome_map hcall hctx
      rw [hfaithful ctx hctx] at hsome
      refine hs.enter (contexts_modifyContext hctx) ?_ hsome
      exact (registered_deactivate _ _).trans (by rw [hidle])
  | remove k =>
    simp only [Iocp.callStep] at h
    split at h
    · rename_i hctx
      cases h
      refine hs.answer ?_ hidle
      simp [ReactorReply.ofError, Registry.conforms, hs.map_none hcall hctx]
    · rename_i ctx hctx
      cases h
      have hsome := hs.isSome_map hcall hctx
      rw [hfaithful ctx hctx] at hsome
      refine hs.answer ?_ ?_
      · exact hsome
      · exact (registered_deactivate _ _).trans (by rw [hidle]; rfl)
  | wait room n =>
    rw [Iocp.callStep, Option.ite_none_right_eq_some] at h
    obtain ⟨-, h⟩ := h
    cases h
    obtain ⟨hregistered, hts⟩ := registered_wait s.reactor n
    refine agrees_idle ?_ (hregistered.trans hidle)
    simp only [Registry.record, Registry.conforms, hs.conforming, Bool.true_and, List.all_eq_true,
      beq_iff_eq]
    rw [hidle] at hts
    exact hts
  | waitFails timedOut =>
    cases h
    refine agrees_idle ?_ hidle
    cases timedOut <;> simp [Registry.record, Registry.conforms, hs.conforming]
  | drain n => cases h
  | drainFails k => cases h
  | finish k => cases h
  | wake => cases h
  | complete k status numberOfHandles fired => cases h

/-- **One step.** -/
theorem Agrees.step (hs : s.Agrees) {label : Label η} (hfaithful : s.Faithful label)
    (h : s.step label = some s') : s'.Agrees := by
  unfold Iocp.step at h
  split at h
  · cases h
    exact hs.congr rfl (fun _ h => h)
  · rw [Option.ite_none_right_eq_some] at h
    obtain ⟨-, h⟩ := h
    cases h
    refine hs.congr (registered_modifyContext_eq _ _ (fun _ => rfl)) (fun k hk => ?_)
    exact (isSome_modifyContext _ _ k _).trans hk
  · split at h
    · rename_i hcall
      exact hs.callStep hcall hfaithful h
    · rename_i c hcall
      unfold Iocp.loopStep at h
      split at h
      · rw [Option.ite_none_right_eq_some] at h
        obtain ⟨-, h⟩ := h
        cases h
        obtain ⟨hregistered, hknown⟩ := drain_keeps s.reactor c.handle _
        exact hs.congr hregistered (fun k hk => (hknown k).trans hk)
      · rw [Option.ite_none_right_eq_some] at h
        obtain ⟨-, h⟩ := h
        cases h
        exact hs.finish hcall (hfaithful c hcall)
      · split at h
        · cases h
        · cases h
          exact hs.finish hcall (hfaithful c hcall)
      · cases h

end Iocp

/-! ## Both backends -/

variable {η : Type} [DecidableEq η]

/-- **Both backends keep the map of registrations.** Over `epoll`, in every run in which no call
is given the eventfd of the reactor, and over a completion port, in every run whose steps meet
the condition, all calls are answered as the map says, whichever calls of the kernel fail, and
outside the calls the backend holds the map. -/
theorem Registry.kept_of_faithful :
    (∀ (wakeFd : η) (s : Epoll η), (Epoll.machine wakeFd).ReachableBy Epoll.NotWake s →
      s.registry.conforming = true
        ∧ ∀ h, h ≠ s.reactor.wakeFd →
          s.reactor.interestList h = (s.registry.map h).map (fun p => (toEpoll p.1, p.2)))
    ∧ ∀ s : Iocp η, Iocp.machine.ReachableBy Iocp.Faithful s →
      s.registry.conforming = true ∧ (s.call = none → s.reactor.registered = s.registry.map) := by
  refine ⟨fun wakeFd s hs => ?_, fun s hs => ?_⟩
  · have hagrees := Epoll.agrees_of_notWake wakeFd hs
    exact ⟨hagrees.conforming, hagrees.list⟩
  · have hagrees : s.Agrees := hs.invariant Iocp.agrees_new (fun _ _ _ _ hs hfaithful hstep =>
      hs.step hfaithful hstep)
    exact ⟨hagrees.conforming, hagrees.idle⟩

namespace Iocp

/-- The kernel takes everything. -/
def allTaken : AddOutcome := ⟨some 1, .ok, 0x103⟩

/-- A handle is registered, removed and registered again; the completion of its first poll is taken
out of the port in between. -/
def addAgain : List (Label ℕ) :=
  [.add 0 .readable 7 allTaken, .remove 0, .add 0 .writable 8 allTaken,
    .complete 0 statusCancelled 0 0, .drain 1, .finish allTaken]

end Iocp

/-- It is in the map then, on both backends. -/
theorem Registry.kept_of_faithful_addAgain :
    (∃ s, (Epoll.machine 3).run (Epoll.machine 3).init
        [.add 0 .readable 7 false, .remove 0 false, .add 0 .writable 8 false] = some s
          ∧ s.reactor.interestList 0 = some (epollOut, 8))
      ∧ ∃ s, Iocp.machine.run Iocp.new Iocp.addAgain = some s
        ∧ s.reactor.registered 0 = some (.writable, 8) := by
  have hepoll : ∀ s : Epoll ℕ, (Epoll.machine 3).run (Epoll.machine 3).init
      [.add 0 .readable 7 false, .remove 0 false, .add 0 .writable 8 false] = some s →
      (Epoll.machine 3).ReachableBy Epoll.NotWake s := by
    intro s hrun
    refine Machine.ReachableBy.init.run_along
      (.cons ?_ rfl (.cons ?_ rfl (.cons ?_ rfl ?_))) hrun
    · exact Nat.zero_ne_add_one 2
    · exact Nat.zero_ne_add_one 2
    · exact Nat.zero_ne_add_one 2
    · trivial
  have hiocp : ∀ s : Iocp ℕ, Iocp.machine.run Iocp.new Iocp.addAgain = some s →
      Iocp.machine.ReachableBy Iocp.Faithful s := by
    intro s hrun
    refine Machine.ReachableBy.init.run_along (.cons ?_ rfl (.cons ?_ rfl (.cons ?_ rfl
      (.cons ?_ rfl (.cons ?_ rfl (.cons ?_ rfl ?_)))))) hrun
    · trivial
    · rintro ctx hctx
      cases hctx
      rfl
    · trivial
    · trivial
    · trivial
    · rintro c hc
      cases hc
      exact ⟨fun h => (nomatch h), fun _ => rfl⟩
    · trivial
  refine ⟨⟨_, rfl, ?_⟩, _, rfl, ?_⟩
  · exact ((Registry.kept_of_faithful.1 3 _ (hepoll _ rfl)).2 0 (by decide)).trans rfl
  · exact congrFun ((Registry.kept_of_faithful.2 _ (hiocp _ rfl)).2 rfl) 0

namespace Iocp

/-- **Calls that are not answered as the map says.** A handle is removed twice, and both calls
succeed. A `modify` returns an error, because the association failed, and the handle is not
registered any more. An `add` returns an error, because the poll was refused, and the next `add`
is refused because the handle is registered. And `epoll` lets the eventfd be removed. -/
theorem removedTwice_succeeds :
    (∃ s, machine.run new
        [.add 0 .readable 7 allTaken, .remove 0, .remove (0 : ℕ)] = some s
          ∧ s.registry.conforming = false)
      ∧ (∃ s, machine.run new
        [.add (0 : ℕ) .readable 7 allTaken, .modify 0 .writable 8, .complete 0 0 1 1, .drain 1,
          .finish ⟨some 1, .failed, 0⟩] = some s
          ∧ s.call = none ∧ s.registry.map 0 = some (.readable, 7) ∧ s.reactor.registered 0 = none)
      ∧ (∃ s, machine.run new
        [.add (0 : ℕ) .readable 7 allTaken, .remove 0, .add 0 .readable 7 allTaken,
          .complete 0 0 1 1, .drain 1, .finish ⟨some 1, .ok, 0xC0000001⟩,
          .add 0 .readable 7 allTaken] = some s
          ∧ s.registry.map 0 = none ∧ s.registry.conforming = false)
      ∧ ∃ s, (Epoll.machine 3).run (Epoll.machine 3).init [.remove (3 : ℕ) false] = some s
        ∧ s.registry.conforming = false :=
  ⟨⟨_, rfl, rfl⟩, ⟨_, rfl, rfl, rfl, rfl⟩, ⟨_, rfl, rfl, rfl⟩, _, rfl, rfl⟩

end Iocp

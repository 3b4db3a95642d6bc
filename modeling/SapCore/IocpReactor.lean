import SapCore.Machine
import SapCore.Reactor

/-!
# The reactor over I/O completion ports

On Windows the reactor polls each socket by a request to the AFD driver, whose completion
arrives as a packet in an I/O completion port. A poll is answered once. The map of registrations
is emulated: every handle that was ever added keeps its context, for the completions of its
polls refer to it; `active` says that it is registered, `pending` that a poll is outstanding.
`remove` leaves the context with a poll that the kernel is asked to cancel, and an `add` that
finds such a context takes packets out of the port until the completion of that poll is among
them, and puts back those of other handles that are registered.

Around the reactor are the port, as a queue of packets, and the kernel, as the list of the polls
it has not completed. It completes them in any order and at any time, with any status – also
with `STATUS_CANCELLED` where it was asked to – and other threads wake the reactor at any time;
both also happen while `add` takes packets out of the port. Packets are taken from the front, as
many at a time as the kernel pleases.
-/

/-- The flags of AFD polls. -/
def afdPollReceive : UInt32 := 0x0001
def afdPollSend : UInt32 := 0x0004
def afdPollDisconnect : UInt32 := 0x0008
def afdPollAbort : UInt32 := 0x0010
def afdPollLocalClose : UInt32 := 0x0020
def afdPollAccept : UInt32 := 0x0080
def afdPollConnectFail : UInt32 := 0x0100

/-- `kStatusCancelled`. -/
def statusCancelled : UInt32 := 0xC0000120

/-- `to_afd`. -/
def toAfd (e : EventFlags) : UInt32 :=
  (if e.has .readable then afdPollReceive ||| afdPollAccept ||| afdPollDisconnect ||| afdPollAbort
    else 0)
    ||| (if e.has .writable then afdPollSend ||| afdPollConnectFail else 0)

/-- `from_afd`. -/
def fromAfd (flags : UInt32) : EventFlags :=
  (if flags &&& (afdPollReceive ||| afdPollAccept) != 0 then .readable else .none)
    ||| (if flags &&& afdPollSend != 0 then .writable else .none)
    ||| (if flags &&& (afdPollDisconnect ||| afdPollLocalClose) != 0 then .hangUp else .none)
    ||| (if flags &&& (afdPollAbort ||| afdPollConnectFail) != 0 then .error else .none)

/-- A packet in the port: a wake, or the completion of a poll of a handle's context. -/
inductive Packet (η : Type) where
  | wake
  | completion (h : η)
  deriving DecidableEq, Repr

/-- **`AfdPollContext`.** -/
structure AfdPollContext where
  /-- `overlapped.Internal`. -/
  status : UInt32
  /-- `in_buf.Handles[0].Events`. -/
  polled : UInt32
  /-- `out_buf.NumberOfHandles`. -/
  numberOfHandles : UInt32
  /-- `out_buf.Handles[0].Events`. -/
  fired : UInt32
  userToken : UInt64
  baseHandle : UInt64
  interest : EventFlags
  active : Bool
  pending : Bool
  deriving DecidableEq, Repr

/-- How `CreateIoCompletionPort` ends. -/
inductive Association where
  | ok
  /-- `ERROR_INVALID_PARAMETER`: the handle is associated already. -/
  | invalidParameter
  | failed
  deriving DecidableEq, Repr

/-- **How the kernel takes an `add`**: the base handle of the socket, if there is one, how the
association ends, and the status of the request. -/
structure AddOutcome where
  base : Option UInt64
  association : Association
  status : UInt32

/-- The request was taken: `STATUS_SUCCESS`, or `STATUS_PENDING`. -/
def AddOutcome.submitted (k : AddOutcome) : Bool := k.status == 0 || k.status == 0x103

/-- **`Reactor`, its port, and the polls the kernel has not completed.** -/
structure IocpReactor (η : Type) where
  contexts : η → Option AfdPollContext
  queue : List (Packet η)
  inFlight : List η

namespace IocpReactor

variable {η : Type}

/-- `create`. -/
def create : IocpReactor η := ⟨fun _ => none, [], []⟩

variable [DecidableEq η]

/-- Write to the context of a handle. -/
def modifyContext (r : IocpReactor η) (h : η) (f : AfdPollContext → AfdPollContext) :
    IocpReactor η :=
  { r with contexts := Function.update r.contexts h ((r.contexts h).map f) }

/-- Write to `pending`. -/
def setPending (r : IocpReactor η) (h : η) (b : Bool) : IocpReactor η :=
  r.modifyContext h (fun c => { c with pending := b })

/-- The handle is not registered any more. -/
def deactivate (r : IocpReactor η) (h : η) : IocpReactor η :=
  r.modifyContext h (fun c => { c with active := false })

/-- A handle gets its context. -/
def emplace (r : IocpReactor η) (h : η) (ctx : AfdPollContext) : IocpReactor η :=
  { r with contexts := Function.update r.contexts h (some ctx) }

/-- `submit_poll`. -/
def submitPoll (r : IocpReactor η) (h : η) (k : AddOutcome) :
    Option ReactorError × IocpReactor η :=
  let r := r.modifyContext h (fun c => { c with status := 0, polled := toAfd c.interest })
  if k.submitted then
    (none, { r.setPending h true with inFlight := r.inFlight ++ [h] })
  else (some (.poll k.status), r)

/-- `add` of a handle that has no context. -/
def register (r : IocpReactor η) (h : η) (interest : EventFlags) (token : UInt64)
    (k : AddOutcome) : Option ReactorError × IocpReactor η :=
  match k.base with
  | none => (some .baseHandle, r)
  | some base =>
    if k.association ≠ .ok then (some .associate, r)
    else
      match (r.emplace h ⟨0, 0, 0, 0, token, base, interest, true, false⟩).submitPoll h k with
      | (none, r) => (none, r)
      | (some e, r) => (some e, r.deactivate h)

/-- `add` of a handle whose context is not active, after its completion was taken out of the
port. -/
def reRegister (r : IocpReactor η) (h : η) (interest : EventFlags) (token : UInt64)
    (k : AddOutcome) : Option ReactorError × IocpReactor η :=
  match k.base with
  | none => (some .baseHandle, r)
  | some base =>
    let r := r.modifyContext h (fun c => { c with baseHandle := base })
    if k.association = .failed then (some .associate, r)
    else
      (r.modifyContext h (fun c =>
        { c with interest := interest, userToken := token, active := true })).submitPoll h k

/-- A packet that `add` of `h` has taken out of the port. -/
def drainEntry (h : η) (r : IocpReactor η) : Packet η → IocpReactor η
  | .wake => r
  | .completion c =>
    match r.contexts c with
    | none => r
    | some ctx =>
      if c = h ∨ ctx.active = false then r.setPending c false
      else { r with queue := r.queue ++ [.completion c] }

/-- A turn of the loop in `add`, with so many packets. -/
def drain (r : IocpReactor η) (h : η) (n : ℕ) : IocpReactor η :=
  (r.queue.take n).foldl (drainEntry h) { r with queue := r.queue.drop n }

/-- `remove` of a handle that has a context. If a poll is pending the kernel is asked to cancel it
(`cancel_poll`), which changes nothing here. -/
def remove (r : IocpReactor η) (h : η) : IocpReactor η := r.deactivate h

/-- A packet that `wait` has taken out of the port. -/
def waitEntry (acc : IocpReactor η × List (η × Trigger)) :
    Packet η → IocpReactor η × List (η × Trigger)
  | .wake => acc
  | .completion c =>
    match acc.1.contexts c with
    | none => acc
    | some ctx =>
      if ctx.pending = false then acc
      else
        let r := acc.1.setPending c false
        if ctx.active = false then (r, acc.2)
        else if ctx.status = statusCancelled then (r, acc.2)
        else
          let fired := if ctx.numberOfHandles ≥ 1 then ctx.fired else 0
          let events := if ctx.status = 0 then fromAfd fired else .error
          (r, acc.2 ++ [(c, ⟨events, ctx.userToken⟩)])

/-- `wait`, where so many packets are taken out of the port. -/
def wait (r : IocpReactor η) (n : ℕ) : IocpReactor η × List (η × Trigger) :=
  (r.queue.take n).foldl waitEntry ({ r with queue := r.queue.drop n }, [])

/-- `wake`. -/
def wake (r : IocpReactor η) : IocpReactor η := { r with queue := r.queue ++ [.wake] }

/-- **The kernel completes a poll**: it writes the result to the context and posts the packet. -/
def complete (r : IocpReactor η) (h : η) (status numberOfHandles fired : UInt32) : IocpReactor η :=
  { r.modifyContext h (fun c =>
      { c with status := status, numberOfHandles := numberOfHandles, fired := fired }) with
    queue := r.queue ++ [.completion h]
    inFlight := r.inFlight.erase h }

end IocpReactor

/-- An `add`, or the second half of a `modify`, that re-registers a handle. -/
structure ReRegistration (η : Type) where
  handle : η
  interest : EventFlags
  token : UInt64
  /-- The call is `modify`. -/
  modify : Bool

/-- The call it is part of. -/
def ReRegistration.call {η : Type} (c : ReRegistration η) : ReactorCall η :=
  if c.modify then .modify c.handle c.interest c.token else .add c.handle c.interest c.token

/-- **A reactor over a completion port, and its registrations.** -/
structure Iocp (η : Type) where
  reactor : IocpReactor η
  /-- The call that is in the loop of `add`. -/
  call : Option (ReRegistration η)
  registry : Registry η

namespace Iocp

variable {η : Type}

/-- What is done to the reactor, by its thread, by others and by the kernel. -/
inductive Label (η : Type) where
  /-- `add`, up to its loop; the outcome is that of a handle that has no context. -/
  | add (handle : η) (interest : EventFlags) (token : UInt64) (k : AddOutcome)
  /-- `modify`, up to the loop. -/
  | modify (handle : η) (interest : EventFlags) (token : UInt64)
  | remove (handle : η)
  /-- A turn of the loop of `add`, in which so many packets are taken out of the port. -/
  | drain (n : ℕ)
  /-- `GetQueuedCompletionStatusEx` fails or times out in the loop, and `add` goes on. -/
  | drainFails (k : AddOutcome)
  /-- No poll is pending any more, and `add` goes on. -/
  | finish (k : AddOutcome)
  /-- `wait` with room for so many triggers; so many packets are taken out of the port. -/
  | wait (room n : ℕ)
  /-- `GetQueuedCompletionStatusEx` times out, or fails. -/
  | waitFails (timedOut : Bool)
  /-- Some thread calls `wake`. -/
  | wake
  /-- The kernel completes a poll. -/
  | complete (handle : η) (status numberOfHandles fired : UInt32)

/-- A new reactor. -/
def new : Iocp η := ⟨.create, none, .new⟩

/-- The poll of the handle that is re-registered is pending. -/
def pending (s : Iocp η) (c : ReRegistration η) : Bool :=
  ((s.reactor.contexts c.handle).map AfdPollContext.pending).getD false

variable [DecidableEq η]

/-- A call is answered. -/
def answer (s : Iocp η) (call : ReactorCall η) (r : Option ReactorError × IocpReactor η) : Iocp η :=
  ⟨r.2, none, s.registry.record call (.ofError r.1)⟩

/-- `add` goes on after its loop. -/
def finish (s : Iocp η) (c : ReRegistration η) (k : AddOutcome) : Iocp η :=
  s.answer c.call (s.reactor.reRegister c.handle c.interest c.token k)

/-- A step of the thread that makes the calls, outside the loop of `add`. -/
def callStep (s : Iocp η) : Label η → Option (Iocp η)
  | .add h interest token k =>
    match s.reactor.contexts h with
    | none => some (s.answer (.add h interest token) (s.reactor.register h interest token k))
    | some ctx =>
      if ctx.active then some (s.answer (.add h interest token) (some .alreadyRegistered, s.reactor))
      else some { s with call := some ⟨h, interest, token, false⟩ }
  | .modify h interest token =>
    match s.reactor.contexts h with
    | none => some (s.answer (.modify h interest token) (some .notRegistered, s.reactor))
    | some _ =>
      some { s with reactor := s.reactor.remove h, call := some ⟨h, interest, token, true⟩ }
  | .remove h =>
    match s.reactor.contexts h with
    | none => some (s.answer (.remove h) (some .notRegistered, s.reactor))
    | some _ => some (s.answer (.remove h) (none, s.reactor.remove h))
  | .wait room n =>
    if n ≤ min room maxEventsPerWait ∧ n ≤ s.reactor.queue.length ∧ (n = 0 → room = 0) then
      some ⟨(s.reactor.wait n).1, none,
        s.registry.record .wait (.triggers (s.reactor.wait n).2)⟩
    else none
  | .waitFails timedOut =>
    some ⟨s.reactor, none,
      s.registry.record .wait (if timedOut then .triggers [] else .error .wait)⟩
  | _ => none

/-- A step of the thread in the loop of `add`. -/
def loopStep (s : Iocp η) (c : ReRegistration η) : Label η → Option (Iocp η)
  | .drain n =>
    if s.pending c ∧ 0 < n ∧ n ≤ maxEventsPerWait ∧ n ≤ s.reactor.queue.length then
      some { s with reactor := s.reactor.drain c.handle n }
    else none
  | .drainFails k => if s.pending c then some (s.finish c k) else none
  | .finish k => if s.pending c then none else some (s.finish c k)
  | _ => none

/-- **One step.** -/
def step (s : Iocp η) (label : Label η) : Option (Iocp η) :=
  match label with
  | .wake => some { s with reactor := s.reactor.wake }
  | .complete h status numberOfHandles fired =>
    if h ∈ s.reactor.inFlight then
      some { s with reactor := s.reactor.complete h status numberOfHandles fired }
    else none
  | label =>
    match s.call with
    | none => s.callStep label
    | some c => s.loopStep c label

/-- The reactor as a machine. -/
def machine : Machine (Iocp η) (Label η) := ⟨new, step⟩

/-! ## What a step does -/

variable {s s' : Iocp η} {label : Label η}

/-- **What a step does to the reactor and to the call that is in its loop.** -/
inductive Effect (s : Iocp η) : Label η → IocpReactor η → Option (ReRegistration η) → Prop where
  /-- A call is answered and nothing changes. -/
  | answered {label : Label η} : s.call = none → (∀ room n, label ≠ .wait room n) →
      Effect s label s.reactor none
  | registered {h : η} {interest : EventFlags} {token : UInt64} {k : AddOutcome} :
      s.call = none → s.reactor.contexts h = none →
      Effect s (.add h interest token k) (s.reactor.register h interest token k).2 none
  | entered {h : η} {interest : EventFlags} {token : UInt64} {k : AddOutcome}
      {ctx : AfdPollContext} :
      s.call = none → s.reactor.contexts h = some ctx → ctx.active = false →
      Effect s (.add h interest token k) s.reactor (some ⟨h, interest, token, false⟩)
  | modified {h : η} {interest : EventFlags} {token : UInt64} {ctx : AfdPollContext} :
      s.call = none → s.reactor.contexts h = some ctx →
      Effect s (.modify h interest token) (s.reactor.remove h) (some ⟨h, interest, token, true⟩)
  | removed {h : η} : s.call = none → Effect s (.remove h) (s.reactor.remove h) none
  | waited {room n : ℕ} : s.call = none → Effect s (.wait room n) (s.reactor.wait n).1 none
  | drained {c : ReRegistration η} {n : ℕ} : s.call = some c →
      Effect s (.drain n) (s.reactor.drain c.handle n) (some c)
  /-- The call goes on after its loop, or gives it up. -/
  | finished {c : ReRegistration η} {k : AddOutcome} {label : Label η} : s.call = some c →
      (label = .finish k ∧ s.pending c = false ∨ label = .drainFails k) →
      Effect s label (s.reactor.reRegister c.handle c.interest c.token k).2 none
  | woken : Effect s .wake s.reactor.wake s.call
  | completed {h : η} {status numberOfHandles fired : UInt32} : h ∈ s.reactor.inFlight →
      Effect s (.complete h status numberOfHandles fired)
        (s.reactor.complete h status numberOfHandles fired) s.call

theorem effect_of_callStep (hidle : s.call = none) (h : s.callStep label = some s') :
    Effect s label s'.reactor s'.call := by
  cases label with
  | add k interest token a =>
    simp only [callStep] at h
    split at h
    · rename_i hctx
      cases h
      exact .registered hidle hctx
    · rename_i ctx hctx
      split at h
      · cases h
        exact .answered hidle (by simp)
      · rename_i hactive
        cases h
        exact .entered hidle hctx (Bool.eq_false_iff.mpr hactive)
  | modify k interest token =>
    simp only [callStep] at h
    split at h
    · cases h
      exact .answered hidle (by simp)
    · rename_i hctx
      cases h
      exact .modified hidle hctx
  | remove k =>
    simp only [callStep] at h
    split at h
    · cases h
      exact .answered hidle (by simp)
    · cases h
      exact .removed hidle
  | wait room n =>
    simp only [callStep, Option.ite_none_right_eq_some] at h
    obtain ⟨-, h⟩ := h
    cases h
    exact .waited hidle
  | waitFails timedOut =>
    cases h
    exact .answered hidle (by simp)
  | _ => cases h

theorem effect_of_step (h : s.step label = some s') : Effect s label s'.reactor s'.call := by
  unfold step at h
  split at h
  · cases h
    exact .woken
  · rw [Option.ite_none_right_eq_some] at h
    obtain ⟨hmem, h⟩ := h
    cases h
    exact .completed hmem
  · split at h
    · rename_i hidle
      exact effect_of_callStep hidle h
    · rename_i c hcall
      unfold loopStep at h
      split at h
      · rw [Option.ite_none_right_eq_some] at h
        obtain ⟨-, h⟩ := h
        cases h
        rw [hcall]
        exact .drained hcall
      · rw [Option.ite_none_right_eq_some] at h
        obtain ⟨-, h⟩ := h
        cases h
        exact .finished hcall (.inr rfl)
      · rw [Option.ite_none_left_eq_some] at h
        obtain ⟨hpending, h⟩ := h
        cases h
        exact .finished hcall (.inl ⟨rfl, Bool.eq_false_iff.mpr hpending⟩)
      · cases h

end Iocp

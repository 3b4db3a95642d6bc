import SapCore.IocpArmed

/-!
# Reactors that are moved and destroyed

What a `Reactor` object holds on Windows is a completion port and the contexts of its handles.
Moves pass both on as they are, and leave an object with no port and no contexts behind; what
the target of a move-assignment held is destroyed. The destructor stops watching all handles
and takes completions out of the port until no poll is pending, and then deletes the contexts –
also if the port has nothing for it within a second.

A socket is associated with one port, from the first time on until it is closed, and its
completions go there. `add` of a handle that has a context takes `ERROR_INVALID_PARAMETER` to
mean that the socket is associated with its own port. The value of a handle may since have
become that of another socket, which is associated with the port of another reactor: then the
completion of the poll goes astray, with the key of the context that the other reactor has for
the handle.

An object that was moved from may be used again. Its `add` passes no port to
`CreateIoCompletionPort`, which makes one that nobody knows; taking completions out of no port
fails.
-/

/-- **What a `Reactor` object holds.** -/
structure ReactorCore (η : Type) where
  /-- `m_iocp` is not null. -/
  port : Bool
  iocp : Iocp η
  /-- The keys of `m_contexts`. -/
  handles : List η
  /-- The destructor is in its loop. -/
  closing : Bool

/-- A poll in flight whose completion will go to the port of another reactor. -/
structure StrayPoll (π η : Type) where
  owner : π
  handle : η
  target : π
  deriving DecidableEq

/-- **Reactors**: what each object holds, what there is to hold and what there ever was, the port
that the socket of a handle is associated with, and the polls that will go astray. -/
structure IocpReactors (ν π η : Type) where
  object : ν → Option π
  core : π → Option (ReactorCore η)
  made : List π
  association : η → Option π
  strays : List (StrayPoll π η)

namespace ReactorCore

variable {η : Type}

/-- What `create` makes. -/
def new : ReactorCore η := ⟨true, .new, [], false⟩

/-- What a move leaves behind. -/
def movedFrom : ReactorCore η := ⟨false, .new, [], false⟩

/-- The contexts. -/
abbrev reactor (c : ReactorCore η) : IocpReactor η := c.iocp.reactor

/-- The reactor is written. -/
def setReactor (c : ReactorCore η) (r : IocpReactor η) : ReactorCore η :=
  { c with iocp := { c.iocp with reactor := r } }

/-- The call may be made with the port there is: none takes completions out of no port. -/
def Usable (c : ReactorCore η) : Iocp.Label η → Bool
  | .drain _ => c.port
  | .wait room _ => c.port || room == 0
  | .wake => c.port
  | .complete .. => false
  | _ => true

/-- **Where a step asks for an association**: for which handle, and how the kernel takes it. -/
def asks (c : ReactorCore η) : Iocp.Label η → Option (η × AddOutcome)
  | .add h _ _ k => if (c.reactor.contexts h).isNone ∧ k.base ≠ none then some (h, k) else none
  | .finish k => if k.base ≠ none then c.iocp.call.map (fun r => (r.handle, k)) else none
  | .drainFails k => if k.base ≠ none then c.iocp.call.map (fun r => (r.handle, k)) else none
  | _ => none

/-- **Where a step calls `submit_poll`**: a new context asks for its association and gets it; one
that is there goes on unless the association failed for another reason. -/
def submits (c : ReactorCore η) (label : Iocp.Label η) : Option (η × AddOutcome) :=
  match label with
  | .add _ _ _ _ => (c.asks label).filter (fun a => a.2.association = .ok)
  | .finish _ => (c.asks label).filter (fun a => a.2.association ≠ .failed)
  | .drainFails _ => (c.asks label).filter (fun a => a.2.association ≠ .failed)
  | _ => none

/-- Some poll is pending. -/
def anyPending (c : ReactorCore η) : Bool := c.handles.any c.reactor.polling

/-- The destructor stops watching everything. The kernel is asked to cancel the polls that are
pending, which changes nothing here. -/
def stopWatching (c : ReactorCore η) : ReactorCore η :=
  { c.setReactor { c.reactor with
      contexts := fun h => (c.reactor.contexts h).map (fun ctx => { ctx with active := false }) }
    with closing := true }

variable [DecidableEq η]

/-- A packet that the destructor has taken out of the port. -/
def closeEntry (r : IocpReactor η) : Packet η → IocpReactor η
  | .wake => r
  | .completion h => r.setPending h false

/-- A turn of the loop of the destructor, with so many packets. -/
def closeTurn (c : ReactorCore η) (n : ℕ) : ReactorCore η :=
  c.setReactor ((c.reactor.queue.take n).foldl closeEntry
    { c.reactor with queue := c.reactor.queue.drop n })

/-- The keys, after a call. -/
def handlesAfter (c : ReactorCore η) (iocp : Iocp η) : Iocp.Label η → List η
  | .add h _ _ _ =>
    if (iocp.reactor.contexts h).isSome ∧ h ∉ c.handles then c.handles ++ [h] else c.handles
  | _ => c.handles

end ReactorCore

namespace IocpReactors

variable {ν π η : Type}

/-- What is done to the reactors, by their threads, by the kernel and to the sockets. -/
inductive Label (ν π η : Type) where
  /-- `create`. -/
  | create (x : ν) (p : π)
  /-- `x` is made from `y`, which is left with `p`. -/
  | moveConstruct (x y : ν) (p : π)
  /-- `x = std::move(y)`, and `y` is left with `p`; up to the loop that destroys what `x` held. -/
  | moveAssign (x y : ν) (p : π)
  /-- `~Reactor`, up to its loop. -/
  | destroy (x : ν)
  /-- A step of a call of `x`, or of a thread that wakes it. -/
  | call (x : ν) (label : Iocp.Label η)
  /-- A turn of the loop of the destructor, in which so many packets are taken out of the port. -/
  | closeTurn (p : π) (n : ℕ)
  /-- `GetQueuedCompletionStatusEx` fails or times out in that loop, and the contexts are
  deleted. -/
  | closeGivesUp (p : π)
  /-- No poll is pending any more, and the contexts are deleted. -/
  | closeEnds (p : π)
  /-- The kernel completes a poll. -/
  | complete (p : π) (handle : η) (status numberOfHandles fired : UInt32)
  /-- The kernel completes a poll that goes astray. -/
  | completeStray (poll : StrayPoll π η) (status numberOfHandles fired : UInt32)
  /-- A socket is closed, and another is opened whose handle has the same value. -/
  | reopen (handle : η)

/-- No reactors. -/
def new : IocpReactors ν π η := ⟨fun _ => none, fun _ => none, [], fun _ => none, []⟩

section Calls

variable [DecidableEq π] [DecidableEq η]

/-- What there is to hold is written. -/
def setCore (s : IocpReactors ν π η) (p : π) (c : Option (ReactorCore η)) :
    IocpReactors ν π η :=
  { s with core := Function.update s.core p c }

/-- **`CreateIoCompletionPort` tells the truth**: it succeeds for a socket that has no association,
and says `ERROR_INVALID_PARAMETER` for one that has. -/
def Truthful (s : IocpReactors ν π η) (c : ReactorCore η) (label : Iocp.Label η) : Bool :=
  match c.asks label with
  | some (h, k) => (k.association ≠ .ok || (s.association h).isNone)
    && (k.association ≠ .invalidParameter || (s.association h).isSome)
  | none => true

/-- The associations, after a call. -/
def associationAfter (s : IocpReactors ν π η) (p : π) (c : ReactorCore η)
    (label : Iocp.Label η) : η → Option π :=
  match c.asks label with
  | some (h, k) =>
    if k.association = .ok then Function.update s.association h (some p) else s.association
  | none => s.association

/-- **The poll of a call goes astray** if the socket is associated with another port. -/
def stray (s : IocpReactors ν π η) (p : π) (c : ReactorCore η) (label : Iocp.Label η) :
    Option (StrayPoll π η) :=
  match c.submits label with
  | some (h, k) =>
    match s.associationAfter p c label h with
    | some q => if q ≠ p ∧ k.submitted then some ⟨p, h, q⟩ else none
    | none => none
  | none => none

/-- What a call leaves; a poll that goes astray is none of those that come to the own port. -/
def afterCall (s : IocpReactors ν π η) (p : π) (c : ReactorCore η) (label : Iocp.Label η)
    (iocp : Iocp η) : IocpReactors ν π η :=
  let c' : ReactorCore η := { c with iocp := iocp, handles := c.handlesAfter iocp label }
  let s' := { s with association := s.associationAfter p c label }
  match s.stray p c label with
  | none => s'.setCore p (some c')
  | some poll =>
    { s'.setCore p (some (c'.setReactor { c'.reactor with inFlight := c.reactor.inFlight })) with
      strays := s.strays ++ [poll] }

/-- A step of a call. -/
def callStep (s : IocpReactors ν π η) (p : π) (label : Iocp.Label η) :
    Option (IocpReactors ν π η) :=
  match s.core p with
  | none => none
  | some c =>
    if c.Usable label ∧ s.Truthful c label then
      (c.iocp.step label).map (s.afterCall p c label)
    else none

/-- **The destructor**, up to its loop. Without a port the contexts are forgotten. -/
def close (s : IocpReactors ν π η) (p : π) : Option (IocpReactors ν π η) :=
  match s.core p with
  | none => none
  | some c =>
    if c.iocp.call.isSome then none
    else some (s.setCore p (if c.port then some c.stopWatching else none))

/-- A step of the loop of the destructor. -/
def closing (s : IocpReactors ν π η) (p : π) (pending : Bool)
    (f : ReactorCore η → Option (Option (ReactorCore η))) : Option (IocpReactors ν π η) :=
  match s.core p with
  | none => none
  | some c =>
    if c.closing ∧ c.anyPending = pending then (f c).map (s.setCore p) else none

/-- The kernel completes a poll that goes astray: it writes the result to the context, and posts
the packet to the other port. -/
def completeStray (s : IocpReactors ν π η) (poll : StrayPoll π η)
    (status numberOfHandles fired : UInt32) : IocpReactors ν π η :=
  let s := { s with strays := s.strays.erase poll }
  let s := s.setCore poll.owner ((s.core poll.owner).map (fun c =>
    c.setReactor (c.reactor.modifyContext poll.handle (fun ctx =>
      { ctx with status := status, numberOfHandles := numberOfHandles, fired := fired }))))
  s.setCore poll.target ((s.core poll.target).map (fun c =>
    c.setReactor { c.reactor with queue := c.reactor.queue ++ [.completion poll.handle] }))

end Calls

variable [DecidableEq ν] [DecidableEq π] [DecidableEq η]

/-- An object is written. -/
def setObject (s : IocpReactors ν π η) (x : ν) (p : Option π) : IocpReactors ν π η :=
  { s with object := Function.update s.object x p }

/-- An object is made, or left, with something new. -/
def give (s : IocpReactors ν π η) (x : ν) (p : π) (c : ReactorCore η) : IocpReactors ν π η :=
  { (s.setObject x (some p)).setCore p (some c) with made := p :: s.made }

/-- `x` takes over what `y` holds, and `y` is left with `p`. -/
def passOn (s : IocpReactors ν π η) (x y : ν) (p : π) : IocpReactors ν π η :=
  (s.setObject x (s.object y)).give y p .movedFrom

/-- **One step.** -/
def step (s : IocpReactors ν π η) : Label ν π η → Option (IocpReactors ν π η)
  | .create x p =>
    if (s.object x).isNone ∧ p ∉ s.made then some (s.give x p .new) else none
  | .moveConstruct x y p =>
    if (s.object x).isNone ∧ (s.object y).isSome ∧ p ∉ s.made then some (s.passOn x y p)
    else none
  | .moveAssign x y p =>
    match s.object x with
    | none => none
    | some q =>
      if (s.object y).isSome ∧ p ∉ s.made then
        if x = y then some s else (s.passOn x y p).close q
      else none
  | .destroy x =>
    match s.object x with
    | none => none
    | some p => (s.setObject x none).close p
  | .call x label =>
    match s.object x with
    | none => none
    | some p => s.callStep p label
  | .closeTurn p n =>
    s.closing p true (fun c =>
      if 0 < n ∧ n ≤ maxEventsPerWait ∧ n ≤ c.reactor.queue.length then some (some (c.closeTurn n))
      else none)
  | .closeGivesUp p => s.closing p true (fun _ => some none)
  | .closeEnds p => s.closing p false (fun _ => some none)
  | .complete p h status numberOfHandles fired =>
    match s.core p with
    | none => none
    | some c => (c.iocp.step (.complete h status numberOfHandles fired)).map (fun iocp =>
      s.setCore p (some { c with iocp := iocp }))
  | .completeStray poll status numberOfHandles fired =>
    if poll ∈ s.strays then some (s.completeStray poll status numberOfHandles fired) else none
  | .reopen h => some { s with association := Function.update s.association h none }

/-- **Reactors as a machine.** -/
def machine : Machine (IocpReactors ν π η) (Label ν π η) := ⟨new, step⟩

end IocpReactors

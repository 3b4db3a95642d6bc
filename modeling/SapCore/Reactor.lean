import Mathlib.Data.Nat.Notation
import Mathlib.Logic.Function.Basic

/-!
# The registrations of a reactor

A `Reactor` watches handles: `add` registers one with the events of interest and a token,
`modify` replaces both, `remove` ends the registration, and `wait` reports triggers, each with
the token of its handle. There are two backends. What they have in common is that the calls and
their replies describe a map from handles to registrations; `Registry` is that map, as the
replies make it, together with a record of whether every reply was what the map calls for.
-/

/-- `Event`, a set of flags. -/
abbrev EventFlags : Type := UInt8

namespace EventFlags

def none : EventFlags := 0
def readable : EventFlags := 1
def writable : EventFlags := 2
def error : EventFlags := 4
def hangUp : EventFlags := 8

/-- `has`. -/
def has (whole bits : EventFlags) : Bool := whole &&& bits != 0

end EventFlags

/-- `MAX_EVENTS_PER_WAIT`. -/
def maxEventsPerWait : ℕ := 64

/-- `Trigger`. -/
structure Trigger where
  events : EventFlags
  userToken : UInt64
  deriving DecidableEq, Repr

/-- Why a call returns an error. -/
inductive ReactorError where
  /-- `Reactor::add: handle already registered`, or `epoll_ctl(ADD)` with `EEXIST`. -/
  | alreadyRegistered
  /-- `Reactor::remove: handle not registered`, or `epoll_ctl` with `ENOENT`. -/
  | notRegistered
  /-- `epoll_ctl` failed for another reason. -/
  | epollCtl
  /-- `WSAIoctl(SIO_BASE_HANDLE) failed`. -/
  | baseHandle
  /-- `CreateIoCompletionPort(associate) failed`. -/
  | associate
  /-- `NtDeviceIoControlFile(IOCTL_AFD_POLL) failed`, with this status. -/
  | poll (status : UInt32)
  /-- `epoll_wait failed`, or `GetQueuedCompletionStatusEx failed`. -/
  | wait
  deriving DecidableEq, Repr

/-- A call. -/
inductive ReactorCall (η : Type) where
  | add (handle : η) (interest : EventFlags) (token : UInt64)
  | modify (handle : η) (interest : EventFlags) (token : UInt64)
  | remove (handle : η)
  | wait

/-- What a call returns; beside each trigger stands the handle it is of. -/
inductive ReactorReply (η : Type) where
  | ok
  | error (e : ReactorError)
  | triggers (ts : List (η × Trigger))

/-- The reply to a call that may fail. -/
def ReactorReply.ofError {η : Type} : Option ReactorError → ReactorReply η
  | none => .ok
  | some e => .error e

/-- **The map of registrations**, as the replies make it. -/
structure Registry (η : Type) where
  map : η → Option (EventFlags × UInt64)
  /-- Every reply was what the map called for. -/
  conforming : Bool

namespace Registry

variable {η : Type}

/-- Nothing is registered. -/
def new : Registry η := ⟨fun _ => none, true⟩

/-- **What the map calls for.** A call that registers or removes a handle succeeds only where the
handle is not, or is, in the map, and is refused only in the other case; it may fail for reasons
of the kernel at any time. A trigger has the token its handle is registered with. -/
def conforms (r : Registry η) : ReactorCall η → ReactorReply η → Bool
  | .add h _ _, .ok => (r.map h).isNone
  | .add h _ _, .error .alreadyRegistered => (r.map h).isSome
  | .modify h _ _, .ok => (r.map h).isSome
  | .modify h _ _, .error .notRegistered => (r.map h).isNone
  | .remove h, .ok => (r.map h).isSome
  | .remove h, .error .notRegistered => (r.map h).isNone
  | .wait, .triggers ts => ts.all (fun t => (r.map t.1).map Prod.snd == some t.2.userToken)
  | .wait, .error _ => true
  | .add _ _ _, .error .epollCtl => true
  | .add _ _ _, .error .baseHandle => true
  | .add _ _ _, .error .associate => true
  | .add _ _ _, .error (.poll _) => true
  | .modify _ _ _, .error .epollCtl => true
  | .modify _ _ _, .error .baseHandle => true
  | .modify _ _ _, .error .associate => true
  | .modify _ _ _, .error (.poll _) => true
  | .remove _, .error .epollCtl => true
  | _, _ => false

variable [DecidableEq η]

/-- What a reply does to the map: an error leaves it unchanged. -/
def after (r : Registry η) : ReactorCall η → ReactorReply η → η → Option (EventFlags × UInt64)
  | .add h interest token, .ok => Function.update r.map h (some (interest, token))
  | .modify h interest token, .ok => Function.update r.map h (some (interest, token))
  | .remove h, .ok => Function.update r.map h none
  | _, _ => r.map

/-- A call is answered. -/
def record (r : Registry η) (call : ReactorCall η) (reply : ReactorReply η) : Registry η :=
  ⟨r.after call reply, r.conforming && r.conforms call reply⟩

end Registry

import SapCore.Machine
import SapCore.Reactor

/-!
# The reactor over `epoll`

The map of registrations is the interest list of the `epoll` instance, kept by the kernel.
`create` puts the eventfd of `wake` on it, under the token `WAKE_TOKEN`, and the functions of the
reactor hand every handle to `epoll_ctl` without looking at it. So the interest list is the map
of registrations and one entry more, and the calls are answered as the map says as long as none
of them is given that eventfd (`Epoll.agrees_of_notWake`).

`epoll_ctl` behaves as documented: it refuses to add what is on the list and to change or
delete what is not, and may fail for other reasons, with no effect.
-/

/-- `EPOLLIN`, `EPOLLOUT`, `EPOLLERR` and `EPOLLHUP`. -/
def epollIn : UInt32 := 0x001
def epollOut : UInt32 := 0x004
def epollErr : UInt32 := 0x008
def epollHup : UInt32 := 0x010

/-- `WAKE_TOKEN`. -/
def wakeToken : UInt64 := 0xffffffffffffffff

/-- `to_epoll`. -/
def toEpoll (e : EventFlags) : UInt32 :=
  (if e.has .readable then epollIn else 0) ||| (if e.has .writable then epollOut else 0)

/-- `from_epoll`. -/
def fromEpoll (ev : UInt32) : EventFlags :=
  (if ev &&& epollIn != 0 then .readable else .none)
    ||| (if ev &&& epollOut != 0 then .writable else .none)
    ||| (if ev &&& epollErr != 0 then .error else .none)
    ||| (if ev &&& epollHup != 0 then .hangUp else .none)

/-- **`Reactor`, over `epoll`.** -/
structure EpollReactor (η : Type) where
  /-- The interest list of the kernel: events and data of each handle on it. -/
  interestList : η → Option (UInt32 × UInt64)
  wakeFd : η
  /-- The counter of the eventfd. -/
  wakes : ℕ

namespace EpollReactor

variable {η : Type} [DecidableEq η]

/-- `create`. -/
def create (wakeFd : η) : EpollReactor η :=
  ⟨fun h => if h = wakeFd then some (epollIn, wakeToken) else none, wakeFd, 0⟩

/-- An operation of `epoll_ctl`. -/
inductive Ctl where
  | add
  | mod
  | del

/-- **`epoll_ctl`**; where `fails` it fails for a reason of its own. -/
def epollCtl (r : EpollReactor η) (op : Ctl) (fd : η) (ev : UInt32 × UInt64) (fails : Bool) :
    Option ReactorError × EpollReactor η :=
  if fails then (some .epollCtl, r)
  else
    match op, r.interestList fd with
    | .add, none => (none, { r with interestList := Function.update r.interestList fd (some ev) })
    | .add, some _ => (some .alreadyRegistered, r)
    | .mod, some _ => (none, { r with interestList := Function.update r.interestList fd (some ev) })
    | .mod, none => (some .notRegistered, r)
    | .del, some _ => (none, { r with interestList := Function.update r.interestList fd none })
    | .del, none => (some .notRegistered, r)

/-- `add`. -/
def add (r : EpollReactor η) (handle : η) (interest : EventFlags) (token : UInt64) (fails : Bool) :
    Option ReactorError × EpollReactor η :=
  r.epollCtl .add handle (toEpoll interest, token) fails

/-- `modify`. -/
def modify (r : EpollReactor η) (handle : η) (interest : EventFlags) (token : UInt64)
    (fails : Bool) : Option ReactorError × EpollReactor η :=
  r.epollCtl .mod handle (toEpoll interest, token) fails

/-- `remove`. -/
def remove (r : EpollReactor η) (handle : η) (fails : Bool) :
    Option ReactorError × EpollReactor η :=
  r.epollCtl .del handle (0, 0) fails

/-- One event of a batch: the eventfd is drained, the others are reported. -/
def dispatch (acc : EpollReactor η × List (η × Trigger)) (event : η × UInt32) :
    EpollReactor η × List (η × Trigger) :=
  match acc.1.interestList event.1 with
  | none => acc
  | some (_, data) =>
    if data = wakeToken then ({ acc.1 with wakes := 0 }, acc.2)
    else (acc.1, acc.2 ++ [(event.1, ⟨fromEpoll event.2, data⟩)])

/-- `wait`, where `epoll_wait` returns these events. -/
def wait (r : EpollReactor η) (events : List (η × UInt32)) :
    EpollReactor η × List (η × Trigger) :=
  events.foldl dispatch (r, [])

/-- `wake`. -/
def wake (r : EpollReactor η) : EpollReactor η := { r with wakes := r.wakes + 1 }

end EpollReactor

/-- **A reactor over `epoll`, and its registrations.** -/
structure Epoll (η : Type) where
  reactor : EpollReactor η
  registry : Registry η

namespace Epoll

variable {η : Type} [DecidableEq η]

/-- What is done to the reactor, and how the kernel takes it. -/
inductive Label (η : Type) where
  | add (handle : η) (interest : EventFlags) (token : UInt64) (fails : Bool)
  | modify (handle : η) (interest : EventFlags) (token : UInt64) (fails : Bool)
  | remove (handle : η) (fails : Bool)
  /-- `wait` with room for so many triggers; these handles are ready. -/
  | wait (room : ℕ) (events : List (η × UInt32))
  /-- `epoll_wait` fails. -/
  | waitFails (interrupted : Bool)
  | wake

/-- A call is answered. -/
def answer (s : Epoll η) (call : ReactorCall η) (r : Option ReactorError × EpollReactor η) : Epoll η :=
  ⟨r.2, s.registry.record call (.ofError r.1)⟩

/-- **One call.** The kernel reports handles of the interest list only. -/
def step (s : Epoll η) : Label η → Option (Epoll η)
  | .add h interest token fails =>
    some (s.answer (.add h interest token) (s.reactor.add h interest token fails))
  | .modify h interest token fails =>
    some (s.answer (.modify h interest token) (s.reactor.modify h interest token fails))
  | .remove h fails => some (s.answer (.remove h) (s.reactor.remove h fails))
  | .wait room events =>
    if events.length ≤ min room maxEventsPerWait
        ∧ events.all (fun e => (s.reactor.interestList e.1).isSome) then
      some ⟨(s.reactor.wait events).1,
        s.registry.record .wait (.triggers (s.reactor.wait events).2)⟩
    else none
  | .waitFails interrupted =>
    some ⟨s.reactor, s.registry.record .wait (if interrupted then .triggers [] else .error .wait)⟩
  | .wake => some { s with reactor := s.reactor.wake }

/-- The reactor as a machine. -/
def machine (wakeFd : η) : Machine (Epoll η) (Label η) := ⟨⟨.create wakeFd, .new⟩, step⟩

/-! ## The interest list is the map -/

variable {s s' : Epoll η} {wakeFd : η}

/-- **The condition on a call**: it is not given the eventfd of the reactor. -/
def NotWake (s : Epoll η) : Label η → Prop
  | .add h _ _ _ => h ≠ s.reactor.wakeFd
  | .modify h _ _ _ => h ≠ s.reactor.wakeFd
  | .remove h _ => h ≠ s.reactor.wakeFd
  | _ => True

/-- **The interest list is the map of registrations**, with the eventfd of the reactor. -/
structure Agrees (s : Epoll η) : Prop where
  conforming : s.registry.conforming = true
  wake : s.reactor.interestList s.reactor.wakeFd = some (epollIn, wakeToken)
  unlisted : s.registry.map s.reactor.wakeFd = none
  list : ∀ h, h ≠ s.reactor.wakeFd →
    s.reactor.interestList h = (s.registry.map h).map (fun p => (toEpoll p.1, p.2))

theorem agrees_create (wakeFd : η) : Agrees ⟨.create wakeFd, .new⟩ where
  conforming := rfl
  wake := if_pos rfl
  unlisted := rfl
  list _ h := if_neg h

/-- A call that changes the entry of one handle. -/
theorem Agrees.update (hs : s.Agrees) {h : η} (hh : h ≠ s.reactor.wakeFd)
    (p : Option (EventFlags × UInt64)) {conforming : Bool} (hconforming : conforming = true) :
    Agrees ⟨{ s.reactor with
        interestList := Function.update s.reactor.interestList h
          (p.map (fun p => (toEpoll p.1, p.2))) },
      ⟨Function.update s.registry.map h p, conforming⟩⟩ where
  conforming := hconforming
  wake := (Function.update_of_ne (Ne.symm hh) _ _).trans hs.wake
  unlisted := (Function.update_of_ne (Ne.symm hh) _ _).trans hs.unlisted
  list k hk := by
    by_cases hkh : k = h
    · subst hkh
      simp only [Function.update_self]
    · simp only [Function.update_of_ne hkh]
      exact hs.list k hk

omit [DecidableEq η] in
/-- A call that changes nothing. -/
theorem Agrees.unchanged (hs : s.Agrees) {conforming : Bool} (hconforming : conforming = true) :
    Agrees ⟨s.reactor, ⟨s.registry.map, conforming⟩⟩ :=
  ⟨hconforming, hs.wake, hs.unlisted, hs.list⟩

omit [DecidableEq η] in
/-- A handle is on the interest list exactly if it is registered. -/
theorem Agrees.cases (hs : s.Agrees) {h : η} (hh : h ≠ s.reactor.wakeFd) :
    (s.reactor.interestList h = none ∧ s.registry.map h = none)
      ∨ ∃ ev p, s.reactor.interestList h = some ev ∧ s.registry.map h = some p := by
  have hlist := hs.list h hh
  cases hmap : s.registry.map h with
  | none =>
    rw [hmap] at hlist
    exact Or.inl ⟨hlist, rfl⟩
  | some p =>
    rw [hmap] at hlist
    exact Or.inr ⟨_, p, hlist, rfl⟩

/-- A call that registers or removes a handle. -/
theorem Agrees.answer (hs : s.Agrees) {h : η} (hh : h ≠ s.reactor.wakeFd) (interest : EventFlags)
    (token : UInt64) (fails : Bool) :
    (s.answer (.add h interest token) (s.reactor.add h interest token fails)).Agrees
      ∧ (s.answer (.modify h interest token) (s.reactor.modify h interest token fails)).Agrees
      ∧ (s.answer (.remove h) (s.reactor.remove h fails)).Agrees := by
  have hconforming := hs.conforming
  unfold EpollReactor.add EpollReactor.modify EpollReactor.remove EpollReactor.epollCtl
  cases fails with
  | true =>
    refine ⟨hs.unchanged ?_, hs.unchanged ?_, hs.unchanged ?_⟩ <;>
      simp [Registry.conforms, ReactorReply.ofError, hconforming]
  | false =>
    obtain ⟨hlist, hmap⟩ | ⟨ev, p, hlist, hmap⟩ := hs.cases hh
    · rw [hlist]
      refine ⟨hs.update hh (some (interest, token)) ?_, hs.unchanged ?_, hs.unchanged ?_⟩ <;>
        simp [Registry.conforms, ReactorReply.ofError, hconforming, hmap]
    · rw [hlist]
      refine ⟨hs.unchanged ?_, hs.update hh (some (interest, token)) ?_, hs.update hh none ?_⟩ <;>
        simp [Registry.conforms, ReactorReply.ofError, hconforming, hmap]

omit [DecidableEq η] in
/-- **What `wait` reports**: the interest list is what it was, and every trigger is of a handle
that is registered, with its token. -/
theorem Agrees.wait (hs : s.Agrees) (events : List (η × UInt32)) :
    (s.reactor.wait events).1.interestList = s.reactor.interestList
      ∧ (s.reactor.wait events).1.wakeFd = s.reactor.wakeFd
      ∧ ∀ t ∈ (s.reactor.wait events).2,
        (s.registry.map t.1).map Prod.snd = some t.2.userToken := by
  refine List.foldlRecOn (motive := fun acc : EpollReactor η × List (η × Trigger) =>
    acc.1.interestList = s.reactor.interestList ∧ acc.1.wakeFd = s.reactor.wakeFd
      ∧ ∀ t ∈ acc.2, (s.registry.map t.1).map Prod.snd = some t.2.userToken) _ _
    ⟨rfl, rfl, fun t ht => absurd ht List.not_mem_nil⟩ ?_
  rintro acc ⟨hlist, hfd, hts⟩ event -
  unfold EpollReactor.dispatch
  split
  · exact ⟨hlist, hfd, hts⟩
  · rename_i ev data hentry
    split
    · exact ⟨hlist, hfd, hts⟩
    · rename_i hdata
      refine ⟨hlist, hfd, fun t ht => ?_⟩
      obtain ht | ht := List.mem_append.mp ht
      · exact hts t ht
      · obtain rfl := List.mem_singleton.mp ht
        rw [hlist] at hentry
        have hne : event.1 ≠ s.reactor.wakeFd := fun heq => by
          rw [heq, hs.wake] at hentry
          cases hentry
          exact hdata rfl
        rw [hs.list _ hne] at hentry
        obtain ⟨p, hp, heq⟩ := Option.map_eq_some_iff.mp hentry
        rw [hp]
        exact congrArg some (congrArg Prod.snd heq)

/-- **One step.** -/
theorem Agrees.step (hs : s.Agrees) {label : Label η} (hnot : s.NotWake label)
    (h : s.step label = some s') : s'.Agrees := by
  have hconforming := hs.conforming
  cases label with
  | add k interest token fails =>
    cases h
    exact (hs.answer hnot interest token fails).1
  | modify k interest token fails =>
    cases h
    exact (hs.answer hnot interest token fails).2.1
  | remove k fails =>
    cases h
    exact (hs.answer hnot .none 0 fails).2.2
  | wait room events =>
    rw [Epoll.step, Option.ite_none_right_eq_some] at h
    obtain ⟨-, h⟩ := h
    cases h
    obtain ⟨hlist, hfd, hts⟩ := hs.wait events
    refine ⟨?_, ?_, ?_, fun k hk => ?_⟩
    · simp only [Registry.record, Registry.conforms, hconforming, Bool.true_and, List.all_eq_true,
        beq_iff_eq]
      exact hts
    · rw [hfd, hlist]
      exact hs.wake
    · rw [hfd]
      exact hs.unlisted
    · rw [hfd] at hk
      rw [hlist]
      exact hs.list k hk
  | waitFails interrupted =>
    cases h
    refine ⟨?_, hs.wake, hs.unlisted, hs.list⟩
    cases interrupted <;> simp [Registry.record, Registry.conforms, hconforming]
  | wake =>
    cases h
    exact ⟨hs.conforming, hs.wake, hs.unlisted, hs.list⟩

/-- **The `epoll` backend keeps the map.** In every run in which no call is given the eventfd of
the reactor, the calls are answered as the map of registrations says, and the interest list is
that map. -/
theorem agrees_of_notWake (wakeFd : η) (hs : (machine wakeFd).ReachableBy NotWake s) : s.Agrees :=
  hs.invariant (agrees_create wakeFd) (fun _ _ _ _ hs hnot hstep => hs.step hnot hstep)

end Epoll

import SapCore.IocpLifetime

/-!
# When an `OVERLAPPED` is not touched while the kernel has it

Between the submission of a poll and its completion the kernel writes to the context. So a
context may be polled again, or deleted, only if its poll has completed; and `pending` is to
say whether it has, and its completion has been processed.

The loops of `add` and of the destructor are there for that, and each gives up after a second
without a completion, and goes on as if the poll had completed. And the completion of a poll
that went astray is never processed where it belongs, but where it does not. In runs in which
neither happens (`Careful`), the polls that are outstanding are those of the contexts that are
pending, one for each.
-/

namespace IocpReactor

variable {η : Type} [DecidableEq η] {r : IocpReactor η}

/-- A packet that the destructor takes out of the port. -/
theorem Single.closeEntry {p : Packet η} {ps : List (Packet η)} (hs : r.Single (p :: ps)) :
    (ReactorCore.closeEntry r p).Single ps := by
  cases p with
  | wake => exact hs.wake
  | completion h => exact hs.processed hs.isSome_contexts

theorem Single.closeTurn {c : ReactorCore η} (hs : c.reactor.Single []) (n : ℕ) :
    (c.closeTurn n).reactor.Single [] := by
  have hfold : ∀ (ps : List (Packet η)) (r : IocpReactor η), r.Single ps →
      (ps.foldl ReactorCore.closeEntry r).Single [] := by
    intro ps
    induction ps with
    | nil => exact fun r hr => hr
    | cons p ps ih => exact fun r hr => ih _ hr.closeEntry
  exact hfold _ _ (hs.taken n)

/-- The loop of the destructor leaves the registrations, and the contexts there are. -/
theorem closeTurn_keeps (c : ReactorCore η) (n : ℕ) :
    (c.closeTurn n).reactor.registered = c.reactor.registered
      ∧ ∀ k, ((c.closeTurn n).reactor.contexts k).isSome = (c.reactor.contexts k).isSome := by
  refine List.foldlRecOn (motive := fun r' : IocpReactor η => r'.registered = c.reactor.registered
    ∧ ∀ k, (r'.contexts k).isSome = (c.reactor.contexts k).isSome) _ _ ⟨rfl, fun _ => rfl⟩ ?_
  rintro r' ⟨hregistered, hknown⟩ p -
  cases p with
  | wake => exact ⟨hregistered, hknown⟩
  | completion h =>
    exact ⟨(registered_setPending r' h false).trans hregistered,
      fun k => (isSome_modifyContext r' h k _).trans (hknown k)⟩

theorem isSome_wait (r : IocpReactor η) (n : ℕ) (k : η) :
    ((r.wait n).1.contexts k).isSome = (r.contexts k).isSome := by
  refine List.foldlRecOn (motive := fun acc : IocpReactor η × List (η × Trigger) =>
    (acc.1.contexts k).isSome = (r.contexts k).isSome) _ _ rfl ?_
  intro acc hacc p _
  obtain ⟨heq, -⟩ | ⟨c, ctx, ts, -, -, -, heq, -⟩ := waitEntry_cases acc p
  · rwa [heq]
  · rw [heq]
    exact (isSome_modifyContext _ _ _ _).trans hacc

theorem isSome_submitPoll (r : IocpReactor η) (h k : η) (a : AddOutcome) :
    ((r.submitPoll h a).2.contexts k).isSome = (r.contexts k).isSome := by
  unfold submitPoll
  dsimp only
  split
  · exact (isSome_modifyContext _ _ _ _).trans (isSome_modifyContext _ _ _ _)
  · exact isSome_modifyContext _ _ _ _

theorem isSome_register (r : IocpReactor η) (h k : η) (interest : EventFlags) (token : UInt64)
    (a : AddOutcome) (hk : k ≠ h) :
    ((r.register h interest token a).2.contexts k).isSome = (r.contexts k).isSome := by
  unfold register
  split
  · rfl
  · split
    · rfl
    · rename_i base _ _
      have hsubmit := isSome_submitPoll
        (r.emplace h ⟨0, 0, 0, 0, token, base, interest, true, false⟩) h k a
      have hemplace : (r.emplace h ⟨0, 0, 0, 0, token, base, interest, true, false⟩).contexts k
          = r.contexts k := Function.update_of_ne hk _ _
      rw [hemplace] at hsubmit
      split
      · rename_i heq
        rwa [heq] at hsubmit
      · rename_i heq
        rw [heq] at hsubmit
        exact (isSome_modifyContext _ _ _ _).trans hsubmit

theorem isSome_reRegister (r : IocpReactor η) (h k : η) (interest : EventFlags) (token : UInt64)
    (a : AddOutcome) :
    ((r.reRegister h interest token a).2.contexts k).isSome = (r.contexts k).isSome := by
  unfold reRegister
  split
  · rfl
  · dsimp only
    split
    · exact isSome_modifyContext _ _ _ _
    · exact ((isSome_submitPoll _ _ _ _).trans (isSome_modifyContext _ _ _ _)).trans
        (isSome_modifyContext _ _ _ _)

/-- An `add` that fails before the poll leaves what is pending and what is outstanding. -/
theorem Single.reRegister_failed (hs : r.Single []) {h : η} {interest : EventFlags}
    {token : UInt64} {a : AddOutcome} (hfails : a.base = none ∨ a.association = .failed) :
    (r.reRegister h interest token a).2.Single [] := by
  unfold IocpReactor.reRegister
  split
  · exact hs
  · rename_i base hbase
    have hfailed : a.association = .failed := hfails.resolve_left (fun h => by
      rw [h] at hbase
      cases hbase)
    dsimp only
    rw [if_pos hfailed]
    exact hs.modifyContext _ (fun _ => rfl)

/-- **A handle that is not pending** has no poll that is in flight or unread. -/
theorem Single.not_outstanding (hs : r.Single []) {h : η} (hoff : r.polling h = false) :
    h ∉ r.inFlight ∧ .completion h ∉ r.queue := by
  have hnone : ¬ 0 < r.outstanding h := by
    have hh : r.outstanding h = (r.polling h).toNat := hs h
    rw [hh, hoff]
    exact Nat.lt_irrefl 0
  rw [outstanding_pos, not_or] at hnone
  exact hnone

/-- **A handle that is pending** has a poll that is in flight or unread. -/
theorem Single.outstanding_of_polling (hs : r.Single []) {h : η} (hon : r.polling h = true) :
    h ∈ r.inFlight ∨ .completion h ∈ r.queue := by
  have hh : r.outstanding h = (r.polling h).toNat := hs h
  rw [← outstanding_pos, hh, hon]
  exact Nat.zero_lt_one

end IocpReactor

namespace Iocp

open IocpReactor

variable {η : Type} [DecidableEq η] {s : Iocp η} {label : Label η} {r' : IocpReactor η}
  {call' : Option (ReRegistration η)}

/-- A step makes no context but that of the handle that is added. -/
theorem known_effect (heffect : Effect s label r' call') {k : η}
    (hk : (r'.contexts k).isSome = true) :
    (s.reactor.contexts k).isSome = true
      ∨ ∃ interest token a, label = .add k interest token a := by
  cases heffect with
  | answered | entered => exact Or.inl hk
  | @registered h interest token a hidle hctx =>
    by_cases hkh : k = h
    · subst hkh
      exact Or.inr ⟨interest, token, a, rfl⟩
    · exact Or.inl ((isSome_register _ _ _ _ _ _ hkh).symm.trans hk)
  | modified | removed => exact Or.inl ((isSome_modifyContext _ _ _ _).symm.trans hk)
  | waited => exact Or.inl ((isSome_wait _ _ _).symm.trans hk)
  | @drained c n => exact Or.inl (((drain_keeps s.reactor c.handle n).2 k).symm.trans hk)
  | finished => exact Or.inl ((isSome_reRegister _ _ _ _ _ _).symm.trans hk)
  | woken => exact Or.inl hk
  | completed => exact Or.inl ((isSome_modifyContext _ _ _ _).symm.trans hk)

end Iocp

namespace ReactorCore

open IocpReactor

variable {η : Type} [DecidableEq η] {c : ReactorCore η}

/-! ## What an object holds -/

/-- **What runs keep of what an object holds**: the polls that are outstanding are those of the
contexts that are pending; a handle that is being re-registered has a context that is not
active; and the keys are those of the contexts. -/
structure Kept (c : ReactorCore η) : Prop where
  single : c.reactor.Single []
  resting : Iocp.Resting c.reactor c.iocp.call
  known : ∀ h, (c.reactor.contexts h).isSome = true → h ∈ c.handles

theorem kept_new : (new : ReactorCore η).Kept :=
  ⟨fun _ => rfl, Iocp.resting_new, fun _ hh => Bool.noConfusion hh⟩

theorem kept_movedFrom : (movedFrom : ReactorCore η).Kept :=
  ⟨fun _ => rfl, Iocp.resting_new, fun _ hh => Bool.noConfusion hh⟩

/-- An `add` whose loop gives up fails before the poll. -/
def Spares : Iocp.Label η → Prop
  | .drainFails k => k.base = none ∨ k.association = .failed
  | _ => True

/-- **A step of a call, or of the kernel.** -/
theorem Kept.step (hc : c.Kept) {label : Iocp.Label η} {iocp : Iocp η}
    (hspares : Spares label) (hstep : c.iocp.step label = some iocp) :
    Kept { c with iocp := iocp, handles := c.handlesAfter iocp label } := by
  have heffect := Iocp.effect_of_step hstep
  refine ⟨?_, hc.resting.effect heffect, fun h hh => ?_⟩
  · by_cases hdrains : Iocp.DrainsOut label
    · exact Iocp.single_effect hc.single hc.resting hdrains heffect
    · cases label with
      | drainFails k =>
        generalize hr : iocp.reactor = r' at heffect
        generalize iocp.call = call' at heffect
        show iocp.reactor.Single []
        rw [hr]
        cases heffect with
        | answered => exact hc.single
        | finished hcall hlabel =>
          obtain ⟨hfinish, -⟩ | hfails := hlabel
          · cases hfinish
          · cases hfails
            exact hc.single.reRegister_failed hspares
      | _ => exact absurd trivial hdrains
  · have hsubset : c.handles ⊆ c.handlesAfter iocp label := by
      unfold handlesAfter
      split
      · split
        · exact List.subset_append_left _ _
        · exact List.Subset.refl _
      · exact List.Subset.refl _
    obtain hold | ⟨interest, token, a, rfl⟩ := Iocp.known_effect heffect hh
    · exact hsubset (hc.known h hold)
    · by_cases hmem : h ∈ c.handles
      · exact hsubset hmem
      · have hhandles : c.handlesAfter iocp (.add h interest token a) = c.handles ++ [h] :=
          if_pos ⟨hh, hmem⟩
        show h ∈ c.handlesAfter iocp (.add h interest token a)
        rw [hhandles]
        exact List.mem_append_right _ (List.mem_singleton_self h)

/-- The destructor begins. -/
theorem Kept.stopWatching (hc : c.Kept) (hidle : c.iocp.call = none) : c.stopWatching.Kept where
  single := by
    refine hc.single.congr ?_ rfl
    funext h
    show (((c.reactor.contexts h).map _).map AfdPollContext.pending).getD false = _
    rw [Option.map_map]
    rfl
  resting r hr := by
    have hr' : c.iocp.call = some r := hr
    rw [hidle] at hr'
    cases hr'
  known h hh := by
    have hh' : ((c.reactor.contexts h).map
        (fun ctx => { ctx with active := false })).isSome = true := hh
    rw [Option.isSome_map] at hh'
    exact hc.known h hh'

/-- A turn of its loop. -/
theorem Kept.closeTurn (hc : c.Kept) (n : ℕ) : (c.closeTurn n).Kept := by
  obtain ⟨hregistered, hknown⟩ := closeTurn_keeps c n
  refine ⟨hc.single.closeTurn n, fun r hr => ?_, fun h hh => ?_⟩
  · rw [hknown, hregistered]
    exact hc.resting r hr
  · rw [hknown] at hh
    exact hc.known h hh

end ReactorCore

namespace IocpReactors

open IocpReactor ReactorCore

variable {ν π η : Type} [DecidableEq ν] [DecidableEq π] [DecidableEq η]
  {s s' : IocpReactors ν π η} {p : π} {h : η}

/-! ## What is owed -/

/-- The kernel has the context of a handle: a poll of it has not completed. -/
def InFlight (s : IocpReactors ν π η) (p : π) (h : η) : Prop :=
  (∃ c, s.core p = some c ∧ h ∈ c.reactor.inFlight)
    ∨ ∃ poll ∈ s.strays, poll.owner = p ∧ poll.handle = h

/-- A poll of it has completed, and the completion is in the port. -/
def Unread (s : IocpReactors ν π η) (p : π) (h : η) : Prop :=
  ∃ c, s.core p = some c ∧ .completion h ∈ c.reactor.queue

/-- **`pending` says whether the completion of a poll has not been processed yet.** -/
def PendingExact (s : IocpReactors ν π η) : Prop :=
  ∀ p c h ctx, s.core p = some c → c.reactor.contexts h = some ctx →
    (ctx.pending = true ↔ s.InFlight p h ∨ s.Unread p h)

/-- **A step does not touch a context that is in flight**: `submit_poll` is called on a context,
and contexts are deleted, only if no poll of them is in flight, nor its completion unread. -/
structure Untouched (s : IocpReactors ν π η) (label : Label ν π η) : Prop where
  reused : ∀ x l p c h k, label = .call x l → s.object x = some p → s.core p = some c →
    c.submits l = some (h, k) → ¬ s.InFlight p h ∧ ¬ s.Unread p h
  freed : ∀ p c h, label = .closeEnds p ∨ label = .closeGivesUp p → s.core p = some c →
    (c.reactor.contexts h).isSome = true → ¬ s.InFlight p h ∧ ¬ s.Unread p h

/-- **The condition on a step.** `add` does not give up its loop, or fails before the poll; the
destructor does not give up its own; and a handle whose socket has an association already is
re-registered by the reactor whose port it is associated with. -/
def Careful (s : IocpReactors ν π η) : Label ν π η → Prop
  | .call _ (.drainFails k) => k.base = none ∨ k.association = .failed
  | .call x (.finish k) => ∀ p c r, s.object x = some p → s.core p = some c →
    c.iocp.call = some r → k.base ≠ none → k.association = .invalidParameter →
      s.association r.handle = some p
  | .closeGivesUp _ => False
  | _ => True

/-! ## The invariant -/

/-- **What runs keep.** -/
structure Inv (s : IocpReactors ν π η) : Prop where
  strays : s.strays = []
  core : ∀ p c, s.core p = some c → c.Kept

omit [DecidableEq ν] [DecidableEq π] in
theorem inv_new : Inv (new : IocpReactors ν π η) := ⟨rfl, fun _ _ hc => nomatch hc⟩

omit [DecidableEq ν] in
theorem Inv.setCore (hs : Inv s) (p : π) {o : Option (ReactorCore η)}
    (ho : ∀ c, o = some c → c.Kept) : Inv (s.setCore p o) :=
  ⟨hs.strays, (Function.forall_update_iff s.core (fun _ o => ∀ c, o = some c → c.Kept)).mpr
    ⟨ho, fun q _ => hs.core q⟩⟩

theorem Inv.give (hs : Inv s) (x : ν) (p : π) {c : ReactorCore η} (hc : c.Kept) :
    Inv (s.give x p c) := by
  have hset := hs.setCore p (o := some c) (fun c' heq => by cases heq; exact hc)
  exact ⟨hset.strays, hset.core⟩

theorem Inv.passOn (hs : Inv s) (x y : ν) (p : π) : Inv (s.passOn x y p) := by
  have hobject : Inv (s.setObject x (s.object y)) := ⟨hs.strays, hs.core⟩
  exact hobject.give y p kept_movedFrom

omit [DecidableEq ν] in
theorem Inv.close (hs : Inv s) (hclose : s.close p = some s') : Inv s' := by
  unfold IocpReactors.close at hclose
  split at hclose
  · cases hclose
  · rename_i c hc
    obtain ⟨hidle, heq⟩ := Option.ite_none_left_eq_some.mp hclose
    rw [Bool.not_eq_true, Option.isSome_eq_false_iff, Option.isNone_iff_eq_none] at hidle
    cases heq
    refine hs.setCore p (fun c' hc' => ?_)
    obtain ⟨-, heq⟩ := Option.ite_none_right_eq_some.mp hc'
    cases heq
    exact (hs.core p c hc).stopWatching hidle

omit [DecidableEq ν] in
theorem Inv.closing (hs : Inv s) {pending : Bool}
    {f : ReactorCore η → Option (Option (ReactorCore η))}
    (hf : ∀ c c', c.Kept → f c = some (some c') → c'.Kept)
    (hclosing : s.closing p pending f = some s') : Inv s' := by
  unfold IocpReactors.closing at hclosing
  split at hclosing
  · cases hclosing
  · rename_i c hc
    obtain ⟨-, hmap⟩ := Option.ite_none_right_eq_some.mp hclosing
    obtain ⟨o, ho, rfl⟩ := Option.map_eq_some_iff.mp hmap
    refine hs.setCore p (fun c' hc' => ?_)
    rw [hc'] at ho
    exact hf c c' (hs.core p c hc) ho

omit [DecidableEq ν] [DecidableEq π] [DecidableEq η] in
/-- **Where `submit_poll` is called**: for a handle without a context, whose association succeeds;
or for the handle that is being re-registered, unless its association fails. -/
theorem submits_cases {c : ReactorCore η} {l : Iocp.Label η} {k : AddOutcome}
    (hsubmits : c.submits l = some (h, k)) :
    (∃ interest token, l = .add h interest token k ∧ c.reactor.contexts h = none
        ∧ k.association = .ok ∧ c.asks l = some (h, k))
      ∨ ∃ r, c.iocp.call = some r ∧ r.handle = h ∧ (l = .finish k ∨ l = .drainFails k)
        ∧ k.base ≠ none ∧ k.association ≠ .failed ∧ c.asks l = some (h, k) := by
  -- the two labels that go on after the loop ask in the same way
  have hgoesOn : ∀ k', l = .finish k' ∨ l = .drainFails k' →
      c.asks l = (if k'.base ≠ none then c.iocp.call.map (fun r => (r.handle, k')) else none) →
      (c.asks l).filter (fun a => a.2.association ≠ .failed) = some (h, k) →
      ∃ r, c.iocp.call = some r ∧ r.handle = h ∧ (l = .finish k ∨ l = .drainFails k)
        ∧ k.base ≠ none ∧ k.association ≠ .failed ∧ c.asks l = some (h, k) := by
    intro k' hlabel hasks' hfilter
    obtain ⟨hasks, hgood⟩ := Option.filter_eq_some_iff.mp hfilter
    rw [hasks] at hasks'
    obtain ⟨hbase, hmap⟩ := Option.ite_none_right_eq_some.mp hasks'.symm
    obtain ⟨r, hcall, heq⟩ := Option.map_eq_some_iff.mp hmap
    cases heq
    exact ⟨r, hcall, rfl, hlabel, hbase, of_decide_eq_true hgood, hasks⟩
  unfold submits at hsubmits
  split at hsubmits
  · rename_i h' interest token k'
    obtain ⟨hasks, hok⟩ := Option.filter_eq_some_iff.mp hsubmits
    have hasks' := hasks
    unfold asks at hasks'
    obtain ⟨⟨hnone, -⟩, heq⟩ := Option.ite_none_right_eq_some.mp hasks'
    cases heq
    exact Or.inl ⟨interest, token, rfl, Option.isNone_iff_eq_none.mp hnone,
      of_decide_eq_true hok, hasks⟩
  · exact Or.inr (hgoesOn _ (Or.inl rfl) rfl hsubmits)
  · exact Or.inr (hgoesOn _ (Or.inr rfl) rfl hsubmits)
  · cases hsubmits

omit [DecidableEq ν] in
/-- **No poll goes astray** where the condition is met. -/
theorem stray_eq_none {x : ν} {l : Iocp.Label η} {c : ReactorCore η}
    (hobject : s.object x = some p) (hc : s.core p = some c) (hcareful : s.Careful (.call x l)) :
    s.stray p c l = none := by
  unfold stray
  split
  · rename_i h k hsubmits
    have hown : s.associationAfter p c l h = some p := by
      unfold associationAfter
      obtain ⟨interest, token, -, -, hok, hasks⟩ | ⟨r, hcall, rfl, hlabel, hbase, hgood, hasks⟩ :=
        submits_cases hsubmits
      · rw [hasks]
        dsimp only
        rw [if_pos hok, Function.update_self]
      · rw [hasks]
        dsimp only
        split
        · exact Function.update_self _ _ _
        · rename_i hok
          have hinvalid : k.association = .invalidParameter := by
            cases hassociation : k.association with
            | ok => exact absurd hassociation hok
            | invalidParameter => rfl
            | failed => exact absurd hassociation hgood
          obtain rfl | rfl := hlabel
          · exact hcareful p c r hobject hc hcall hbase hinvalid
          · exact absurd hcareful (not_or.mpr ⟨hbase, hgood⟩)
    simp [hown]
  · rfl

omit [DecidableEq ν] [DecidableEq π] [DecidableEq η] in
theorem Careful.spares {x : ν} {l : Iocp.Label η} (hcareful : s.Careful (.call x l)) :
    Spares l := by
  cases l with
  | drainFails k => exact hcareful
  | _ => trivial

/-- **Every step keeps the invariant.** -/
theorem Inv.step (hs : Inv s) {label : Label ν π η} (hcareful : s.Careful label)
    (hstep : s.step label = some s') : Inv s' := by
  cases label with
  | create x p =>
    obtain ⟨-, heq⟩ := Option.ite_none_right_eq_some.mp hstep
    cases heq
    exact hs.give x p kept_new
  | moveConstruct x y p =>
    obtain ⟨-, heq⟩ := Option.ite_none_right_eq_some.mp hstep
    cases heq
    exact hs.passOn x y p
  | moveAssign x y p =>
    unfold IocpReactors.step at hstep
    dsimp only at hstep
    split at hstep
    · cases hstep
    · obtain ⟨-, hrest⟩ := Option.ite_none_right_eq_some.mp hstep
      split at hrest
      · cases hrest
        exact hs
      · exact (hs.passOn x y p).close hrest
  | destroy x =>
    unfold IocpReactors.step at hstep
    dsimp only at hstep
    split at hstep
    · cases hstep
    · have hobject : Inv (s.setObject x none) := ⟨hs.strays, hs.core⟩
      exact hobject.close hstep
  | call x l =>
    unfold IocpReactors.step at hstep
    dsimp only at hstep
    split at hstep
    · cases hstep
    · rename_i p hobject
      unfold callStep at hstep
      split at hstep
      · cases hstep
      · rename_i c hc
        obtain ⟨-, hmap⟩ := Option.ite_none_right_eq_some.mp hstep
        obtain ⟨iocp, hiocp, rfl⟩ := Option.map_eq_some_iff.mp hmap
        have hassociated : Inv { s with association := s.associationAfter p c l } :=
          ⟨hs.strays, hs.core⟩
        simp only [afterCall, stray_eq_none hobject hc hcareful]
        refine hassociated.setCore p (fun c' hc' => ?_)
        cases hc'
        exact (hs.core p c hc).step hcareful.spares hiocp
  | closeTurn p n =>
    refine hs.closing (fun c c' hc hf => ?_) hstep
    obtain ⟨-, heq⟩ := Option.ite_none_right_eq_some.mp hf
    cases heq
    exact hc.closeTurn n
  | closeGivesUp p => exact absurd hcareful id
  | closeEnds p => exact hs.closing (fun c c' _ hf => by cases hf) hstep
  | complete p h status numberOfHandles fired =>
    unfold IocpReactors.step at hstep
    dsimp only at hstep
    split at hstep
    · cases hstep
    · rename_i c hc
      obtain ⟨iocp, hiocp, rfl⟩ := Option.map_eq_some_iff.mp hstep
      refine hs.setCore p (fun c' hc' => ?_)
      cases hc'
      have hspares : Spares (.complete h status numberOfHandles fired : Iocp.Label η) := trivial
      exact (hs.core p c hc).step hspares hiocp
  | completeStray poll =>
    obtain ⟨hmem, -⟩ := Option.ite_none_right_eq_some.mp hstep
    rw [hs.strays] at hmem
    exact absurd hmem List.not_mem_nil
  | reopen h =>
    cases hstep
    exact ⟨hs.strays, hs.core⟩

/-! ## What is not touched -/

omit [DecidableEq ν] [DecidableEq π] in
/-- A handle that is not pending has no poll anywhere. -/
theorem Inv.not_outstanding (hs : Inv s) {c : ReactorCore η} (hc : s.core p = some c)
    (hoff : c.reactor.polling h = false) : ¬ s.InFlight p h ∧ ¬ s.Unread p h := by
  obtain ⟨hflight, hqueue⟩ := (hs.core p c hc).single.not_outstanding hoff
  refine ⟨?_, ?_⟩
  · rintro (⟨c', hc', hmem⟩ | ⟨poll, hmem, -⟩)
    · cases hc.symm.trans hc'
      exact hflight hmem
    · rw [hs.strays] at hmem
      exact absurd hmem List.not_mem_nil
  · rintro ⟨c', hc', hmem⟩
    cases hc.symm.trans hc'
    exact hqueue hmem

omit [DecidableEq ν] [DecidableEq π] in
theorem Inv.pendingExact (hs : Inv s) : s.PendingExact := by
  intro p c h ctx hc hctx
  have hpolling : c.reactor.polling h = ctx.pending := by
    rw [polling, hctx]
    rfl
  constructor
  · intro hpending
    obtain hmem | hmem :=
      (hs.core p c hc).single.outstanding_of_polling (hpolling.trans hpending)
    · exact Or.inl (Or.inl ⟨c, hc, hmem⟩)
    · exact Or.inr ⟨c, hc, hmem⟩
  · intro hout
    by_contra hpending
    obtain ⟨hflight, hunread⟩ :=
      hs.not_outstanding hc (hpolling.trans (Bool.not_eq_true _ ▸ hpending))
    exact hout.elim hflight hunread

/-- The call that goes on after its loop finds no poll pending. -/
theorem polling_of_finish {c : ReactorCore η} {r : ReRegistration η} {k : AddOutcome}
    {iocp : Iocp η} (hcall : c.iocp.call = some r)
    (hstep : c.iocp.step (.finish k) = some iocp) : c.reactor.polling r.handle = false := by
  simp only [Iocp.step, hcall, Iocp.loopStep] at hstep
  obtain ⟨hpending, -⟩ := Option.ite_none_left_eq_some.mp hstep
  exact Bool.eq_false_iff.mpr hpending

theorem Inv.untouched (hs : Inv s) {label : Label ν π η} (hcareful : s.Careful label)
    (hstep : s.step label = some s') : s.Untouched label := by
  constructor
  · rintro x l p c h k rfl hobject hc hsubmits
    refine hs.not_outstanding hc ?_
    simp only [IocpReactors.step, hobject, callStep, hc] at hstep
    obtain ⟨-, hmap⟩ := Option.ite_none_right_eq_some.mp hstep
    obtain ⟨iocp, hiocp, -⟩ := Option.map_eq_some_iff.mp hmap
    obtain ⟨interest, token, -, hnone, -⟩ | ⟨r, hcall, rfl, rfl | rfl, hbase, hgood, -⟩ :=
      submits_cases hsubmits
    · rw [polling, hnone]
      rfl
    · exact polling_of_finish hcall hiocp
    · exact absurd hcareful (not_or.mpr ⟨hbase, hgood⟩)
  · rintro p c h (rfl | rfl) hc hknown
    · refine hs.not_outstanding hc ?_
      simp only [IocpReactors.step, IocpReactors.closing, hc] at hstep
      obtain ⟨⟨-, hnone⟩, -⟩ := Option.ite_none_right_eq_some.mp hstep
      have hall := List.any_eq_false.mp hnone h ((hs.core p c hc).known h hknown)
      exact Bool.eq_false_iff.mpr hall
    · exact absurd hcareful id

/-- **An `OVERLAPPED` is not reused or freed while it is in flight**, in every run whose steps meet
the condition: in every state `pending` says of every context whether the completion of a poll
of it has not been processed yet; and no step calls `submit_poll` on a context, or deletes one,
that has a poll in flight. -/
theorem untouched_of_careful (s : IocpReactors ν π η)
    (hs : machine.ReachableBy Careful s) :
    s.PendingExact ∧ ∀ label s', s.Careful label → s.step label = some s' →
      s.Untouched label := by
  have hi : Inv s := hs.invariant inv_new (fun _ _ _ _ hi hcareful hstep => hi.step hcareful hstep)
  exact ⟨hi.pendingExact, fun label s' hcareful hstep => hi.untouched hcareful hstep⟩

/-- The kernel says that the socket is associated already, and takes the poll. -/
def alreadyAssociated : AddOutcome := ⟨some 1, .invalidParameter, 0x103⟩

/-- A handle is removed and added again while its poll is in flight; the kernel cancels that, and
`add` takes the completion out of the port. -/
def addedAgain : List (Label ℕ ℕ ℕ) :=
  [.create 0 10, .call 0 (.add 5 .readable 7 Iocp.allTaken), .call 0 (.remove 5),
    .call 0 (.add 5 .writable 8 alreadyAssociated), .complete 10 5 statusCancelled 0 0,
    .call 0 (.drain 1)]

/-- Then `add` polls the handle, and the reactor is moved to another, whose port is closed; the
handle is removed, and the reactor destroyed. -/
def movedAndDestroyed : List (Label ℕ ℕ ℕ) :=
  [.call 0 (.finish alreadyAssociated), .create 1 11, .moveAssign 1 0 12, .closeEnds 11,
    .call 1 (.remove 5), .destroy 1, .complete 10 5 statusCancelled 0 0, .closeTurn 10 1]

/-- The context is used again where `add` polls it and deleted at the end, and nothing is in flight
either time. -/
theorem untouched_of_careful_movedAndDestroyed :
    ∃ s s₁ s₂ s₃ : IocpReactors ℕ ℕ ℕ, machine.run new addedAgain = some s ∧ s.PendingExact
      ∧ s.step (.call 0 (.finish alreadyAssociated)) = some s₁
      ∧ s.Untouched (.call 0 (.finish alreadyAssociated))
      ∧ machine.run s movedAndDestroyed = some s₂ ∧ s₂.PendingExact
      ∧ s₂.step (.closeEnds 10) = some s₃ ∧ s₂.Untouched (.closeEnds 10) := by
  have hagain : ∀ s : IocpReactors ℕ ℕ ℕ, machine.run new addedAgain = some s →
      machine.ReachableBy Careful s ∧ s.Careful (.call 0 (.finish alreadyAssociated)) := by
    intro s hrun
    constructor
    · refine Machine.ReachableBy.init.run_along (.cons ?_ rfl (.cons ?_ rfl (.cons ?_ rfl
        (.cons ?_ rfl (.cons ?_ rfl (.cons ?_ rfl ?_)))))) hrun
      all_goals trivial
    · -- the socket is associated with the port of the reactor that adds it again
      cases hrun
      intro p c r hobject hcore hcall _ _
      cases hobject
      cases hcore
      cases hcall
      rfl
  have hmoved : ∀ s s' : IocpReactors ℕ ℕ ℕ, machine.run new addedAgain = some s →
      machine.run s movedAndDestroyed = some s' → machine.ReachableBy Careful s' := by
    intro s s' hrun hrun'
    obtain ⟨hs, hfinish⟩ := hagain s hrun
    cases hrun
    refine hs.run_along (.cons hfinish rfl (.cons ?_ rfl (.cons ?_ rfl (.cons ?_ rfl
      (.cons ?_ rfl (.cons ?_ rfl (.cons ?_ rfl (.cons ?_ rfl ?_)))))))) hrun'
    all_goals trivial
  obtain ⟨hs, hfinish⟩ := hagain _ rfl
  obtain ⟨hpending, huntouched⟩ := untouched_of_careful _ hs
  obtain ⟨hpending', huntouched'⟩ := untouched_of_careful _ (hmoved _ _ rfl rfl)
  exact ⟨_, _, _, _, rfl, hpending, rfl, huntouched _ _ hfinish rfl, rfl, hpending', rfl,
    huntouched' (.closeEnds 10) _ trivial rfl⟩

/-- A handle is removed and added again before the kernel has cancelled its poll. -/
def addedEarly : List (Label ℕ ℕ ℕ) :=
  [.create 0 10, .call 0 (.add 5 .readable 7 Iocp.allTaken), .call 0 (.remove 5),
    .call 0 (.add 5 .writable 8 alreadyAssociated)]

/-- A reactor that watches a handle is destroyed. -/
def destroyedEarly : List (Label ℕ ℕ ℕ) :=
  [.create 0 10, .call 0 (.add 5 .readable 7 Iocp.allTaken), .destroy 0]

/-- Two reactors watch a handle after each other, as it becomes that of another socket; then the
first adds it again. -/
def sharedHandle : List (Label ℕ ℕ ℕ) :=
  [.create 0 10, .create 1 11, .call 1 (.add 5 .readable 7 Iocp.allTaken), .call 1 (.remove 5),
    .complete 11 5 statusCancelled 0 0, .call 1 (.wait 1 1), .reopen 5,
    .call 0 (.add 5 .readable 7 Iocp.allTaken), .call 1 (.add 5 .readable 7 alreadyAssociated),
    .call 1 (.finish alreadyAssociated), .completeStray ⟨11, 5, 10⟩ 0 1 1,
    .call 0 (.wait 1 1)]

/-- **An `OVERLAPPED` that is touched while it is in flight.** The kernel takes more than a second
to cancel the poll of a handle that was removed: `add` polls the context again, or the
destructor deletes it, while the first poll is in flight. And the completion of a poll that a
reactor makes of a socket of another clears `pending` there, although the poll of the other
reactor is in flight. -/
theorem lateCompletion_touched :
    (∃ s s', machine.run new addedEarly = some s
        ∧ s.step (.call 0 (.drainFails alreadyAssociated)) = some s'
        ∧ ¬ s.Untouched (.call 0 (.drainFails alreadyAssociated)))
      ∧ (∃ s s', machine.run new destroyedEarly = some s
        ∧ s.step (.closeGivesUp 10) = some s' ∧ ¬ s.Untouched (.closeGivesUp 10))
      ∧ ∃ s, machine.run new sharedHandle = some s ∧ ¬ s.PendingExact := by
  refine ⟨⟨_, _, rfl, rfl, fun h => ?_⟩, ⟨_, _, rfl, rfl, fun h => ?_⟩, _, rfl, fun h => ?_⟩
  · exact (h.reused 0 _ 10 _ 5 alreadyAssociated rfl rfl rfl rfl).1
      (Or.inl ⟨_, rfl, List.mem_singleton_self 5⟩)
  · exact (h.freed 10 _ 5 (Or.inr rfl) rfl rfl).1 (Or.inl ⟨_, rfl, List.mem_singleton_self 5⟩)
  · have hpending := (h 10 _ 5 _ rfl rfl).mpr
      (Or.inl (Or.inl ⟨_, rfl, List.mem_singleton_self 5⟩))
    exact Bool.noConfusion hpending

end IocpReactors

import SapCore.IocpRegistration

/-!
# The packets of others in the loop of `add`

An `add` that finds a pending poll of its own handle takes packets out of the port that are meant
for `wait`. It posts the completions of other registered handles again, and the kernel's order
aside they are in the port as they were: as many as before and those that came since, with
nothing written to their contexts. Wakes are dropped. So a call loses a wake if and only if one
is in a batch that its loop takes (`reRegistration_keeps_iff`); the thread that posted it does
not learn of that, and the next `wait` blocks.
-/

namespace IocpReactor

variable {η : Type} [DecidableEq η] {r : IocpReactor η} {h k : η} {p q : Packet η}

/-- **The packets that `add` of `h` posts again**: the completions of other handles that are
registered. -/
def spared (r : IocpReactor η) (h : η) : Packet η → Bool
  | .wake => false
  | .completion c => c != h && (r.registered c).isSome

theorem spared_congr {r' : IocpReactor η} (hregistered : r'.registered = r.registered) :
    r'.spared h = r.spared h := by
  funext p
  cases p with
  | wake => rfl
  | completion c => rw [spared, spared, hregistered]

theorem spared_completion :
    r.spared h (.completion k) = true ↔ k ≠ h ∧ (r.registered k).isSome = true := by
  rw [spared, Bool.and_eq_true, bne_iff_ne]

theorem queue_drainEntry (h : η) (r : IocpReactor η) (p : Packet η) :
    (drainEntry h r p).queue = r.queue ++ if r.spared h p then [p] else [] := by
  obtain ⟨heq, hnone⟩ | ⟨c, ctx, rfl, hctx, ⟨hdropped, heq⟩ | ⟨hposted, heq⟩⟩ :=
    drainEntry_cases h r p
  · have hnot : r.spared h p = false := by
      cases p with
      | wake => rfl
      | completion c => simp [spared, registered, hnone c rfl]
    rw [heq, hnot, if_neg Bool.false_ne_true, List.append_nil]
  · have hnot : ¬ r.spared h (.completion c) = true := by
      rw [spared_completion, isSome_registered hctx]
      simpa using or_iff_not_imp_left.mp hdropped
    rw [heq, if_neg hnot, List.append_nil]
    rfl
  · rw [heq, if_pos (spared_completion.mpr ⟨hposted.1, (isSome_registered hctx).trans hposted.2⟩)]

/-- Nothing is written to the context of a handle whose completions are posted again. -/
theorem contexts_drainEntry (hk : r.spared h (.completion k) = true) (p : Packet η) :
    (drainEntry h r p).contexts k = r.contexts k := by
  obtain ⟨hkh, hregistered⟩ := spared_completion.mp hk
  obtain ⟨heq, -⟩ | ⟨c, ctx, -, hctx, ⟨hdropped, heq⟩ | ⟨-, heq⟩⟩ := drainEntry_cases h r p
  · rw [heq]
  · rw [heq]
    refine Function.update_of_ne (fun hkc => ?_) _ _
    subst hkc
    rw [isSome_registered hctx] at hregistered
    exact hdropped.elim hkh (fun hinactive => by simp [hinactive] at hregistered)
  · rw [heq]

/-- The loop over a batch: the packets that are to be posted again are, in their order. -/
theorem queue_foldl_drainEntry (h : η) (ps : List (Packet η)) :
    ∀ r : IocpReactor η,
      (ps.foldl (drainEntry h) r).queue = r.queue ++ ps.filter (r.spared h) := by
  induction ps with
  | nil => exact fun r => (List.append_nil _).symm
  | cons p ps ih =>
    intro r
    rw [List.foldl_cons, ih, spared_congr (drainEntry_keeps h r p).1, queue_drainEntry,
      List.append_assoc, List.filter_cons]
    split <;> rfl

theorem contexts_foldl_drainEntry (h : η) (ps : List (Packet η)) :
    ∀ r : IocpReactor η, r.spared h (.completion k) = true →
      (ps.foldl (drainEntry h) r).contexts k = r.contexts k := by
  induction ps with
  | nil => exact fun r _ => rfl
  | cons p ps ih =>
    intro r hk
    rw [List.foldl_cons, ih, contexts_drainEntry hk]
    rwa [spared_congr (drainEntry_keeps h r p).1]

/-- **A turn of the loop**: those to be posted again go from the front of the queue to its end. -/
theorem queue_drain (r : IocpReactor η) (h : η) (n : ℕ) :
    (r.drain h n).queue = r.queue.drop n ++ (r.queue.take n).filter (r.spared h) :=
  queue_foldl_drainEntry h _ _

theorem contexts_drain (hk : r.spared h (.completion k) = true) (n : ℕ) :
    (r.drain h n).contexts k = r.contexts k :=
  contexts_foldl_drainEntry h _ _ hk

theorem count_take_add_count_drop (r : IocpReactor η) (n : ℕ) (p : Packet η) :
    (r.queue.take n).count p + (r.queue.drop n).count p = r.queue.count p := by
  rw [← List.count_append, List.take_append_drop]

/-- What is posted again is in the queue as often as before. -/
theorem count_drain_spared (hp : r.spared h p = true) (n : ℕ) :
    (r.drain h n).queue.count p = r.queue.count p := by
  rw [queue_drain, List.count_append, List.count_filter hp, Nat.add_comm,
    count_take_add_count_drop]

/-- The wakes of the batch are gone. -/
theorem count_drain_wake (r : IocpReactor η) (h : η) (n : ℕ) :
    (r.drain h n).queue.count .wake + (r.queue.take n).count .wake = r.queue.count .wake := by
  have hnone : ((r.queue.take n).filter (r.spared h)).count .wake = 0 := by
    rw [List.count_eq_zero, List.mem_filter]
    exact fun hmem => Bool.noConfusion hmem.2
  rw [queue_drain, List.count_append, hnone, Nat.add_zero, Nat.add_comm,
    count_take_add_count_drop]

/-! ### The end of `add` -/

theorem pending_modifyContext (r : IocpReactor η) (h k : η)
    (f : AfdPollContext → AfdPollContext) (hf : ∀ ctx, (f ctx).pending = ctx.pending) :
    ((r.modifyContext h f).contexts k).map AfdPollContext.pending
      = (r.contexts k).map AfdPollContext.pending := by
  by_cases hkh : k = h
  · subst hkh
    simp only [modifyContext, Function.update_self, Option.map_map]
    exact congrArg (fun g => (r.contexts k).map g) (funext hf)
  · simp only [modifyContext, Function.update_of_ne hkh]

theorem submitPoll_queue (r : IocpReactor η) (h : η) (a : AddOutcome) :
    (r.submitPoll h a).2.queue = r.queue := by
  unfold submitPoll
  dsimp only
  split <;> rfl

theorem submitPoll_contexts (r : IocpReactor η) (a : AddOutcome) (hkh : k ≠ h) :
    (r.submitPoll h a).2.contexts k = r.contexts k := by
  unfold submitPoll
  dsimp only
  split
  · exact (Function.update_of_ne hkh _ _).trans (Function.update_of_ne hkh _ _)
  · exact Function.update_of_ne hkh _ _

theorem reRegister_queue (r : IocpReactor η) (h : η) (interest : EventFlags) (token : UInt64)
    (a : AddOutcome) : (r.reRegister h interest token a).2.queue = r.queue := by
  unfold reRegister
  split
  · rfl
  · dsimp only
    split
    · rfl
    · exact submitPoll_queue _ _ _

theorem reRegister_contexts (r : IocpReactor η) (interest : EventFlags) (token : UInt64)
    (a : AddOutcome) (hkh : k ≠ h) :
    (r.reRegister h interest token a).2.contexts k = r.contexts k := by
  unfold reRegister
  split
  · rfl
  · dsimp only
    split
    · exact Function.update_of_ne hkh _ _
    · refine (submitPoll_contexts _ _ hkh).trans ?_
      exact (Function.update_of_ne hkh _ _).trans (Function.update_of_ne hkh _ _)

end IocpReactor

namespace Iocp

open IocpReactor

variable {η : Type} [DecidableEq η] {s s' : Iocp η} {c : ReRegistration η}

/-- What happens inside the loop of `add`: a turn of it, and what others do. -/
def Label.inner : Label η → Bool
  | .drain _ => true
  | .wake => true
  | .complete _ _ _ _ => true
  | _ => false

/-- The packets that others post. -/
def Label.posted : Label η → List (Packet η)
  | .wake => [.wake]
  | .complete h _ _ _ => [.completion h]
  | _ => []

/-- **What a loop leaves of the packets that it posts again**, and of their contexts, while some
labels were carried out. -/
structure Carried (c : ReRegistration η) (s s' : Iocp η) (labels : List (Label η)) : Prop where
  call : s'.call = some c
  registered : s'.reactor.registered = s.reactor.registered
  count : ∀ p, s.reactor.spared c.handle p = true →
    s'.reactor.queue.count p = s.reactor.queue.count p + (labels.flatMap Label.posted).count p
  pending : ∀ h, s.reactor.spared c.handle (.completion h) = true →
    (s'.reactor.contexts h).map AfdPollContext.pending
      = (s.reactor.contexts h).map AfdPollContext.pending

theorem Carried.trans {s₁ : Iocp η} {as bs : List (Label η)} (h : Carried c s s₁ as)
    (h' : Carried c s₁ s' bs) : Carried c s s' (as ++ bs) := by
  have hspared := spared_congr (h := c.handle) h.registered
  refine ⟨h'.call, h'.registered.trans h.registered, fun p hp => ?_, fun k hk => ?_⟩
  · rw [h'.count p (hspared ▸ hp), h.count p hp, List.flatMap_append, List.count_append,
      Nat.add_assoc]
  · exact (h'.pending k (hspared ▸ hk)).trans (h.pending k hk)

/-- **One step in the loop.** -/
theorem carried_step (hcall : s.call = some c) {label : Label η} (hinner : label.inner = true)
    (h : s.step label = some s') : Carried c s s' [label] := by
  cases label with
  | wake =>
    cases h
    exact ⟨hcall, rfl, fun _ _ => List.count_append, fun _ _ => rfl⟩
  | complete k status numberOfHandles fired =>
    simp only [step, Option.ite_none_right_eq_some] at h
    obtain ⟨-, h⟩ := h
    cases h
    refine ⟨hcall, registered_modifyContext_eq _ _ (fun _ => rfl), fun _ _ => List.count_append,
      fun j _ => ?_⟩
    exact pending_modifyContext _ k j _ (fun _ => rfl)
  | drain n =>
    simp only [step, hcall, loopStep, Option.ite_none_right_eq_some] at h
    obtain ⟨-, h⟩ := h
    cases h
    refine ⟨rfl, (drain_keeps _ _ n).1, fun p hp => ?_, fun k hk => ?_⟩
    · exact count_drain_spared hp n
    · exact congrArg _ (contexts_drain hk n)
  | _ => cases hinner

/-- **All of the loop.** -/
theorem carried_run {labels : List (Label η)} :
    ∀ {s : Iocp η}, s.call = some c → (∀ a ∈ labels, Label.inner a = true) →
      machine.run s labels = some s' → Carried c s s' labels := by
  induction labels with
  | nil =>
    intro s hcall _ h
    cases h
    exact ⟨hcall, rfl, fun _ _ => rfl, fun _ _ => rfl⟩
  | cons a labels ih =>
    intro s hcall hinner h
    obtain ⟨s₁, hstep, hrest⟩ := Option.bind_eq_some_iff.mp h
    have hfirst := carried_step hcall (hinner a List.mem_cons_self) hstep
    refine hfirst.trans (ih hfirst.call (fun b hb => ?_) hrest)
    exact hinner b (List.mem_cons_of_mem a hb)

/-! ## Wakes -/

/-- **The condition on a turn of the loop**: there is no wake in the batch it takes. -/
def SparesWakes (s : Iocp η) : Label η → Prop
  | .drain n => .wake ∉ s.reactor.queue.take n
  | _ => True

/-- One step drops so many wakes, none where the condition is met. -/
theorem wakes_step (hcall : s.call = some c) {label : Label η} (hinner : label.inner = true)
    (h : s.step label = some s') :
    ∃ lost, s'.reactor.queue.count .wake + lost
        = s.reactor.queue.count .wake + label.posted.count .wake
      ∧ (lost = 0 ↔ s.SparesWakes label) := by
  cases label with
  | wake =>
    cases h
    exact ⟨0, List.count_append, iff_of_true rfl trivial⟩
  | complete k status numberOfHandles fired =>
    simp only [step, Option.ite_none_right_eq_some] at h
    obtain ⟨-, h⟩ := h
    cases h
    exact ⟨0, List.count_append, iff_of_true rfl trivial⟩
  | drain n =>
    simp only [step, hcall, loopStep, Option.ite_none_right_eq_some] at h
    obtain ⟨-, h⟩ := h
    cases h
    exact ⟨_, count_drain_wake _ _ n, List.count_eq_zero⟩
  | _ => cases hinner

/-- The loop drops so many wakes, none where every turn meets the condition. -/
theorem wakes_run {labels : List (Label η)} :
    ∀ {s : Iocp η}, s.call = some c → (∀ a ∈ labels, Label.inner a = true) →
      machine.run s labels = some s' →
      ∃ lost, s'.reactor.queue.count .wake + lost
          = s.reactor.queue.count .wake + (labels.flatMap Label.posted).count .wake
        ∧ (lost = 0 ↔ machine.Along SparesWakes s labels) := by
  induction labels with
  | nil =>
    intro s _ _ h
    cases h
    exact ⟨0, rfl, iff_of_true rfl trivial⟩
  | cons a labels ih =>
    intro s hcall hinner h
    obtain ⟨s₁, hstep, hrest⟩ := Option.bind_eq_some_iff.mp h
    have ha := hinner a List.mem_cons_self
    obtain ⟨lost, hlost, hiff⟩ := wakes_step hcall ha hstep
    obtain ⟨lost', hlost', hiff'⟩ := ih (carried_step hcall ha hstep).call
      (fun b hb => hinner b (List.mem_cons_of_mem a hb)) hrest
    refine ⟨lost + lost', ?_, ?_⟩
    · rw [List.flatMap_cons, List.count_append]
      omega
    · rw [Nat.add_eq_zero_iff, hiff, hiff']
      refine and_congr_right (fun _ => ⟨fun hrest s₂ hstep₂ => ?_, fun hrest => hrest s₁ hstep⟩)
      cases hstep.symm.trans hstep₂
      exact hrest

/-! ## A whole call -/

/-- The call gets to its loop. -/
theorem frame_entered {s₀ : Iocp η} {label : Label η} (hidle : s₀.call = none)
    (hstart : s₀.step label = some s) (hcall : s.call = some c) :
    s.reactor.queue = s₀.reactor.queue
      ∧ ∀ h, h ≠ c.handle → s.reactor.contexts h = s₀.reactor.contexts h := by
  have heffect := effect_of_step hstart
  rw [hcall] at heffect
  generalize s.reactor = r, hcall' : some c = call' at heffect ⊢
  cases heffect with
  | entered => exact ⟨rfl, fun _ _ => rfl⟩
  | modified =>
    cases hcall'
    exact ⟨rfl, fun h hne => Function.update_of_ne hne _ _⟩
  | drained hbusy => cases hidle.symm.trans hbusy
  | woken => cases hcall'.trans hidle
  | completed => cases hcall'.trans hidle
  | _ => cases hcall'

/-- The call goes on after its loop. -/
theorem frame_finished {label : Label η} (hcall : s.call = some c)
    (hlast : s.step label = some s') (hdone : s'.call = none) :
    s'.reactor.queue = s.reactor.queue
      ∧ ∀ h, h ≠ c.handle → s'.reactor.contexts h = s.reactor.contexts h := by
  have heffect := effect_of_step hlast
  rw [hdone] at heffect
  generalize s'.reactor = r', hdone' : (none : Option (ReRegistration η)) = call' at heffect ⊢
  cases heffect with
  | finished hbusy =>
    cases hcall.symm.trans hbusy
    exact ⟨reRegister_queue _ _ _ _ _, fun h hne => reRegister_contexts _ _ _ _ hne⟩
  | woken => cases hdone'.trans hcall
  | completed => cases hdone'.trans hcall
  | answered hidle | registered hidle | removed hidle | waited hidle =>
    cases hcall.symm.trans hidle
  | entered | modified | drained => cases hdone'

/-- **What a call that re-registers a handle leaves in the port.** From any state, and whatever
others do during its loop: of each other handle that is registered there are as many
completions in the port as there were and as the kernel posted since, and its poll is as
pending as it was. The same is true of wakes if and only if no turn of the loop takes one. -/
theorem reRegistration_keeps_iff {s₀ : Iocp η} {start last : Label η} {during : List (Label η)}
    (hidle : s₀.call = none) (hstart : s₀.step start = some s) (hcall : s.call = some c)
    (hduring : ∀ a ∈ during, a.inner = true)
    (hrun : machine.run s (during ++ [last]) = some s') (hdone : s'.call = none) :
    (∀ h, h ≠ c.handle → (s₀.reactor.registered h).isSome = true →
      s'.reactor.queue.count (.completion h)
        = s₀.reactor.queue.count (.completion h)
          + (during.flatMap Label.posted).count (.completion h)
      ∧ (s'.reactor.contexts h).map AfdPollContext.pending
        = (s₀.reactor.contexts h).map AfdPollContext.pending)
    ∧ (s'.reactor.queue.count .wake
        = s₀.reactor.queue.count .wake + (during.flatMap Label.posted).count .wake
      ↔ machine.Along SparesWakes s during) := by
  rw [Machine.run_append] at hrun
  obtain ⟨s₁, hloop, hend⟩ := Option.bind_eq_some_iff.mp hrun
  obtain ⟨s₂, hlast, hsame⟩ := Option.bind_eq_some_iff.mp hend
  cases hsame
  obtain ⟨hqueue₀, hcontexts₀⟩ := frame_entered hidle hstart hcall
  have hcarried := carried_run hcall hduring hloop
  obtain ⟨hqueue₁, hcontexts₁⟩ := frame_finished hcarried.call hlast hdone
  refine ⟨fun h hne hregistered => ?_, ?_⟩
  · have hspared : s.reactor.spared c.handle (.completion h) = true := by
      refine spared_completion.mpr ⟨hne, ?_⟩
      rwa [registered, hcontexts₀ h hne]
    rw [hqueue₁, hcontexts₁ h hne, ← hqueue₀, ← hcontexts₀ h hne]
    exact ⟨hcarried.count _ hspared, hcarried.pending h hspared⟩
  · obtain ⟨lost, hlost, hiff⟩ := wakes_run hcall hduring hloop
    rw [hqueue₁, ← hqueue₀, ← hiff]
    omega

/-- Handle `0` was removed and its poll cancelled; in the port are the completions of `1` and of
`0`, and a wake. -/
def crowded : List (Label ℕ) :=
  [.add 0 .readable 7 allTaken, .add 1 .readable 8 allTaken, .remove 0, .complete 1 0 1 1,
    .complete 0 statusCancelled 0 0, .wake]

/-- **A call that loses nothing**: the loop takes the two completions. -/
theorem reRegistration_keeps_iff_crowded :
    ∃ s₀ s s', machine.run new crowded = some s₀
      ∧ s₀.step (.add 0 .readable 9 allTaken) = some s
      ∧ machine.run s ([.drain 2] ++ [.finish allTaken]) = some s'
      ∧ s'.reactor.queue.count (.completion 1) = 1 ∧ s'.reactor.queue.count .wake = 1 := by
  have hkeeps : ∀ s₀ s s', machine.run new crowded = some s₀ →
      s₀.step (.add 0 .readable 9 allTaken) = some s →
      machine.run s ([.drain 2] ++ [.finish allTaken]) = some s' →
      s'.reactor.queue.count (.completion 1) = 1 ∧ s'.reactor.queue.count .wake = 1 := by
    intro s₀ s s' hcrowded hstart hrun
    cases hcrowded
    have hcall : s.call = some ⟨0, .readable, 9, false⟩ := by
      cases hstart
      rfl
    have hdone : s'.call = none := by
      cases hstart
      cases hrun
      rfl
    have hspares : machine.Along SparesWakes s [.drain 2] := by
      refine ⟨?_, fun _ _ => trivial⟩
      cases hstart
      show Packet.wake ∉ [Packet.completion 1, Packet.completion 0]
      decide
    obtain ⟨hothers, hwakes⟩ :=
      reRegistration_keeps_iff rfl hstart hcall (by simp [Label.inner]) hrun hdone
    exact ⟨(hothers 1 Nat.one_ne_zero rfl).1, hwakes.mpr hspares⟩
  exact ⟨_, _, _, rfl, rfl, rfl, hkeeps _ _ _ rfl rfl rfl⟩

/-- **A wake that is lost.** It is in the port with the completion of the cancelled poll of handle
`0`, and the loop of `add` takes both; after the call the port is empty. -/
theorem reRegistration_drops_wake :
    ∃ s₀ s', machine.run new
        [.add 0 .readable 7 allTaken, .remove 0, .wake,
          .complete 0 statusCancelled 0 0] = some s₀
      ∧ s₀.reactor.queue.count .wake = 1
      ∧ machine.run s₀ [.add (0 : ℕ) .readable 9 allTaken, .drain 2, .finish allTaken] = some s'
      ∧ s'.call = none ∧ s'.reactor.queue.count .wake = 0 :=
  ⟨_, _, rfl, rfl, rfl, rfl, rfl⟩

end Iocp

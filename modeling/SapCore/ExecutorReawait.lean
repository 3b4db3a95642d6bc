import SapCore.ExecutorAccounting

/-!
# Awaiting an awaiter again

An `IoAwaiter` is a local of a coroutine, and a loop may await it again and again.
Of its state only `m_registered` is reset when the coroutine goes on. `m_queued`
stays set, so the second time the loop of `run_until` takes the awaiter for one
that is in the queue already, and its continuation is not pushed: the coroutine is
stranded. And its node is still linked when it is armed again: linked to itself, it
is no list any more (`reawait_strands`).

Where an awaiter suspends a coroutine only while it is not queued, which is to say
only once, neither happens (`reawait_of_unqueued`).
-/

namespace Executor

variable {α τ κ η : Type} [DecidableEq α] [DecidableEq τ] [DecidableEq κ] [DecidableEq η]
variable {setup : Setup α τ η} {s : Executor α τ κ} {a : α} {h : κ}

/-- **Awaiters can be awaited**: when the reactor reports a registered awaiter in which
a coroutine is suspended, its continuation is in `m_ready` after the batch; and the
callbacks of every stop state are a list. -/
def Awaitable (setup : Setup α τ η) (s : Executor α τ κ) : Prop :=
  (∀ tokens s' a h, s.step setup (.trigger tokens) = some s' → a ∈ tokens →
      (s.awaiter a).phase = .suspended → (s.awaiter a).registered = true →
        (s.awaiter a).continuation = some h → h ∈ s'.ready.map Prod.fst)
    ∧ ∀ t, ∃ l, (s.stop t).links.Spells l

/-- A coroutine that is scheduled neither awaits nor is suspended. -/
def Proper (s : Executor α τ κ) : Event α τ κ → Prop
  | .coAwait _ h _ => (h, none) ∉ s.ready
  | .schedule h => s.suspendedIn h = none
  | _ => True

/-- An awaiter suspends a coroutine only while it is not queued. -/
def Unqueued (setup : Setup α τ η) (s : Executor α τ κ) : Event α τ κ → Prop
  | .coAwait a _ _ => s.awaitReady setup a = false → (s.awaiter a).queued = false
  | _ => True

omit [DecidableEq α] [DecidableEq τ] [DecidableEq κ] [DecidableEq η] in
theorem careful_of_unqueued {event : Event α τ κ} (hproper : Proper s event)
    (hunqueued : Unqueued setup s event) : Careful setup s event := by
  cases event with
  | coAwait a h add => exact fun hready => ⟨hunqueued hready, hproper⟩
  | schedule h => exact hproper
  | _ => trivial

omit [DecidableEq τ] [DecidableEq η] in
/-- **The awaiters of a batch are in the queue after it.** -/
theorem Books.mem_ready_enqueueAll (hs : Books setup s) {tokens : List α} (hmem : a ∈ tokens)
    (hphase : (s.awaiter a).phase = .suspended) (hc : (s.awaiter a).continuation = some h) :
    h ∈ (s.enqueueAll tokens).ready.map Prod.fst := by
  have hawaiter : (s.enqueueAll tokens).awaiter a = { s.awaiter a with queued := true } := by
    rw [enqueueAll_awaiter, if_pos ⟨hmem, by rw [hc]; exact Option.some_ne_none h⟩]
  have hcount := (hs.enqueueAll tokens).count_ready (a := a) (h := h) (by rw [hawaiter]; exact hphase)
    (by rw [hawaiter]; exact hc)
  rw [hawaiter, if_pos rfl] at hcount
  exact List.count_pos_iff.mp (by rw [hcount]; exact Nat.one_pos)

/-- **Awaiters that suspend only while they are not queued can be awaited**, in every
state such a run reaches. -/
theorem reawait_of_unqueued (setup : Setup α τ η) (s : Executor α τ κ)
    (hs : (machine setup).ReachableBy
      (fun s event => Proper s event ∧ Unqueued setup s event) s) : Awaitable setup s := by
  have hcareful : (machine setup).ReachableBy (Careful setup) s :=
    hs.mono (fun s event hand => careful_of_unqueued hand.1 hand.2)
  have hbooks := (inv_of_reachable hcareful).books
  refine ⟨fun tokens s' a h hstep hmem hphase _ hc => ?_, fun t => ?_⟩
  · cases step_cases hstep with
    | trigger hadded => exact hbooks.mem_ready_enqueueAll hmem hphase hc
  · obtain ⟨l, hl⟩ := hbooks.list t
    exact ⟨l, hl.spells⟩

/-- A coroutine that awaits twice, each time another awaiter, can. -/
theorem reawait_of_unqueued_fresh :
    ∃ s : Executor ℕ Unit ℕ, (machine oneToken).run new
        [.coAwait 0 10 none, .trigger [0], .resume, .coAwait 1 10 none] = some s
      ∧ (s.awaiter 1).phase = .suspended ∧ Awaitable oneToken s := by
  have hfirst : (machine oneToken).ReachableBy
      (fun s event => Proper s event ∧ Unqueued oneToken s event)
      (new.coAwait oneToken 0 10 none) :=
    .step (a := .coAwait 0 10 none) .init ⟨List.not_mem_nil, fun _ => rfl⟩ rfl
  have htrigger := Machine.ReachableBy.step (a := .trigger [0]) hfirst (by exact ⟨trivial, trivial⟩)
    rfl
  have hresume := Machine.ReachableBy.step (a := .resume) htrigger (by exact ⟨trivial, trivial⟩) rfl
  have hagain := Machine.ReachableBy.step (a := .coAwait 1 10 none) hresume
    (by exact ⟨List.not_mem_nil, fun _ => rfl⟩) rfl
  exact ⟨_, rfl, rfl, reawait_of_unqueued oneToken _ hagain⟩

omit [DecidableEq α] in
/-- No list is spelled by links in which the first node is its own next one. -/
theorem not_spells_of_self_loop {L : Links α} (hhead : L.head = some a) (hnext : L.next a = some a)
    (l : List α) : ¬ L.Spells l := by
  intro hspells
  cases l with
  | nil => exact absurd (hhead.symm.trans hspells.head) (by simp)
  | cons b rest =>
    cases hhead.symm.trans hspells.head
    obtain ⟨-, hrest, -⟩ := hspells.chain
    rw [hnext, Option.or_none] at hrest
    exact (List.nodup_cons.mp hspells.nodup).1 (List.mem_of_mem_head? hrest.symm)

/-- Awaited, reported, resumed, and awaited again. -/
def awaitTwice : List (Event ℕ Unit ℕ) :=
  [.coAwait 0 10 none, .trigger [0], .resume, .coAwait 0 10 none]

/-- Awaiters that are their own handles, without tokens. -/
def noToken : Setup ℕ Unit ℕ := ⟨id, fun _ => none⟩

/-- **An awaiter awaited twice**: without a token its coroutine is suspended and its
handle registered, and when the reactor reports it nothing is pushed; with a token its
node is linked to itself. -/
theorem reawait_strands :
    (∃ s s' : Executor ℕ Unit ℕ, (machine noToken).ReachableBy Proper s
        ∧ (machine noToken).run new awaitTwice = some s
        ∧ (s.awaiter 0).phase = .suspended ∧ (s.awaiter 0).registered = true
        ∧ s.step noToken (.trigger [0]) = some s' ∧ s'.ready = [] ∧ ¬ Awaitable noToken s)
      ∧ ∃ s : Executor ℕ Unit ℕ, (machine oneToken).ReachableBy Proper s
        ∧ (machine oneToken).run new awaitTwice = some s
        ∧ (s.stop ()).links.next 0 = some 0 ∧ ¬ Awaitable oneToken s := by
  have hreach : ∀ setup : Setup ℕ Unit ℕ, (machine setup).ReachableBy Proper
      (new.coAwait setup 0 10 none) := fun setup =>
    .step (a := .coAwait 0 10 none) .init (by simp [Proper, machine, new]) rfl
  have hno := Machine.ReachableBy.step (a := .trigger [0]) (hreach noToken) (by exact trivial) rfl
  have hno := Machine.ReachableBy.step (a := .resume) hno (by exact trivial) rfl
  have hno := Machine.ReachableBy.step (a := .coAwait 0 10 none) hno (by exact List.not_mem_nil) rfl
  have hone := Machine.ReachableBy.step (a := .trigger [0]) (hreach oneToken) (by exact trivial) rfl
  have hone := Machine.ReachableBy.step (a := .resume) hone (by exact trivial) rfl
  have hone := Machine.ReachableBy.step (a := .coAwait 0 10 none) hone (by exact List.not_mem_nil) rfl
  refine ⟨⟨_, _, hno, rfl, rfl, rfl, rfl, rfl, fun hawait => ?_⟩, _, hone, rfl, rfl, fun hawait => ?_⟩
  · have hmem := hawait.1 [0] _ 0 10 rfl List.mem_cons_self rfl rfl rfl
    exact absurd hmem (by decide)
  · obtain ⟨l, hl⟩ := hawait.2 ()
    exact not_spells_of_self_loop (a := 0) rfl rfl l hl

end Executor

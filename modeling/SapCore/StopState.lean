import SapCore.IntrusiveList

/-!
# Stop states

A `stop_state` is what a `StopSource` and its `StopToken`s share: whether a stop
was requested, and the list of the callbacks to call when it is. The list is
intrusive: a `stop_callback_node` is registered by its address, carries the links
and the function to call, and unlinks itself when it is destroyed.

The model has the fields of all nodes that may be registered with one
`stop_state`, by node: the links, whether the node's `state` points to this
`stop_state`, and the function with its argument, if it is not null. What a
callback does is the business of those who arm it; here it is of any type `F`.
-/

/-- `stop_state`, with the nodes that may be registered. -/
structure StopState (ν F : Type*) where
  stopped : Bool
  /-- `head`, and `next` and `prev` of every node. -/
  links : Links ν
  /-- Whether `state` of a node points here; it is null otherwise. -/
  state : ν → Bool
  /-- `fn` and `arg` of a node; `none` is a null function. -/
  fn : ν → Option F

namespace StopState

variable {ν F : Type*}

/-- A new `stop_state`, and nodes that have not been armed. -/
def new : StopState ν F := ⟨false, .empty, fun _ => false, fun _ => none⟩

/-! ## What a stop state stands for -/

/-- **The stop state holds the list**: its links spell it, and the nodes in it are
those that point back. -/
structure Holds (s : StopState ν F) (l : List ν) : Prop where
  spells : s.links.Spells l
  state_iff : ∀ n, s.state n = true ↔ n ∈ l

variable {s : StopState ν F} {l : List ν} {cb : ν} {fn : Option F}

theorem holds_new : (new : StopState ν F).Holds [] where
  spells := Links.spells_empty
  state_iff n := by simp [new]

/-- What a node is armed with does not change the list. -/
theorem Holds.setFn (hs : s.Holds l) (f : ν → Option F) : Holds { s with fn := f } l :=
  ⟨hs.spells, hs.state_iff⟩

theorem Holds.setStopped (hs : s.Holds l) (stopped : Bool) :
    Holds { s with stopped := stopped } l :=
  ⟨hs.spells, hs.state_iff⟩

/-! ## The operations -/

variable [DecidableEq ν]

/-- `link`. -/
def link (s : StopState ν F) (cb : ν) : StopState ν F :=
  { s with links := s.links.pushFront cb, state := Function.update s.state cb true }

/-- `unlink`. -/
def unlink (s : StopState ν F) (cb : ν) : StopState ν F :=
  { s with links := s.links.remove cb, state := Function.update s.state cb false }

/-- `~stop_callback_node`. -/
def destroy (s : StopState ν F) (cb : ν) : StopState ν F :=
  if s.state cb then s.unlink cb else s

/-- `StopToken::_arm`, up to the call of a function that has to fire at once:
the state afterwards, and whether the stop was already requested. -/
def arm (s : StopState ν F) (cb : ν) (fn : Option F) : StopState ν F × Bool :=
  let s := { s with fn := Function.update s.fn cb fn }
  if s.stopped then (s, true) else (s.link cb, false)

/-- The beginning of a turn of the loop of `request_stop`: the node at the head,
unlinked. -/
def unlinkHead (s : StopState ν F) : Option (ν × StopState ν F) :=
  match s.links.head with
  | some cb => some (cb, s.unlink cb)
  | none => none

theorem Holds.link (hs : s.Holds l) (hcb : cb ∉ l) : (s.link cb).Holds (cb :: l) where
  spells := hs.spells.pushFront hcb
  state_iff n := by
    show Function.update s.state cb true n = true ↔ _
    by_cases hn : n = cb
    · subst hn
      simp
    · rw [Function.update_of_ne hn, hs.state_iff, List.mem_cons]
      simp [hn]

theorem Holds.unlink (hs : s.Holds l) (hcb : cb ∈ l) : (s.unlink cb).Holds (l.erase cb) where
  spells := hs.spells.remove hcb
  state_iff n := by
    show Function.update s.state cb false n = true ↔ _
    rw [hs.spells.nodup.mem_erase_iff]
    by_cases hn : n = cb
    · subst hn
      simp
    · rw [Function.update_of_ne hn, hs.state_iff]
      simp [hn]

/-- **Destroying a node erases it**, if it is in the list. -/
theorem Holds.destroy (hs : s.Holds l) (cb : ν) : (s.destroy cb).Holds (l.erase cb) := by
  unfold StopState.destroy
  split
  · rename_i hstate
    exact hs.unlink ((hs.state_iff cb).mp hstate)
  · rename_i hstate
    rw [List.erase_of_not_mem (fun hmem => hstate ((hs.state_iff cb).mpr hmem))]
    exact hs

/-- The loop ends where the list is empty. -/
theorem Holds.unlinkHead_nil (hs : s.Holds []) : s.unlinkHead = none := by
  unfold StopState.unlinkHead
  rw [hs.spells.head]
  rfl

/-- **A turn of the loop takes the first node.** -/
theorem Holds.unlinkHead_cons {rest : List ν} (hs : s.Holds (cb :: rest)) :
    s.unlinkHead = some (cb, s.unlink cb) ∧ (s.unlink cb).Holds rest := by
  refine ⟨?_, ?_⟩
  · unfold StopState.unlinkHead
    rw [hs.spells.head]
    rfl
  · have hrest : (s.unlink cb).Holds ((cb :: rest).erase cb) := hs.unlink List.mem_cons_self
    rwa [List.erase_cons_head] at hrest

end StopState

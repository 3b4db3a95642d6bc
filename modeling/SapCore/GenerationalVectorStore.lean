import SapCore.GenerationalStale
import SapCore.GenerationalVector

/-!
# The vector with its allocator is a store

A `generational_vector` is used with the handles of a
`generational_index_allocator`, which knows nothing of it. What ties the two is
that a value is only ever stored under a handle that was returned: of a slot of
the allocator, and of a generation that slot has reached (`Kept`). A live handle
has the generation its slot is in, which no stored generation exceeds; so `set`
does not refuse it, no other handle can write a value it would find, and what it
finds is what was last set through it – unless its slot was emptied since
(`lastSet`).
-/

namespace GenerationalVector

open GenerationalIndexAllocator (Means Stamped AllFresh Issued)

variable {T : Type*}

/-- A call to the allocator or to the vector. -/
inductive StoreOp (T : Type*) where
  | allocate
  | deallocate (h : GenerationalIndex)
  | set (h : GenerationalIndex) (val : T)
  | remove (h : GenerationalIndex)
  deriving DecidableEq, Repr

/-- **An allocator with its history, and a vector.** -/
structure Store (T : Type*) where
  slots : GenerationalIndexAllocator.Run
  vector : GenerationalVector T

namespace Store

/-- One call. -/
def step (s : Store T) : StoreOp T → Store T
  | .allocate => { s with slots := s.slots.step .allocate }
  | .deallocate h => { s with slots := s.slots.step (.deallocate h) }
  | .set h val => { s with vector := (s.vector.set h val).1 }
  | .remove h => { s with vector := s.vector.remove h }

/-- **A run of calls**, from a new allocator and a new vector. -/
def after (ops : List (StoreOp T)) : Store T :=
  ops.foldl step ⟨GenerationalIndexAllocator.Run.after [], empty⟩

@[simp] theorem after_nil :
    (after [] : Store T) = ⟨GenerationalIndexAllocator.Run.after [], empty⟩ := rfl

@[simp] theorem after_concat (ops : List (StoreOp T)) (op : StoreOp T) :
    after (ops ++ [op]) = (after ops).step op := by
  unfold after
  rw [List.foldl_append]
  rfl

end Store

/-- The number of calls of `allocate`. -/
def allocations (ops : List (StoreOp T)) : ℕ := ops.countP (fun op => op matches .allocate)

/-- A call goes to the vector only with a handle that has been returned. -/
def UsesReturned (s : Store T) : StoreOp T → Prop
  | .set h _ => h ∈ s.slots.returned
  | .remove h => h ∈ s.slots.returned
  | .allocate => True
  | .deallocate _ => True

/-- Every call of a run does. -/
def AllUseReturned (ops : List (StoreOp T)) : Prop :=
  History.Each (fun before op => UsesReturned (Store.after before) op) ops

/-- **The value last set through a handle**, if its index was not removed since. -/
def lastSet (h : GenerationalIndex) : List (StoreOp T) → Option T :=
  List.foldl (fun last op =>
    match op with
    | .set h' val => if h' = h then some val else last
    | .remove h' => if h'.index = h.index then none else last
    | _ => last) none

theorem lastSet_concat (h : GenerationalIndex) (ops : List (StoreOp T)) (op : StoreOp T) :
    lastSet h (ops ++ [op])
      = match op with
        | .set h' val => if h' = h then some val else lastSet h ops
        | .remove h' => if h'.index = h.index then none else lastSet h ops
        | _ => lastSet h ops := by
  unfold lastSet
  rw [List.foldl_append]
  rfl

theorem allocations_concat (ops : List (StoreOp T)) (op : StoreOp T) :
    allocations (ops ++ [op]) = allocations ops + allocations [op] := by
  unfold allocations
  exact List.countP_append

variable {ops : List (StoreOp T)} {s : Store T} {h : GenerationalIndex} {x : T}

/-! ## What ties the two -/

/-- **The vector keeps to the allocator's handles**: its values are stored under
handles that were returned, in slots the allocator has, and a live handle finds
what was last set through it. -/
structure Kept (ops : List (StoreOp T)) (s : Store T) : Prop where
  stamped : Stamped s.slots
  length_returned : s.slots.returned.length = allocations ops
  length_le : s.vector.entries.length ≤ s.slots.allocator.entries.length
  stored : ∀ i e, s.vector.slot i = some e → ⟨i, e.generation⟩ ∈ s.slots.returned
  get_eq : ∀ h ∈ s.slots.live, s.vector.get h = lastSet h ops
  lastSet_eq : ∀ h ∉ s.slots.returned, lastSet h ops = none

theorem kept_nil : Kept [] (Store.after [] : Store T) where
  stamped := GenerationalIndexAllocator.stamped_nil
  length_returned := rfl
  length_le := Nat.le_refl _
  stored _ _ hslot := absurd hslot (by simp)
  get_eq _ hlive := absurd hlive (by simp)
  lastSet_eq _ _ := rfl

/-- A live handle has been returned, and is of the newest generation its slot has
reached: no handle that was returned for the slot exceeds it. -/
theorem Kept.newest (hk : Kept ops s) (hlive : h ∈ s.slots.live) :
    h ∈ s.slots.returned
      ∧ ∀ h' ∈ s.slots.returned, h'.index = h.index → h'.generation ≤ h.generation := by
  have halive := (hk.stamped.means.mem_live h).mp hlive
  obtain ⟨e, he, hgeneration, -⟩ := GenerationalIndexAllocator.isAlive_iff.mp halive
  refine ⟨(hk.stamped.mem_returned h).mpr ⟨e, he, ?_⟩, fun h' hreturned hindex => ?_⟩
  · rw [hgeneration]
    exact UInt32.le_refl _
  · obtain ⟨e', he', hle⟩ := (hk.stamped.mem_returned h').mp hreturned
    rw [hindex, he] at he'
    cases he'
    rwa [hgeneration] at hle

/-- No stored generation exceeds that of a live handle. -/
theorem Kept.prevGen_le (hk : Kept ops s) (hlive : h ∈ s.slots.live) :
    s.vector.prevGen h.index ≤ h.generation := by
  unfold prevGen
  split
  · rename_i e hslot
    exact (hk.newest hlive).2 _ (hk.stored _ e hslot) rfl
  · exact UInt32.zero_le

/-- There is a slot for every handle that was returned. -/
theorem Kept.index_lt (hk : Kept ops s) (hreturned : h ∈ s.slots.returned) :
    h.index.toNat < s.slots.allocator.entries.length := by
  obtain ⟨e, he, -⟩ := (hk.stamped.mem_returned h).mp hreturned
  exact (List.getElem?_eq_some_iff.mp he).1

/-! ## The calls -/

/-- A fresh `allocate` returns a handle under which nothing is stored. -/
theorem Kept.allocate (hk : Kept ops s) (hfew : allocations ops + 1 < 2 ^ 32) :
    Kept (ops ++ [.allocate]) (s.step .allocate) := by
  have hstamped : Stamped (s.slots.step .allocate) :=
    hk.stamped.allocate (hk.stamped.fresh_of_lt (by rw [hk.length_returned]; exact hfew))
  have hmem : ∀ h, h ∈ s.slots.returned → h ∈ (s.slots.step .allocate).returned :=
    fun h hreturned => List.mem_append_left _ hreturned
  refine ⟨hstamped, ?_, ?_, fun i e hslot => hmem _ (hk.stored i e hslot), fun h hlive => ?_,
    fun h hreturned => ?_⟩
  · rw [allocations_concat, ← hk.length_returned]
    exact List.length_append
  · exact Nat.le_trans hk.length_le
      (GenerationalIndexAllocator.length_entries_le_step s.slots .allocate)
  · rw [lastSet_concat]
    obtain rfl | hlive := hlive
    · -- the new handle has not been returned before, so nothing was set through it
      have hnew : s.slots.allocator.allocate.2 ∉ s.slots.returned := by
        have hnodup := hstamped.nodup
        exact fun hmem => absurd rfl
          ((List.nodup_append.mp hnodup).2.2 _ hmem _ (List.mem_singleton_self _))
      show _ = lastSet s.slots.allocator.allocate.2 ops
      rw [hk.lastSet_eq _ hnew]
      show s.vector.get _ = none
      rw [get_eq_none_iff]
      rintro e hslot hgeneration
      have hstored := hk.stored _ e hslot
      rw [hgeneration] at hstored
      exact hnew hstored
    · exact hk.get_eq h hlive
  · rw [lastSet_concat]
    exact hk.lastSet_eq h (fun hold => hreturned (hmem h hold))

theorem Kept.deallocate (hk : Kept ops s) (h : GenerationalIndex) :
    Kept (ops ++ [.deallocate h]) (s.step (.deallocate h)) where
  stamped := hk.stamped.deallocate h
  length_returned := by
    rw [allocations_concat]
    exact hk.length_returned
  length_le := Nat.le_trans hk.length_le
    (GenerationalIndexAllocator.length_entries_le_step s.slots (.deallocate h))
  stored := hk.stored
  get_eq h' hlive := by
    rw [lastSet_concat]
    exact hk.get_eq h' hlive.1
  lastSet_eq h' hreturned := by
    rw [lastSet_concat]
    exact hk.lastSet_eq h' hreturned

/-- **`set` through a handle that was returned**: a live handle finds the value if
it is its own, and what it found before otherwise – of a smaller generation the
value is refused, or is not found. -/
theorem Kept.set (hk : Kept ops s) (hreturned : h ∈ s.slots.returned) (x : T) :
    Kept (ops ++ [.set h x]) (s.step (.set h x)) where
  stamped := hk.stamped
  length_returned := by
    rw [allocations_concat]
    exact hk.length_returned
  length_le := by
    show (s.vector.set h x).1.entries.length ≤ _
    rw [length_set]
    exact Nat.max_le.mpr ⟨hk.index_lt hreturned, hk.length_le⟩
  stored i e hslot := by
    change (s.vector.set h x).1.slot i = some e at hslot
    rw [slot_set] at hslot
    split at hslot
    · rename_i htaken
      cases hslot
      rw [htaken.1]
      exact hreturned
    · exact hk.stored i e hslot
  get_eq h' hlive := by
    rw [lastSet_concat]
    show (s.vector.set h x).1.get h' = if h = h' then some x else lastSet h' ops
    split
    · rename_i heq
      subst heq
      rw [get_eq_some_iff, slot_set, if_pos ⟨rfl, hk.prevGen_le hlive⟩]
    · rename_i hne
      rw [← hk.get_eq h' hlive]
      by_cases htaken : h'.index = h.index ∧ s.vector.prevGen h.index ≤ h.generation
      · -- the handle is of a smaller generation, and so was what the slot held
        have hlt : h.generation ≠ h'.generation := fun heq =>
          hne (GenerationalIndex.ext htaken.1.symm heq)
        have hle := (hk.newest hlive).2 h hreturned htaken.1.symm
        rw [get_eq_none_iff.mpr (fun e hslot => ?_), get_eq_none_iff.mpr (fun e hslot => ?_)]
        · intro hgeneration
          have hprev : s.vector.prevGen h.index = e.generation := by
            unfold prevGen
            rw [← htaken.1, hslot]
          rw [hprev, hgeneration] at htaken
          exact hlt (UInt32.le_antisymm hle htaken.2)
        · rw [slot_set, if_pos htaken] at hslot
          cases hslot
          exact hlt
      · exact get_congr (by rw [slot_set, if_neg htaken])
  lastSet_eq h' hnot := by
    rw [lastSet_concat]
    show (if h = h' then some x else lastSet h' ops) = none
    rw [if_neg (fun heq => hnot (by rw [← heq]; exact hreturned))]
    exact hk.lastSet_eq h' hnot

theorem Kept.remove (hk : Kept ops s) (h : GenerationalIndex) :
    Kept (ops ++ [.remove h]) (s.step (.remove h)) where
  stamped := hk.stamped
  length_returned := by
    rw [allocations_concat]
    exact hk.length_returned
  length_le := by
    show (s.vector.remove h).entries.length ≤ _
    rw [length_remove]
    exact hk.length_le
  stored i e hslot := by
    change (s.vector.remove h).slot i = some e at hslot
    rw [slot_remove] at hslot
    split at hslot
    · cases hslot
    · exact hk.stored i e hslot
  get_eq h' hlive := by
    rw [lastSet_concat]
    show (s.vector.remove h).get h' = if h.index = h'.index then none else lastSet h' ops
    split
    · rename_i hindex
      rw [get_eq_none_iff]
      intro e hslot
      rw [slot_remove, if_pos hindex.symm] at hslot
      cases hslot
    · rename_i hindex
      rw [← hk.get_eq h' hlive]
      exact get_congr (by rw [slot_remove, if_neg (Ne.symm hindex)])
  lastSet_eq h' hnot := by
    rw [lastSet_concat]
    show (if h.index = h'.index then none else lastSet h' ops) = none
    split
    · rfl
    · exact hk.lastSet_eq h' hnot

/-! ## Runs -/

/-- **A run with fewer than `2 ^ 32` calls of `allocate` keeps them tied.** -/
theorem kept_after (ops : List (StoreOp T)) :
    AllUseReturned ops → allocations ops < 2 ^ 32 → Kept ops (Store.after ops) := by
  induction ops using List.reverseRecOn with
  | nil => exact fun _ _ => kept_nil
  | append_singleton ops op ih =>
    intro huse hfew
    obtain ⟨hbefore, hlast⟩ := (History.each_concat ops op).mp huse
    rw [allocations_concat] at hfew
    have hk := ih hbefore (Nat.lt_of_le_of_lt (Nat.le_add_right _ _) hfew)
    rw [Store.after_concat]
    cases op with
    | allocate => exact hk.allocate hfew
    | deallocate h => exact hk.deallocate h
    | set h x => exact hk.set hlast x
    | remove h => exact hk.remove h

/-- There are fewer than `2 ^ 32` slots, so the scans come to an end. -/
theorem Kept.length_lt (hk : Kept ops s) (hfew : allocations ops < 2 ^ 32) :
    s.vector.entries.length < 2 ^ 32 := by
  have hle := hk.stamped.length_le_returned
  rw [hk.length_returned] at hle
  exact Nat.lt_of_le_of_lt (Nat.le_trans hk.length_le hle) hfew

/-- **What the scans find**: the live handles under which there is a value. -/
theorem Kept.mem_validFrom (hk : Kept ops s) :
    (h, x) ∈ s.vector.validFrom s.slots.allocator 0
      ↔ h ∈ s.slots.live ∧ s.vector.get h = some x := by
  rw [mem_validFrom_zero, hk.stamped.means.mem_live, and_comm]

/-- **The vector with its allocator is a store.** In a run with fewer than
`2 ^ 32` calls of `allocate`, in which the vector is called with handles that were
returned, live or stale: `set` through a live handle is never refused, and the
value is then found; a live handle finds the value last set through it, if its
index was not removed since, and nothing otherwise; `get_all_valid_indices` comes
to an end and returns exactly the live handles that find a value, in increasing
order of their indices; and `get_first_valid_entry` comes to an end and returns the
first of them with its value, and nothing where there is none. -/
theorem store_correct (ops : List (StoreOp T)) (huse : AllUseReturned ops)
    (hfew : allocations ops < 2 ^ 32) :
    (∀ h ∈ (Store.after ops).slots.live, ∀ x,
        ((Store.after ops).vector.set h x).2 = none
          ∧ ((Store.after ops).vector.set h x).1.get h = some x)
      ∧ (∀ h ∈ (Store.after ops).slots.live, (Store.after ops).vector.get h = lastSet h ops)
      ∧ ∃ handles : List GenerationalIndex,
        handles.Pairwise (fun h h' => h.index < h'.index)
          ∧ (∀ h, h ∈ handles
            ↔ h ∈ (Store.after ops).slots.live ∧ (Store.after ops).vector.get h ≠ none)
          ∧ ∀ fuel > (Store.after ops).vector.entries.length,
            (Store.after ops).vector.getAllValidIndices (Store.after ops).slots.allocator fuel
                = some handles
              ∧ match handles with
                | [] => (Store.after ops).vector.getFirstValidEntry
                    (Store.after ops).slots.allocator fuel = some none
                | h :: _ => ∃ x, (Store.after ops).vector.get h = some x
                  ∧ (Store.after ops).vector.getFirstValidEntry
                    (Store.after ops).slots.allocator fuel = some (some (h, x)) := by
  have hk := kept_after ops huse hfew
  have hlen := hk.length_lt hfew
  generalize Store.after ops = s at hk hlen
  refine ⟨fun h hlive x => ⟨?_, ?_⟩, hk.get_eq, (s.vector.validFrom s.slots.allocator 0).map Prod.fst,
    pairwise_validFrom_zero (Nat.le_of_lt hlen), fun h => ?_, fun fuel hfuel => ⟨?_, ?_⟩⟩
  · rw [set_refusal_eq_none_iff]
    exact hk.prevGen_le hlive
  · rw [get_eq_some_iff, slot_set, if_pos ⟨rfl, hk.prevGen_le hlive⟩]
  · rw [List.mem_map, Option.ne_none_iff_exists']
    constructor
    · rintro ⟨⟨h, x⟩, hmem, rfl⟩
      obtain ⟨hlive, hget⟩ := hk.mem_validFrom.mp hmem
      exact ⟨hlive, x, hget⟩
    · rintro ⟨hlive, x, hget⟩
      exact ⟨(h, x), hk.mem_validFrom.mpr ⟨hlive, hget⟩, rfl⟩
  · exact getAllValidIndicesLoop_eq hlen fuel 0 [] (Nat.zero_le _) (by simpa using hfuel)
  · have hfirst : s.vector.getFirstValidEntry s.slots.allocator fuel = _ :=
      getFirstValidEntryLoop_eq hlen fuel 0 (Nat.zero_le _) (by simpa using hfuel)
    rw [hfirst]
    cases hvalid : s.vector.validFrom s.slots.allocator 0 with
    | nil => simp [hvalid]
    | cons found rest =>
      obtain ⟨h, x⟩ := found
      have hmem : (h, x) ∈ s.vector.validFrom s.slots.allocator 0 := by
        rw [hvalid]
        exact List.mem_cons_self
      exact ⟨x, (hk.mem_validFrom.mp hmem).2, by simp [hvalid]⟩

/-- A slot reused, with a value of its old handle in it. -/
def reuseStore : List (StoreOp ℕ) :=
  [.allocate, .allocate, .set ⟨0, 0⟩ 7, .set ⟨1, 0⟩ 8, .deallocate ⟨0, 0⟩, .allocate]

/-- After that run the second slot is the first with a live handle: the value in
the first was set through a handle that is stale. -/
theorem store_correct_reuse :
    AllUseReturned reuseStore ∧ allocations reuseStore < 2 ^ 32
      ∧ (Store.after reuseStore).vector.get ⟨0, 1⟩ = none
      ∧ (Store.after reuseStore).vector.get ⟨1, 0⟩ = some 8 := by
  have huse : AllUseReturned reuseStore := by
    have hsplit : reuseStore = [] ++ [StoreOp.allocate] ++ [StoreOp.allocate]
      ++ [StoreOp.set ⟨0, 0⟩ 7] ++ [StoreOp.set ⟨1, 0⟩ 8] ++ [StoreOp.deallocate ⟨0, 0⟩]
      ++ [StoreOp.allocate] := rfl
    rw [hsplit]
    simp only [AllUseReturned, History.each_concat, History.each_nil, UsesReturned]
    decide
  have hfew : allocations reuseStore < 2 ^ 32 := by decide
  obtain ⟨-, hget, -⟩ := store_correct reuseStore huse hfew
  have hallocator : (Store.after reuseStore).slots.allocator = ⟨[⟨true, 1⟩, ⟨true, 0⟩], []⟩ := by
    decide
  have hlive : ∀ h, (Store.after reuseStore).slots.allocator.isAlive h = true →
      h ∈ (Store.after reuseStore).slots.live := fun h =>
    ((kept_after reuseStore huse hfew).stamped.means.mem_live h).mpr
  refine ⟨huse, hfew, ?_, ?_⟩
  · rw [hget ⟨0, 1⟩ (hlive _ (by rw [hallocator]; decide))]
    decide
  · rw [hget ⟨1, 0⟩ (hlive _ (by rw [hallocator]; decide))]
    decide

end GenerationalVector

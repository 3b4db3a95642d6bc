import Mathlib.Algebra.Group.Nat.Defs
import Mathlib.Data.List.Basic
import Mathlib.Data.Set.Insert

/-!
# Generational indices

A `generational_index` names a slot together with the generation of the slot at
the time it was handed out, so that a handle kept after its slot has been reused
can be told from the handle of the new owner. `generational_index_allocator`
hands them out: it keeps the generation of every slot and whether it is alive,
and a stack of the slots that are not.

The indices and generations are 32-bit, as in the source, and wrap as they do
there. `m_free_indices` is a vector used as a stack; the model lists it with its
back first.
-/

/-- `generational_index`. -/
@[ext] structure GenerationalIndex where
  index : UInt32
  generation : UInt32
  deriving DecidableEq, Repr

namespace GenerationalIndexAllocator

/-- `entry`: a slot. -/
structure Entry where
  isAlive : Bool
  generation : UInt32
  deriving DecidableEq, Repr

end GenerationalIndexAllocator

/-- `generational_index_allocator`. -/
structure GenerationalIndexAllocator where
  /-- `m_entries`. -/
  entries : List GenerationalIndexAllocator.Entry
  /-- `m_free_indices`, its back first. -/
  freeIndices : List UInt32
  deriving DecidableEq, Repr

namespace GenerationalIndexAllocator

/-- A new allocator has no slots. -/
def empty : GenerationalIndexAllocator := ⟨[], []⟩

/-- `m_entries[idx]`. Past the end, where the source has no entry to read, it is
a dead one of generation zero. -/
def entry (a : GenerationalIndexAllocator) (idx : UInt32) : Entry :=
  (a.entries[idx.toNat]?).getD ⟨false, 0⟩

/-- `allocate`: the slot freed last is reused, with its generation incremented;
where there is none, a slot is added. -/
def allocate (a : GenerationalIndexAllocator) : GenerationalIndexAllocator × GenerationalIndex :=
  match a.freeIndices with
  | idx :: rest =>
    let generation := (a.entry idx).generation + 1
    (⟨a.entries.set idx.toNat ⟨true, generation⟩, rest⟩, ⟨idx, generation⟩)
  | [] =>
    let entries := a.entries ++ [⟨true, 0⟩]
    (⟨entries, []⟩, ⟨UInt32.ofNat entries.length - 1, 0⟩)

/-- `is_alive`. -/
def isAlive (a : GenerationalIndexAllocator) (h : GenerationalIndex) : Bool :=
  decide (h.index.toNat < a.entries.length) && (a.entry h.index).generation == h.generation
    && (a.entry h.index).isAlive

/-- `deallocate`. -/
def deallocate (a : GenerationalIndexAllocator) (h : GenerationalIndex) :
    GenerationalIndexAllocator :=
  if a.isAlive h then
    ⟨a.entries.set h.index.toNat { a.entry h.index with isAlive := false },
      h.index :: a.freeIndices⟩
  else a

variable {a : GenerationalIndexAllocator} {h : GenerationalIndex} {e : Entry}

theorem allocate_reuse {idx : UInt32} {rest : List UInt32} (hfree : a.freeIndices = idx :: rest) :
    a.allocate = (⟨a.entries.set idx.toNat ⟨true, (a.entry idx).generation + 1⟩, rest⟩,
      ⟨idx, (a.entry idx).generation + 1⟩) := by
  unfold allocate
  rw [hfree]

theorem allocate_add (hfree : a.freeIndices = []) :
    a.allocate = (⟨a.entries ++ [⟨true, 0⟩], []⟩, ⟨UInt32.ofNat a.entries.length, 0⟩) := by
  have hindex : UInt32.ofNat (a.entries ++ [(⟨true, 0⟩ : Entry)]).length - 1
      = UInt32.ofNat a.entries.length := by
    rw [List.length_append, UInt32.ofNat_add]
    exact UInt32.add_sub_cancel _ _
  unfold allocate
  rw [hfree]
  exact congrArg (fun index => (_, GenerationalIndex.mk index 0)) hindex

/-- A handle is alive when its slot is, in its generation. -/
theorem isAlive_iff :
    a.isAlive h = true
      ↔ ∃ e, a.entries[h.index.toNat]? = some e ∧ e.generation = h.generation
        ∧ e.isAlive = true := by
  unfold isAlive entry
  by_cases hlt : h.index.toNat < a.entries.length
  · simp [hlt]
  · simp [hlt]

theorem entry_eq {idx : UInt32} (he : a.entries[idx.toNat]? = some e) : a.entry idx = e := by
  unfold entry
  rw [he]
  rfl

/-- Setting one slot does not touch the handles of the others. -/
theorem isAlive_set_of_ne {i : ℕ} {x : Entry} {free : List UInt32} {entries : List Entry}
    (free' : List UInt32) (hne : h.index.toNat ≠ i) :
    isAlive ⟨entries.set i x, free⟩ h = isAlive ⟨entries, free'⟩ h := by
  rw [Bool.eq_iff_iff, isAlive_iff, isAlive_iff]
  simp only [List.getElem?_set_ne (Ne.symm hne)]

/-- The handles of the slot that is set are judged by what it is set to. -/
theorem isAlive_set_self {x : Entry} {free : List UInt32} {entries : List Entry}
    (hlt : h.index.toNat < entries.length) :
    isAlive ⟨entries.set h.index.toNat x, free⟩ h = true
      ↔ x.generation = h.generation ∧ x.isAlive = true := by
  rw [isAlive_iff]
  simp [List.getElem?_set_self hlt]

/-- Past the last slot there is only the one that is added. -/
theorem getElem?_append_eq_some {i : ℕ} {x : Entry} {entries : List Entry} :
    (entries ++ [x])[i]? = some e
      ↔ entries[i]? = some e ∨ i = entries.length ∧ e = x := by
  by_cases hlt : i < entries.length
  · rw [List.getElem?_append_left hlt]
    exact ⟨Or.inl, fun hor => hor.resolve_right (fun hlast => absurd hlast.1 (Nat.ne_of_lt hlt))⟩
  · rw [List.getElem?_append_right (Nat.le_of_not_lt hlt), List.getElem?_singleton,
      List.getElem?_eq_none (Nat.le_of_not_lt hlt)]
    by_cases hlast : i = entries.length
    · simp [hlast, eq_comm]
    · have hne : i - entries.length ≠ 0 := by omega
      simp [hlast, hne]

/-! ## Runs -/

/-- A call to the allocator. -/
inductive Op where
  | allocate
  | deallocate (h : GenerationalIndex)
  deriving DecidableEq, Repr

/-- **An allocator with its history**: the handles it has returned and those
that were then deallocated – and what it stands for, the set of live handles,
into which `allocate` inserts the handle it returns and from which `deallocate`
erases the handle it is given. -/
structure Run where
  allocator : GenerationalIndexAllocator
  live : Set GenerationalIndex
  returned : List GenerationalIndex
  deallocated : List GenerationalIndex

namespace Run

/-- One call. -/
def step (s : Run) : Op → Run
  | .allocate =>
    { s with
      allocator := s.allocator.allocate.1
      live := insert s.allocator.allocate.2 s.live
      returned := s.returned ++ [s.allocator.allocate.2] }
  | .deallocate h =>
    { s with
      allocator := s.allocator.deallocate h
      live := s.live \ {h}
      deallocated := if s.allocator.isAlive h then s.deallocated ++ [h] else s.deallocated }

/-- **A run of calls**, from a new allocator. -/
def after (ops : List Op) : Run := ops.foldl step ⟨empty, ∅, [], []⟩

@[simp] theorem after_nil : after [] = ⟨empty, ∅, [], []⟩ := rfl

@[simp] theorem after_concat (ops : List Op) (op : Op) :
    after (ops ++ [op]) = (after ops).step op := by
  unfold after
  rw [List.foldl_append]
  rfl

end Run

end GenerationalIndexAllocator

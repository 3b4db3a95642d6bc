import Mathlib.Data.List.Induction
import Mathlib.Order.BooleanAlgebra.Set
import SapCore.Generational

/-!
# The allocator is a set of live handles

What the allocator is for is said by a set: `allocate` puts a new handle into
it, `deallocate` takes one out, and `is_alive` asks whether a handle is in it.
The three pieces of its state – the flags, the generations and the stack of free
slots – stand for that set through an invariant (`Means`), which every call
restores, whatever handle it is given. All of this is as long as the slots can
be told apart by 32-bit indices, that is, with at most `2 ^ 32` of them.
-/

namespace GenerationalIndexAllocator

/-- **What the allocator means**: its free slots are the dead ones, each once,
and the live handles are those it reports alive. -/
structure Means (a : GenerationalIndexAllocator) (live : Set GenerationalIndex) : Prop where
  nodup : a.freeIndices.Nodup
  mem_free : ∀ i : UInt32,
    i ∈ a.freeIndices ↔ ∃ e, a.entries[i.toNat]? = some e ∧ e.isAlive = false
  mem_live : ∀ h, h ∈ live ↔ a.isAlive h = true

variable {a : GenerationalIndexAllocator} {live : Set GenerationalIndex} {h : GenerationalIndex}

theorem means_empty : Means empty ∅ where
  nodup := List.nodup_nil
  mem_free _ := by simp [empty]
  mem_live _ := by simp [isAlive_iff, empty]

/-! ## Reusing a slot -/

/-- **A free slot taken back into use, in its next generation.** -/
theorem Means.reuse {idx : UInt32} {rest : List UInt32} (hm : Means a live)
    (hfree : a.freeIndices = idx :: rest) (generation : UInt32) :
    Means ⟨a.entries.set idx.toNat ⟨true, generation⟩, rest⟩
        (insert ⟨idx, generation⟩ live)
      ∧ ∀ h ∈ live, h.index ≠ idx := by
  have hnodup := hm.nodup
  rw [hfree, List.nodup_cons] at hnodup
  obtain ⟨e, he, hdead⟩ := (hm.mem_free idx).mp (by rw [hfree]; exact List.mem_cons_self)
  obtain ⟨hlt, -⟩ := List.getElem?_eq_some_iff.mp he
  -- a live handle's slot is alive, and this one is free
  have hunused : ∀ h ∈ live, h.index ≠ idx := by
    rintro h hlive rfl
    obtain ⟨e', he', -, halive⟩ := isAlive_iff.mp ((hm.mem_live h).mp hlive)
    rw [he] at he'
    cases he'
    rw [hdead] at halive
    cases halive
  refine ⟨⟨hnodup.2, fun i => ?_, fun h => ?_⟩, hunused⟩
  · by_cases hi : i = idx
    · subst hi
      simp [List.getElem?_set_self hlt, hnodup.1]
    · have hne : idx.toNat ≠ i.toNat := fun heq => hi (UInt32.toNat_inj.mp heq.symm)
      rw [List.getElem?_set_ne hne, ← hm.mem_free i, hfree, List.mem_cons]
      exact ⟨Or.inr, fun hmem => hmem.resolve_left hi⟩
  · rw [Set.mem_insert_iff]
    by_cases hi : h.index = idx
    · subst hi
      rw [isAlive_set_self hlt]
      constructor
      · rintro (heq | hlive)
        · exact ⟨(congrArg GenerationalIndex.generation heq).symm, rfl⟩
        · exact absurd rfl (hunused h hlive)
      · rintro ⟨rfl, -⟩
        exact Or.inl rfl
    · have hne : h.index.toNat ≠ idx.toNat := fun heq => hi (UInt32.toNat_inj.mp heq)
      rw [isAlive_set_of_ne a.freeIndices hne]
      refine ⟨?_, fun halive => Or.inr ((hm.mem_live h).mpr halive)⟩
      rintro (rfl | hlive)
      · exact absurd rfl hi
      · exact (hm.mem_live h).mp hlive

/-! ## Adding a slot -/

/-- **A slot added behind the others.** -/
theorem Means.add (hm : Means a live) (hfree : a.freeIndices = []) {idx : UInt32}
    (hidx : idx.toNat = a.entries.length) :
    Means ⟨a.entries ++ [⟨true, 0⟩], []⟩ (insert ⟨idx, 0⟩ live)
      ∧ ∀ h ∈ live, h.index ≠ idx := by
  have hinside : ∀ h ∈ live, h.index.toNat < a.entries.length := by
    intro h hlive
    obtain ⟨e, he, -⟩ := isAlive_iff.mp ((hm.mem_live h).mp hlive)
    exact (List.getElem?_eq_some_iff.mp he).1
  have hunused : ∀ h ∈ live, h.index ≠ idx := by
    rintro h hlive rfl
    exact absurd (hinside h hlive) (by omega)
  refine ⟨⟨List.nodup_nil, fun i => ?_, fun h => ?_⟩, hunused⟩
  · -- no slot was free, and the new one is not
    refine ⟨fun hmem => absurd hmem List.not_mem_nil, ?_⟩
    rintro ⟨e, he, hdead⟩
    obtain hold | ⟨-, rfl⟩ := getElem?_append_eq_some.mp he
    · have hmem := (hm.mem_free i).mpr ⟨e, hold, hdead⟩
      rw [hfree] at hmem
      exact hmem
    · cases hdead
  · rw [Set.mem_insert_iff, hm.mem_live h, isAlive_iff, isAlive_iff]
    constructor
    · rintro (rfl | ⟨e, he, halive⟩)
      · exact ⟨_, getElem?_append_eq_some.mpr (Or.inr ⟨hidx, rfl⟩), rfl, rfl⟩
      · exact ⟨e, getElem?_append_eq_some.mpr (Or.inl he), halive⟩
    · rintro ⟨e, he, hgeneration, halive⟩
      obtain hold | ⟨hlast, rfl⟩ := getElem?_append_eq_some.mp he
      · exact Or.inr ⟨e, hold, hgeneration, halive⟩
      · obtain rfl : h.index = idx := UInt32.toNat_inj.mp (hlast.trans hidx.symm)
        exact Or.inl (GenerationalIndex.ext rfl hgeneration.symm)

/-! ## The calls -/

/-- **`allocate` inserts the handle it returns**, at an index no live handle
uses. -/
theorem means_allocate (hm : Means a live) (hlen : a.allocate.1.entries.length ≤ 2 ^ 32) :
    Means a.allocate.1 (insert a.allocate.2 live) ∧ ∀ h ∈ live, h.index ≠ a.allocate.2.index := by
  cases hfree : a.freeIndices with
  | cons idx rest =>
    rw [allocate_reuse hfree]
    exact hm.reuse hfree _
  | nil =>
    rw [allocate_add hfree, List.length_append] at hlen
    rw [allocate_add hfree]
    exact hm.add hfree (UInt32.toNat_ofNat_of_lt' hlen)

/-- **`deallocate` erases the handle it is given.** -/
theorem means_deallocate (hm : Means a live) (h : GenerationalIndex) :
    Means (a.deallocate h) (live \ {h}) := by
  unfold deallocate
  split
  · rename_i halive
    obtain ⟨e, he, hgeneration, halive'⟩ := isAlive_iff.mp halive
    obtain ⟨hlt, -⟩ := List.getElem?_eq_some_iff.mp he
    rw [entry_eq he]
    have hused : h.index ∉ a.freeIndices := by
      intro hmem
      obtain ⟨e', he', hdead⟩ := (hm.mem_free h.index).mp hmem
      rw [he] at he'
      cases he'
      rw [hdead] at halive'
      cases halive'
    refine ⟨List.nodup_cons.mpr ⟨hused, hm.nodup⟩, fun i => ?_, fun h' => ?_⟩
    · by_cases hi : i = h.index
      · subst hi
        simp [List.getElem?_set_self hlt]
      · have hne : h.index.toNat ≠ i.toNat := fun heq => hi (UInt32.toNat_inj.mp heq.symm)
        rw [List.getElem?_set_ne hne, ← hm.mem_free i, List.mem_cons]
        exact ⟨fun hmem => hmem.resolve_left hi, Or.inr⟩
    · rw [Set.mem_sdiff, Set.mem_singleton_iff, hm.mem_live h']
      by_cases hi : h'.index = h.index
      · -- a live handle of this slot is the one that is erased
        have hdead : ¬ isAlive ⟨a.entries.set h.index.toNat { e with isAlive := false },
            h.index :: a.freeIndices⟩ h' = true := by
          rw [← hi, isAlive_set_self (by rw [hi]; exact hlt)]
          simp
        refine ⟨fun ⟨hlive, hne⟩ => absurd ?_ hne, fun halive => absurd halive hdead⟩
        obtain ⟨e', he', hgeneration', -⟩ := isAlive_iff.mp hlive
        rw [hi, he] at he'
        cases he'
        exact GenerationalIndex.ext hi (hgeneration'.symm.trans hgeneration)
      · have hne : h'.index.toNat ≠ h.index.toNat := fun heq => hi (UInt32.toNat_inj.mp heq)
        rw [isAlive_set_of_ne a.freeIndices hne]
        exact ⟨fun hlive => hlive.1, fun hlive => ⟨hlive, fun heq => hi (by rw [heq])⟩⟩
  · rename_i hdead
    have hnot : h ∉ live := fun hlive => hdead ((hm.mem_live h).mp hlive)
    rw [Set.sdiff_singleton_eq_self hnot]
    exact hm

/-! ## Runs -/

/-- No call removes a slot. -/
theorem length_entries_le_step (s : Run) (op : Op) :
    s.allocator.entries.length ≤ (s.step op).allocator.entries.length := by
  cases op with
  | allocate =>
    show _ ≤ s.allocator.allocate.1.entries.length
    unfold allocate
    split
    · rw [List.length_set]
    · simp
  | deallocate h =>
    show _ ≤ (s.allocator.deallocate h).entries.length
    unfold deallocate
    split
    · rw [List.length_set]
    · exact le_refl _

/-- **A run of any calls keeps the meaning**, while there are at most `2 ^ 32`
slots. -/
theorem means_after (ops : List Op) :
    (Run.after ops).allocator.entries.length ≤ 2 ^ 32 →
      Means (Run.after ops).allocator (Run.after ops).live := by
  induction ops using List.reverseRecOn with
  | nil => exact fun _ => means_empty
  | append_singleton ops op ih =>
    rw [Run.after_concat]
    intro hlen
    have hm := ih (le_trans (length_entries_le_step _ op) hlen)
    cases op with
    | allocate => exact (means_allocate hm hlen).1
    | deallocate h => exact means_deallocate hm h

/-- **The allocator is a set of live handles.** After any run of calls, with any
handles, that leaves at most `2 ^ 32` slots: exactly the live handles are
reported alive; `allocate` returns an index that no live handle uses;
`deallocate` of any other handle changes nothing; and the free indices are,
each once, those of the slots that are not alive. -/
theorem refines_live (ops : List Op)
    (hlen : (Run.after ops).allocator.entries.length ≤ 2 ^ 32) :
    (∀ h, (Run.after ops).allocator.isAlive h = true ↔ h ∈ (Run.after ops).live)
      ∧ ((Run.after ops).allocator.allocate.1.entries.length ≤ 2 ^ 32 →
        ∀ h ∈ (Run.after ops).live, h.index ≠ (Run.after ops).allocator.allocate.2.index)
      ∧ (∀ h, h ∉ (Run.after ops).live →
        (Run.after ops).allocator.deallocate h = (Run.after ops).allocator)
      ∧ (Run.after ops).allocator.freeIndices.Nodup
      ∧ ∀ i : UInt32, i ∈ (Run.after ops).allocator.freeIndices
        ↔ ∃ e, (Run.after ops).allocator.entries[i.toNat]? = some e ∧ e.isAlive = false := by
  have hm := means_after ops hlen
  refine ⟨fun h => (hm.mem_live h).symm, fun hnext => (means_allocate hm hnext).2, fun h hdead => ?_,
    hm.nodup, hm.mem_free⟩
  rw [hm.mem_live h] at hdead
  unfold deallocate
  rw [if_neg hdead]

/-- Two slots, the first freed twice and reused. -/
def reuseOps : List Op :=
  [.allocate, .allocate, .deallocate ⟨0, 0⟩, .deallocate ⟨0, 0⟩, .allocate]

/-- After that run the new handle of the first slot is live and the old one is
not. -/
theorem refines_live_reuse :
    (Run.after reuseOps).allocator = ⟨[⟨true, 1⟩, ⟨true, 0⟩], []⟩
      ∧ ⟨0, 1⟩ ∈ (Run.after reuseOps).live ∧ ⟨0, 0⟩ ∉ (Run.after reuseOps).live := by
  have hend : (Run.after reuseOps).allocator = ⟨[⟨true, 1⟩, ⟨true, 0⟩], []⟩ := by decide
  obtain ⟨halive, -⟩ := refines_live reuseOps (by rw [hend]; decide)
  refine ⟨hend, (halive _).mp (by rw [hend]; decide), fun hlive => ?_⟩
  have hdead := (halive _).mpr hlive
  rw [hend] at hdead
  exact absurd hdead (by decide)

end GenerationalIndexAllocator

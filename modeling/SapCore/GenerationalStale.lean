import Mathlib.Data.List.Nodup
import Mathlib.Data.List.Perm.Subperm
import SapCore.GenerationalLive
import SapCore.History

/-!
# Stale handles

A slot that is reused gets a new generation, so that the handles handed out for
it before are told from the new one. That works while the generation does not
come round: it has 32 bits, and after `2 ^ 32` reuses of one slot its first
handle is handed out again – and reported alive, though it was deallocated
(`recycle_revives`). The same happens to the index of a slot when more than
`2 ^ 32` of them are added.

A call of `allocate` that does neither is `Fresh`. In a run whose calls all are,
the handles returned for a slot are those of all generations up to its present
one (`Stamped`), so they are distinct, and a deallocated handle stays dead; and
the first call that is not returns a handle for the second time. So stale
handles stay dead in exactly the runs whose calls are all fresh (`stale_iff`).
-/

namespace GenerationalIndexAllocator

variable {a : GenerationalIndexAllocator} {s : Run} {h : GenerationalIndex}

/-- **The next `allocate` does not come round**: it reuses a slot whose
generation is not the last one, or adds a slot to fewer than `2 ^ 32`. -/
def Fresh (a : GenerationalIndexAllocator) : Prop :=
  match a.freeIndices with
  | idx :: _ => (a.entry idx).generation.toNat + 1 < 2 ^ 32
  | [] => a.entries.length < 2 ^ 32

/-- Every call of `allocate` in a run is fresh. -/
def AllFresh (ops : List Op) : Prop :=
  ∀ before later, ops = before ++ Op.allocate :: later → (Run.after before).allocator.Fresh

/-- **Stale handles stay dead**: in a run no handle is returned twice, and at
no time is a handle alive that was deallocated before. -/
def StaleStayDead (ops : List Op) : Prop :=
  (Run.after ops).returned.Nodup
    ∧ ∀ before later, ops = before ++ later → ∀ h ∈ (Run.after before).deallocated,
      (Run.after before).allocator.isAlive h = false

/-- A call of `allocate` is fresh after the calls before it. -/
def FreshCall (before : List Op) (op : Op) : Prop :=
  op = .allocate → (Run.after before).allocator.Fresh

theorem allFresh_iff_each (ops : List Op) : AllFresh ops ↔ History.Each FreshCall ops := by
  constructor
  · rintro hall before op later heq rfl
    exact hall before later heq
  · intro heach before later heq
    exact heach before .allocate later heq rfl

theorem allFresh_concat (ops : List Op) (op : Op) :
    AllFresh (ops ++ [op])
      ↔ AllFresh ops ∧ (op = .allocate → (Run.after ops).allocator.Fresh) := by
  rw [allFresh_iff_each, History.each_concat, ← allFresh_iff_each]
  rfl

/-! ## The generations of a slot -/

/-- A handle of one of the slots, of a generation the slot has reached. -/
def Issued (a : GenerationalIndexAllocator) (h : GenerationalIndex) : Prop :=
  ∃ e, a.entries[h.index.toNat]? = some e ∧ h.generation ≤ e.generation

/-- A handle of one of the slots, of an earlier generation than the slot's, or
of its own where the slot is dead. -/
def Superseded (a : GenerationalIndexAllocator) (h : GenerationalIndex) : Prop :=
  ∃ e, a.entries[h.index.toNat]? = some e
    ∧ (h.generation < e.generation ∨ h.generation = e.generation ∧ e.isAlive = false)

/-- **What a run of fresh calls has returned**: of every slot the handles of all
generations up to its present one, each once; and a handle that was deallocated
is of an earlier generation, or its slot is dead. -/
structure Stamped (s : Run) : Prop where
  length_le : s.allocator.entries.length ≤ 2 ^ 32
  means : Means s.allocator s.live
  mem_returned : ∀ h, h ∈ s.returned ↔ s.allocator.Issued h
  nodup : s.returned.Nodup
  stale : ∀ h ∈ s.deallocated, s.allocator.Superseded h

theorem stamped_nil : Stamped (Run.after []) where
  length_le := by simp [empty]
  means := means_empty
  mem_returned _ := by simp [Issued, empty]
  nodup := List.nodup_nil
  stale _ hmem := by simp at hmem

/-- A handle that was deallocated is dead. -/
theorem Stamped.dead (hs : Stamped s) (hmem : h ∈ s.deallocated) :
    s.allocator.isAlive h = false := by
  obtain ⟨e, he, hold⟩ := hs.stale h hmem
  rw [Bool.eq_false_iff]
  intro halive
  obtain ⟨e', he', hgeneration, halive'⟩ := isAlive_iff.mp halive
  rw [he] at he'
  cases he'
  obtain hlt | ⟨-, hdead⟩ := hold
  · rw [hgeneration] at hlt
    exact absurd hlt (UInt32.lt_irrefl _)
  · rw [hdead] at halive'
    cases halive'

/-- **A new handle**: where it is the one new entry of the books, they are kept
by returning it. -/
theorem Stamped.stamp (hs : Stamped s)
    (hlen : s.allocator.allocate.1.entries.length ≤ 2 ^ 32)
    (hnew : s.allocator.allocate.2 ∉ s.returned)
    (hissued : ∀ h, s.allocator.allocate.1.Issued h
      ↔ s.allocator.Issued h ∨ h = s.allocator.allocate.2)
    (hstale : ∀ h, s.allocator.Superseded h → s.allocator.allocate.1.Superseded h) :
    Stamped (s.step .allocate) where
  length_le := hlen
  means := (means_allocate hs.means hlen).1
  mem_returned h := by
    show h ∈ s.returned ++ [s.allocator.allocate.2] ↔ _
    rw [List.mem_append, List.mem_singleton, hs.mem_returned]
    exact (hissued h).symm
  nodup := hs.nodup.append (List.nodup_singleton _) (List.disjoint_singleton.mpr hnew)
  stale h hmem := hstale h (hs.stale h hmem)

/-- **Reusing a slot in its next generation.** -/
theorem Stamped.reuse (hs : Stamped s) {idx : UInt32} {rest : List UInt32}
    (hfree : s.allocator.freeIndices = idx :: rest)
    (hfresh : (s.allocator.entry idx).generation.toNat + 1 < 2 ^ 32) :
    Stamped (s.step .allocate) := by
  obtain ⟨e, he, hdead⟩ := (hs.means.mem_free idx).mp (by rw [hfree]; exact List.mem_cons_self)
  obtain ⟨hlt, -⟩ := List.getElem?_eq_some_iff.mp he
  rw [entry_eq he] at hfresh
  have hnext : (e.generation + 1).toNat = e.generation.toNat + 1 := by
    rw [UInt32.toNat_add]
    exact Nat.mod_eq_of_lt hfresh
  have hallocate := allocate_reuse hfree
  rw [entry_eq he] at hallocate
  have hother : ∀ h : GenerationalIndex, h.index ≠ idx → idx.toNat ≠ h.index.toNat :=
    fun h hne heq => hne (UInt32.toNat_inj.mp heq.symm)
  refine hs.stamp ?_ ?_ (fun h => ?_) (fun h ⟨e', he', hold⟩ => ?_)
  · rw [hallocate, List.length_set]
    exact hs.length_le
  · -- the next generation has not been issued
    rw [hallocate, hs.mem_returned]
    rintro ⟨e', he', hle⟩
    rw [he] at he'
    cases he'
    have hle' : (e.generation + 1).toNat ≤ e.generation.toNat := UInt32.le_iff_toNat_le.mp hle
    omega
  · rw [hallocate]
    by_cases hidx : h.index = idx
    · subst hidx
      have hext : h = ⟨h.index, e.generation + 1⟩ ↔ h.generation = e.generation + 1 :=
        ⟨fun heq => congrArg GenerationalIndex.generation heq,
          fun heq => GenerationalIndex.ext rfl heq⟩
      rw [hext]
      simp only [Issued, List.getElem?_set_self hlt, he, Option.some.injEq, exists_eq_left',
        UInt32.le_iff_toNat_le, ← UInt32.toNat_inj, hnext]
      omega
    · simp only [Issued, List.getElem?_set_ne (hother h hidx)]
      refine ⟨Or.inl, fun hor => hor.resolve_right (fun heq => hidx ?_)⟩
      rw [heq]
  · rw [hallocate]
    by_cases hidx : h.index = idx
    · subst hidx
      rw [he] at he'
      cases he'
      refine ⟨_, List.getElem?_set_self hlt, Or.inl ?_⟩
      simp only [UInt32.lt_iff_toNat_lt, ← UInt32.toNat_inj, hnext] at hold ⊢
      omega
    · exact ⟨e', (List.getElem?_set_ne (hother h hidx)).trans he', hold⟩

/-- **Adding a slot.** -/
theorem Stamped.add (hs : Stamped s) (hfree : s.allocator.freeIndices = [])
    (hfresh : s.allocator.entries.length < 2 ^ 32) : Stamped (s.step .allocate) := by
  have hallocate := allocate_add hfree
  have hindex : (UInt32.ofNat s.allocator.entries.length).toNat = s.allocator.entries.length :=
    UInt32.toNat_ofNat_of_lt' hfresh
  refine hs.stamp ?_ ?_ (fun h => ?_) (fun h ⟨e, he, hold⟩ => ?_)
  · rw [hallocate, List.length_append]
    exact hfresh
  · rw [hallocate, hs.mem_returned]
    rintro ⟨e, he, -⟩
    obtain ⟨hlt, -⟩ := List.getElem?_eq_some_iff.mp he
    exact absurd hlt (by simp [hindex])
  · rw [hallocate]
    constructor
    · rintro ⟨e, he, hle⟩
      obtain hold | ⟨hlast, rfl⟩ := getElem?_append_eq_some.mp he
      · exact Or.inl ⟨e, hold, hle⟩
      · refine Or.inr (GenerationalIndex.ext (UInt32.toNat_inj.mp (hlast.trans hindex.symm)) ?_)
        exact UInt32.le_antisymm hle UInt32.zero_le
    · rintro (⟨e, he, hle⟩ | rfl)
      · exact ⟨e, getElem?_append_eq_some.mpr (Or.inl he), hle⟩
      · exact ⟨_, getElem?_append_eq_some.mpr (Or.inr ⟨hindex, rfl⟩), UInt32.le_refl _⟩
  · rw [hallocate]
    exact ⟨e, getElem?_append_eq_some.mpr (Or.inl he), hold⟩

/-- **A fresh `allocate` keeps the books.** -/
theorem Stamped.allocate (hs : Stamped s) (hfresh : s.allocator.Fresh) :
    Stamped (s.step .allocate) := by
  unfold Fresh at hfresh
  split at hfresh
  · rename_i idx rest hfree
    exact hs.reuse hfree hfresh
  · rename_i hfree
    exact hs.add hfree hfresh

/-- Setting a slot without changing its generation issues nothing. -/
theorem issued_set {entries : List Entry} {i : ℕ} {e x : Entry} {free free' : List UInt32}
    (he : entries[i]? = some e) (hx : x.generation = e.generation) :
    Issued ⟨entries.set i x, free⟩ h ↔ Issued ⟨entries, free'⟩ h := by
  obtain ⟨hlt, -⟩ := List.getElem?_eq_some_iff.mp he
  unfold Issued
  by_cases hi : i = h.index.toNat
  · subst hi
    simp only [List.getElem?_set_self hlt, he, Option.some.injEq, exists_eq_left', hx]
  · simp only [List.getElem?_set_ne hi]

/-- Marking a slot dead brings back none of its handles. -/
theorem Superseded.set {entries : List Entry} {i : ℕ} {e : Entry} {free free' : List UInt32}
    (he : entries[i]? = some e) (hold : Superseded ⟨entries, free⟩ h) :
    Superseded ⟨entries.set i { e with isAlive := false }, free'⟩ h := by
  obtain ⟨hlt, -⟩ := List.getElem?_eq_some_iff.mp he
  obtain ⟨e', he', hgeneration⟩ := hold
  by_cases hi : i = h.index.toNat
  · subst hi
    rw [he] at he'
    cases he'
    exact ⟨_, List.getElem?_set_self hlt, hgeneration.imp_right (fun heq => ⟨heq.1, rfl⟩)⟩
  · exact ⟨e', (List.getElem?_set_ne hi).trans he', hgeneration⟩

/-- **`deallocate` keeps the books**, whatever handle it is given. -/
theorem Stamped.deallocate (hs : Stamped s) (h : GenerationalIndex) :
    Stamped (s.step (.deallocate h)) := by
  have hmeans := means_deallocate hs.means h
  by_cases halive : s.allocator.isAlive h = true
  · obtain ⟨e, he, hgeneration, -⟩ := isAlive_iff.mp halive
    obtain ⟨hlt, -⟩ := List.getElem?_eq_some_iff.mp he
    have hallocator : s.allocator.deallocate h
        = ⟨s.allocator.entries.set h.index.toNat { e with isAlive := false },
          h.index :: s.allocator.freeIndices⟩ := by
      unfold GenerationalIndexAllocator.deallocate
      rw [if_pos halive, entry_eq he]
    refine ⟨?_, hmeans, fun h' => ?_, hs.nodup, fun h' hmem => ?_⟩
    · show (s.allocator.deallocate h).entries.length ≤ _
      rw [hallocator, List.length_set]
      exact hs.length_le
    · show h' ∈ s.returned ↔ (s.allocator.deallocate h).Issued h'
      rw [hallocator]
      exact (hs.mem_returned h').trans (issued_set (x := { e with isAlive := false }) he rfl).symm
    · show (s.allocator.deallocate h).Superseded h'
      rw [hallocator]
      change h' ∈ (if s.allocator.isAlive h then s.deallocated ++ [h] else s.deallocated) at hmem
      rw [if_pos halive, List.mem_append, List.mem_singleton] at hmem
      obtain hmem | rfl := hmem
      · exact (hs.stale h' hmem).set he
      · exact ⟨_, List.getElem?_set_self hlt, Or.inr ⟨hgeneration.symm, rfl⟩⟩
  · -- a handle that is not alive changes nothing
    have hallocator : s.allocator.deallocate h = s.allocator := by
      unfold GenerationalIndexAllocator.deallocate
      rw [if_neg halive]
    refine ⟨?_, hmeans, fun h' => ?_, hs.nodup, fun h' hmem => ?_⟩
    · show (s.allocator.deallocate h).entries.length ≤ _
      rw [hallocator]
      exact hs.length_le
    · show h' ∈ s.returned ↔ (s.allocator.deallocate h).Issued h'
      rw [hallocator]
      exact hs.mem_returned h'
    · show (s.allocator.deallocate h).Superseded h'
      rw [hallocator]
      change h' ∈ (if s.allocator.isAlive h then s.deallocated ++ [h] else s.deallocated) at hmem
      rw [if_neg halive] at hmem
      exact hs.stale h' hmem

/-- **A run of fresh calls keeps the books.** -/
theorem stamped_after (ops : List Op) : AllFresh ops → Stamped (Run.after ops) := by
  induction ops using List.reverseRecOn with
  | nil => exact fun _ => stamped_nil
  | append_singleton ops op ih =>
    rw [allFresh_concat, Run.after_concat]
    rintro ⟨hall, hlast⟩
    cases op with
    | allocate => exact (ih hall).allocate (hlast rfl)
    | deallocate h => exact (ih hall).deallocate h

/-! ## How many handles it takes -/

/-- Handles that are told apart, and have all been returned, are no more than
were returned. -/
theorem le_length_of_injOn {n : ℕ} {returned : List GenerationalIndex} (f : ℕ → GenerationalIndex)
    (hinj : ∀ k < n, ∀ k' < n, f k = f k' → k = k') (hmem : ∀ k < n, f k ∈ returned) :
    n ≤ returned.length := by
  have hnodup : ((List.range n).map f).Nodup :=
    List.Nodup.map_on (fun k hk k' hk' heq =>
      hinj k (List.mem_range.mp hk) k' (List.mem_range.mp hk') heq) List.nodup_range
  have hsubset : (List.range n).map f ⊆ returned := by
    intro h hh
    obtain ⟨k, hk, rfl⟩ := List.mem_map.mp hh
    exact hmem k (List.mem_range.mp hk)
  have hle := (hnodup.subperm hsubset).length_le
  rwa [List.length_map, List.length_range] at hle

/-- **A slot in generation `g` took `g + 1` calls of `allocate`.** -/
theorem Stamped.generation_lt (hs : Stamped s) {i : UInt32} {e : Entry}
    (he : s.allocator.entries[i.toNat]? = some e) :
    e.generation.toNat < s.returned.length := by
  have hsmall : ∀ k < e.generation.toNat + 1, (UInt32.ofNat k).toNat = k := fun k hk =>
    UInt32.toNat_ofNat_of_lt' (Nat.lt_of_le_of_lt (Nat.le_of_lt_succ hk) e.generation.toNat_lt)
  refine le_length_of_injOn (fun k => ⟨i, UInt32.ofNat k⟩) (fun k hk k' hk' heq => ?_)
    (fun k hk => (hs.mem_returned _).mpr ⟨e, he, UInt32.le_iff_toNat_le.mpr ?_⟩)
  · have hgeneration := congrArg (fun h => h.generation.toNat) heq
    simp only [hsmall k hk, hsmall k' hk'] at hgeneration
    exact hgeneration
  · show (UInt32.ofNat k).toNat ≤ _
    rw [hsmall k hk]
    exact Nat.le_of_lt_succ hk

/-- **There are no more slots than calls of `allocate`.** -/
theorem Stamped.length_le_returned (hs : Stamped s) :
    s.allocator.entries.length ≤ s.returned.length := by
  have hsmall : ∀ k < s.allocator.entries.length, (UInt32.ofNat k).toNat = k := fun k hk =>
    UInt32.toNat_ofNat_of_lt' (Nat.lt_of_lt_of_le hk hs.length_le)
  refine le_length_of_injOn (fun k => ⟨UInt32.ofNat k, 0⟩) (fun k hk k' hk' heq => ?_)
    (fun k hk => (hs.mem_returned _).mpr ⟨s.allocator.entries.get ⟨k, hk⟩, ?_, UInt32.zero_le⟩)
  · have hindex := congrArg (fun h => h.index.toNat) heq
    simp only [hsmall k hk, hsmall k' hk'] at hindex
    exact hindex
  · show s.allocator.entries[(UInt32.ofNat k).toNat]? = _
    rw [hsmall k hk]
    exact List.getElem?_eq_getElem hk

/-- **Fewer than `2 ^ 32` calls of `allocate` are all fresh.** -/
theorem Stamped.fresh_of_lt (hs : Stamped s) (hfew : s.returned.length + 1 < 2 ^ 32) :
    s.allocator.Fresh := by
  unfold Fresh
  split
  · rename_i idx rest hfree
    obtain ⟨e, he, -⟩ := (hs.means.mem_free idx).mp (by rw [hfree]; exact List.mem_cons_self)
    have hlt := hs.generation_lt he
    rw [entry_eq he]
    omega
  · have hle := hs.length_le_returned
    omega

/-! ## Coming round -/

/-- **The first call that is not fresh returns a handle again.** -/
theorem Stamped.mem_returned_of_not_fresh (hs : Stamped s) (hfresh : ¬ s.allocator.Fresh) :
    s.allocator.allocate.2 ∈ s.returned := by
  rw [hs.mem_returned]
  cases hfree : s.allocator.freeIndices with
  | cons idx rest =>
    obtain ⟨e, he, -⟩ := (hs.means.mem_free idx).mp (by rw [hfree]; exact List.mem_cons_self)
    simp only [Fresh, hfree, entry_eq he] at hfresh
    -- the generation was the last one, so the next is zero
    have hzero : e.generation + 1 = 0 := by
      have hlt := e.generation.toNat_lt
      rw [← UInt32.toNat_inj, UInt32.toNat_add, show e.generation.toNat = 2 ^ 32 - 1 by omega]
      rfl
    rw [allocate_reuse hfree, entry_eq he, hzero]
    exact ⟨e, he, UInt32.zero_le⟩
  | nil =>
    simp only [Fresh, hfree] at hfresh
    have hlt : (UInt32.ofNat s.allocator.entries.length).toNat < s.allocator.entries.length :=
      Nat.lt_of_lt_of_le (UInt32.toNat_lt _) (Nat.le_of_not_lt hfresh)
    rw [allocate_add hfree]
    exact ⟨_, List.getElem?_eq_getElem hlt, UInt32.zero_le⟩

/-- **Where no handle is returned twice, every call was fresh.** -/
theorem allFresh_of_nodup (ops : List Op) : (Run.after ops).returned.Nodup → AllFresh ops := by
  induction ops using List.reverseRecOn with
  | nil => exact fun _ before later heq => absurd heq (by simp)
  | append_singleton ops op ih =>
    rw [allFresh_concat, Run.after_concat]
    intro hnodup
    cases op with
    | allocate =>
      obtain ⟨hnodup, -, hdisjoint⟩ := List.nodup_append.mp hnodup
      refine ⟨ih hnodup, fun _ => ?_⟩
      by_contra hfresh
      -- up to here the run was fresh, so the books say what this call returns
      have hagain := (stamped_after ops (ih hnodup)).mem_returned_of_not_fresh hfresh
      exact absurd rfl (hdisjoint _ hagain _ (List.mem_singleton_self _))
    | deallocate h => exact ⟨ih hnodup, by simp⟩

/-- **Stale handles stay dead in exactly the runs whose calls of `allocate` are
all fresh**: none reuses a slot in its last generation, and none adds a slot to
`2 ^ 32` or more. -/
theorem stale_iff (ops : List Op) : StaleStayDead ops ↔ AllFresh ops := by
  constructor
  · rintro ⟨hnodup, -⟩
    exact allFresh_of_nodup ops hnodup
  · intro hall
    refine ⟨(stamped_after ops hall).nodup, ?_⟩
    rintro before later rfl h hmem
    rw [allFresh_iff_each] at hall
    have hbefore : AllFresh before := (allFresh_iff_each before).mpr hall.of_append
    exact (stamped_after before hbefore).dead hmem

/-- **One slot recycled**: allocated, and then `k` times deallocated and
allocated again. -/
def recycle : ℕ → List Op
  | 0 => [.allocate]
  | k + 1 => recycle k ++ [.deallocate ⟨0, UInt32.ofNat k⟩] ++ [.allocate]

/-- What `k` rounds leave: the slot in generation `k`, reduced to 32 bits, and
its handles of all generations in the order they were returned. -/
theorem after_recycle (k : ℕ) :
    (Run.after (recycle k)).allocator = ⟨[⟨true, UInt32.ofNat k⟩], []⟩
      ∧ (Run.after (recycle k)).returned
        = (List.range (k + 1)).map (fun i => ⟨0, UInt32.ofNat i⟩)
      ∧ (Run.after (recycle k)).deallocated
        = (List.range k).map (fun i => ⟨0, UInt32.ofNat i⟩) := by
  induction k with
  | zero => exact ⟨by decide, by decide, by decide⟩
  | succ k ih =>
    obtain ⟨hallocator, hreturned, hdeallocated⟩ := ih
    have halive : isAlive ⟨[⟨true, UInt32.ofNat k⟩], []⟩ ⟨0, UInt32.ofNat k⟩ = true := by
      rw [isAlive_iff]
      exact ⟨_, rfl, rfl, rfl⟩
    have hdead : deallocate ⟨[⟨true, UInt32.ofNat k⟩], []⟩ ⟨0, UInt32.ofNat k⟩
        = ⟨[⟨false, UInt32.ofNat k⟩], [0]⟩ := by
      unfold deallocate
      rw [if_pos halive]
      rfl
    have hagain : allocate ⟨[⟨false, UInt32.ofNat k⟩], [0]⟩
        = (⟨[⟨true, UInt32.ofNat (k + 1)⟩], []⟩, ⟨0, UInt32.ofNat (k + 1)⟩) := by
      rw [allocate_reuse rfl, UInt32.ofNat_add]
      rfl
    rw [recycle, Run.after_concat, Run.after_concat]
    simp only [Run.step, hallocator, hdead, hagain, halive, hreturned, hdeallocated, if_true]
    refine ⟨trivial, ?_, ?_⟩
    · rw [List.range_succ (n := k + 1), List.map_append]
      rfl
    · rw [List.range_succ, List.map_append]
      rfl

/-- **After `2 ^ 32` rounds the first handle is back**: it was deallocated, it
is reported alive, and it has been returned twice. -/
theorem recycle_revives :
    ⟨0, 0⟩ ∈ (Run.after (recycle (2 ^ 32))).deallocated
      ∧ (Run.after (recycle (2 ^ 32))).allocator.isAlive ⟨0, 0⟩ = true
      ∧ ¬ (Run.after (recycle (2 ^ 32))).returned.Nodup
      ∧ ¬ StaleStayDead (recycle (2 ^ 32)) := by
  obtain ⟨hallocator, hreturned, hdeallocated⟩ := after_recycle (2 ^ 32)
  have hstale : ⟨0, 0⟩ ∈ (Run.after (recycle (2 ^ 32))).deallocated := by
    rw [hdeallocated]
    exact List.mem_map.mpr ⟨0, List.mem_range.mpr (Nat.two_pow_pos 32), rfl⟩
  have halive : (Run.after (recycle (2 ^ 32))).allocator.isAlive ⟨0, 0⟩ = true := by
    rw [hallocator, isAlive_iff]
    exact ⟨_, rfl, rfl, rfl⟩
  have htwice : ¬ (Run.after (recycle (2 ^ 32))).returned.Nodup := by
    rw [hreturned]
    intro hnodup
    have heq := List.inj_on_of_nodup_map hnodup (List.mem_range.mpr (Nat.succ_pos (2 ^ 32)))
      (List.mem_range.mpr (Nat.lt_succ_self (2 ^ 32))) rfl
    exact absurd heq (by decide)
  exact ⟨hstale, halive, htwice, fun hdead => htwice hdead.1⟩

end GenerationalIndexAllocator

import SapCore.GenerationalVector
import SapCore.History

/-!
# Stale handles and the vector

`set` refuses a handle of a smaller generation than the one in the slot, so that
a handle kept too long cannot disturb the value of the slot's new owner. `remove`
makes no such comparison: through a stale handle of the same index it deletes the
new owner's value (`undisturbed_iff`).

It also erases the only record of the generation the slot has reached. After a
`remove` a `set` of any generation is taken, so a generation that had been
superseded can come back. That happens to exactly the runs with a `set` of a
smaller generation than was set at its index before, while nothing of a larger
generation stands there since the last `remove` (`monotone_iff`).
-/

namespace GenerationalVector

variable {T : Type*}

/-- A call to the vector. -/
inductive Op (T : Type*) where
  | set (h : GenerationalIndex) (val : T)
  | remove (h : GenerationalIndex)
  deriving DecidableEq, Repr

namespace Op

/-- The handle a call is given. -/
def handle : Op T → GenerationalIndex
  | .set h _ => h
  | .remove h => h

/-- Whether it is a call of `set`. -/
def isSet : Op T → Bool
  | .set _ _ => true
  | .remove _ => false

end Op

/-- One call. -/
def step (v : GenerationalVector T) : Op T → GenerationalVector T
  | .set h val => (v.set h val).1
  | .remove h => v.remove h

/-- **A run of calls**, from a new vector. -/
def after (ops : List (Op T)) : GenerationalVector T := ops.foldl step empty

@[simp] theorem after_nil : (after [] : GenerationalVector T) = empty := rfl

@[simp] theorem after_concat (ops : List (Op T)) (op : Op T) :
    after (ops ++ [op]) = (after ops).step op := by
  unfold after
  rw [List.foldl_append]
  rfl

variable {v : GenerationalVector T} {h : GenerationalIndex} {i : UInt32} {g : UInt32} {x : T}

/-! ## Disturbing the new owner -/

/-- `set` through a handle of a smaller generation changes nothing. -/
theorem get_set_of_lt (hget : v.get ⟨h.index, g⟩ = some x) (hlt : h.generation < g) (y : T) :
    (v.set h y).1.get ⟨h.index, g⟩ = some x := by
  have hslot := get_eq_some_iff.mp hget
  rw [get_eq_some_iff, slot_set, if_neg]
  · exact hslot
  · rintro ⟨-, hle⟩
    have hprev : v.prevGen h.index = g := by
      unfold prevGen
      rw [hslot]
    rw [hprev] at hle
    exact UInt32.not_le.mpr hlt hle

/-- `remove` through any handle of the index empties the slot. -/
theorem get_remove (v : GenerationalVector T) (h : GenerationalIndex) (g : UInt32) :
    (v.remove h).get ⟨h.index, g⟩ = none := by
  rw [get_eq_none_iff]
  intro e hslot
  rw [slot_remove, if_pos rfl] at hslot
  cases hslot

/-- **A call through a stale handle leaves the occupant alone exactly when it is
`set`.** In every vector a run of calls can reach, where the slot of the call's
index holds a value of a larger generation than the call's. -/
theorem undisturbed_iff (ops : List (Op T)) (op : Op T) (g : UInt32) (x : T)
    (hget : (after ops).get ⟨op.handle.index, g⟩ = some x) (hstale : op.handle.generation < g) :
    (after (ops ++ [op])).get ⟨op.handle.index, g⟩ = (after ops).get ⟨op.handle.index, g⟩
      ↔ op.isSet = true := by
  rw [after_concat, hget]
  cases op with
  | set h y => exact ⟨fun _ => rfl, fun _ => get_set_of_lt hget hstale y⟩
  | remove h =>
    refine ⟨fun hsame => ?_, fun hset => absurd hset (by simp [Op.isSet])⟩
    rw [show (after ops).step (.remove h) = (after ops).remove h from rfl] at hsame
    rw [show (Op.remove h : Op T).handle = h from rfl, get_remove] at hsame
    cases hsame

/-- A stale `set` is refused, and the occupant is found. -/
theorem undisturbed_iff_set :
    (after [.set ⟨0, 1⟩ 5]).get ⟨0, 1⟩ = some 5
      ∧ (after ([.set ⟨0, 1⟩ 5] ++ [.set ⟨0, 0⟩ 6])).get ⟨0, 1⟩
        = (after [.set ⟨0, 1⟩ 5]).get ⟨0, 1⟩ :=
  ⟨by decide, (undisturbed_iff [.set ⟨0, 1⟩ 5] (.set ⟨0, 0⟩ 6) 1 5 (by decide) (by decide)).mpr
    (by decide)⟩

/-- **A stale `remove` deletes the occupant.** -/
theorem remove_disturbs :
    ¬ ∀ (ops : List (Op ℕ)) (op : Op ℕ) (g : UInt32) (x : ℕ),
      (after ops).get ⟨op.handle.index, g⟩ = some x → op.handle.generation < g →
        (after (ops ++ [op])).get ⟨op.handle.index, g⟩
          = (after ops).get ⟨op.handle.index, g⟩ := by
  intro hall
  exact absurd (hall [.set ⟨0, 1⟩ 5] (.remove ⟨0, 0⟩) 1 5 (by decide) (by decide)) (by decide)

/-! ## Generations coming back -/

/-- **The generations of every slot only grow**: once a value was stored under a
generation, none is found under a smaller one. -/
def GenerationsMonotone (ops : List (Op T)) : Prop :=
  ∀ before between later, ops = before ++ between ++ later → ∀ i g g', g' < g →
    (after before).get ⟨i, g⟩ ≠ none → (after (before ++ between)).get ⟨i, g'⟩ = none

/-- A larger generation was set at the index. -/
def Newer (ops : List (Op T)) (i g : UInt32) : Prop :=
  ∃ h x, Op.set h x ∈ ops ∧ h.index = i ∧ g < h.generation

/-- A larger generation stands at the index: one was set there, and the index was
not removed since. -/
def Standing (ops : List (Op T)) (i g : UInt32) : Prop :=
  ops.foldl (fun standing op =>
    match op with
    | .set h _ => standing ∨ h.index = i ∧ g < h.generation
    | .remove h => standing ∧ h.index ≠ i) False

/-- A `set` of a smaller generation than was set at its index before comes while a
larger one stands there. -/
def KeepsNewer (before : List (Op T)) : Op T → Prop
  | .set h _ => Newer before h.index h.generation → Standing before h.index h.generation
  | .remove _ => True

variable {ops : List (Op T)}

theorem standing_concat_set :
    Standing (ops ++ [.set h x]) i g ↔ Standing ops i g ∨ h.index = i ∧ g < h.generation := by
  unfold Standing
  rw [List.foldl_append]
  rfl

theorem standing_concat_remove :
    Standing (ops ++ [.remove h]) i g ↔ Standing ops i g ∧ h.index ≠ i := by
  unfold Standing
  rw [List.foldl_append]
  rfl

theorem newer_append {later : List (Op T)} :
    Newer (ops ++ later) i g ↔ Newer ops i g ∨ Newer later i g := by
  unfold Newer
  simp only [List.mem_append]
  constructor
  · rintro ⟨h, x, hmem | hmem, hnewer⟩
    · exact Or.inl ⟨h, x, hmem, hnewer⟩
    · exact Or.inr ⟨h, x, hmem, hnewer⟩
  · rintro (⟨h, x, hmem, hnewer⟩ | ⟨h, x, hmem, hnewer⟩)
    · exact ⟨h, x, Or.inl hmem, hnewer⟩
    · exact ⟨h, x, Or.inr hmem, hnewer⟩

theorem lt_prevGen_iff : g < v.prevGen i ↔ ∃ e, v.slot i = some e ∧ g < e.generation := by
  unfold prevGen
  cases v.slot i with
  | none => simp
  | some e => simp

/-- **A larger generation stands exactly where the slot holds one.** -/
theorem standing_iff (ops : List (Op T)) (i g : UInt32) :
    Standing ops i g ↔ g < (after ops).prevGen i := by
  induction ops using List.reverseRecOn with
  | nil => simp [Standing, lt_prevGen_iff]
  | append_singleton ops op ih =>
    rw [after_concat, lt_prevGen_iff]
    cases op with
    | set h x =>
      show _ ↔ ∃ e, ((after ops).set h x).1.slot i = some e ∧ g < e.generation
      rw [standing_concat_set, ih, slot_set]
      by_cases hi : i = h.index
      · subst hi
        by_cases hle : (after ops).prevGen h.index ≤ h.generation
        · simp only [hle, and_self, if_true, Option.some.injEq, exists_eq_left', true_and]
          exact ⟨fun hor => hor.elim (fun hlt => UInt32.lt_of_lt_of_le hlt hle) id, Or.inr⟩
        · -- refused: what the slot holds is larger still
          simp only [hle, and_false, if_false, true_and, ← lt_prevGen_iff]
          refine ⟨fun hor => hor.elim id (fun hlt => ?_), Or.inl⟩
          exact UInt32.lt_trans hlt (UInt32.not_le.mp hle)
      · simp only [hi, false_and, if_false, ← lt_prevGen_iff, Ne.symm hi, or_false]
    | remove h =>
      show _ ↔ ∃ e, ((after ops).remove h).slot i = some e ∧ g < e.generation
      rw [standing_concat_remove, ih, slot_remove]
      by_cases hi : i = h.index
      · simp [hi]
      · simp only [hi, if_false, ← lt_prevGen_iff, ne_eq, Ne.symm hi, not_false_eq_true, and_true]

/-- What a slot holds was set there. -/
theorem set_mem_of_slot_eq_some (ops : List (Op T)) {e : Entry T}
    (hslot : (after ops).slot i = some e) : Op.set ⟨i, e.generation⟩ e.value ∈ ops := by
  induction ops using List.reverseRecOn with
  | nil => simp at hslot
  | append_singleton ops op ih =>
    rw [after_concat] at hslot
    rw [List.mem_append]
    cases op with
    | set h x =>
      change ((after ops).set h x).1.slot i = some e at hslot
      rw [slot_set] at hslot
      split at hslot
      · rename_i htaken
        cases hslot
        rw [htaken.1]
        exact Or.inr (List.mem_singleton_self _)
      · exact Or.inl (ih hslot)
    | remove h =>
      change ((after ops).remove h).slot i = some e at hslot
      rw [slot_remove] at hslot
      split at hslot
      · cases hslot
      · exact Or.inl (ih hslot)

/-- **In a run of such calls the slot holds the largest generation set there**, if
it holds anything. -/
theorem not_newer_of_keepsNewer (ops : List (Op T)) (heach : History.Each KeepsNewer ops)
    {e : Entry T} (hslot : (after ops).slot i = some e) : ¬ Newer ops i e.generation := by
  induction ops using List.reverseRecOn with
  | nil => simp at hslot
  | append_singleton ops op ih =>
    obtain ⟨hbefore, hlast⟩ := (History.each_concat ops op).mp heach
    rw [after_concat] at hslot
    rw [newer_append]
    cases op with
    | set h x =>
      change ((after ops).set h x).1.slot i = some e at hslot
      rw [slot_set] at hslot
      split at hslot
      · rename_i htaken
        cases hslot
        rintro (hnewer | ⟨h', x', hmem, -, hlt⟩)
        · -- a larger one was set before, so it stands, and the slot refuses
          rw [htaken.1] at hnewer
          have hstanding := (standing_iff ops _ _).mp (hlast hnewer)
          exact UInt32.not_le.mpr hstanding htaken.2
        · cases List.mem_singleton.mp hmem
          exact UInt32.lt_irrefl _ hlt
      · rename_i hkept
        rintro (hnewer | ⟨h', x', hmem, hindex, hlt⟩)
        · exact ih hbefore hslot hnewer
        · cases List.mem_singleton.mp hmem
          have hprev : (after ops).prevGen h.index = e.generation := by
            unfold prevGen
            rw [hindex, hslot]
          refine hkept ⟨hindex.symm, ?_⟩
          rw [hprev]
          exact UInt32.le_of_lt hlt
    | remove h =>
      change ((after ops).remove h).slot i = some e at hslot
      rw [slot_remove] at hslot
      split at hslot
      · cases hslot
      · rintro (hnewer | ⟨h', x', hmem, -⟩)
        · exact ih hbefore hslot hnewer
        · cases List.mem_singleton.mp hmem

/-- **The generations of the slots only grow in exactly the runs whose calls of
`set` keep the newer generation**: none of a smaller generation than was set at its
index before comes when nothing of a larger one stands there. -/
theorem monotone_iff (ops : List (Op T)) :
    GenerationsMonotone ops ↔ History.Each KeepsNewer ops := by
  constructor
  · rintro hmono before op later rfl
    cases op with
    | remove h => trivial
    | set h x =>
      rintro ⟨h', x', hmem, hindex, hlt⟩
      obtain ⟨early, late, rfl⟩ := List.append_of_mem hmem
      by_contra hstanding
      rw [standing_iff, UInt32.not_lt] at hstanding
      -- once the larger generation was set, the slot held it or a larger one
      have hstored : Standing (early ++ [.set h' x']) h.index h.generation :=
        standing_concat_set.mpr (Or.inr ⟨hindex, hlt⟩)
      rw [standing_iff, lt_prevGen_iff] at hstored
      obtain ⟨e, hslot, hlarger⟩ := hstored
      have hfound : (after (early ++ [.set h' x'])).get ⟨h.index, e.generation⟩ ≠ none := by
        rw [get_eq_some_iff.mpr hslot]
        exact Option.some_ne_none _
      have hnone := hmono (early ++ [.set h' x']) (late ++ [.set h x]) later (by simp) h.index
        e.generation h.generation hlarger hfound
      rw [show early ++ [Op.set h' x'] ++ (late ++ [Op.set h x])
          = early ++ Op.set h' x' :: late ++ [.set h x] by simp, after_concat] at hnone
      have hsome : ((after (early ++ Op.set h' x' :: late)).set h x).1.get h = some x := by
        rw [get_eq_some_iff, slot_set, if_pos ⟨rfl, hstanding⟩]
      exact absurd (hsome.symm.trans hnone) (Option.some_ne_none _)
  · rintro heach before between later rfl i g g' hlt hstored
    rw [get_eq_none_iff]
    rintro e hslot rfl
    obtain ⟨x, hget⟩ := Option.ne_none_iff_exists'.mp hstored
    have hmem := set_mem_of_slot_eq_some before (get_eq_some_iff.mp hget)
    exact not_newer_of_keepsNewer (before ++ between) heach.of_append hslot
      (newer_append.mpr (Or.inl ⟨_, _, hmem, rfl, hlt⟩))

/-- **A late `set` after a `remove` brings an old generation back.** -/
theorem set_after_remove_revives :
    (after [.set ⟨0, 1⟩ 5]).get ⟨0, 1⟩ = some 5
      ∧ (after [.set ⟨0, 1⟩ 5, .remove ⟨0, 1⟩, .set ⟨0, 0⟩ 6]).get ⟨0, 0⟩ = some 6
      ∧ ¬ GenerationsMonotone ([.set ⟨0, 1⟩ 5, .remove ⟨0, 1⟩, .set ⟨0, 0⟩ 6] : List (Op ℕ)) := by
  refine ⟨by decide, by decide, fun hmono => ?_⟩
  have hnone := hmono [.set ⟨0, 1⟩ 5] [.remove ⟨0, 1⟩, .set ⟨0, 0⟩ 6] [] rfl 0 1 0 (by decide)
    (by decide)
  exact absurd hnone (by decide)

end GenerationalVector

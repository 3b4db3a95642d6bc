import SapCore.Generational

/-!
# The generational vector

`generational_vector` stores a value under a `generational_index`: one slot for
each index, which holds nothing or a value with the generation it was stored
under. A lookup finds the value when the generation agrees. `set` refuses a
generation smaller than the stored one, and says so on the error stream; `remove`
empties the slot of the index it is given.

Two scans look for the slots whose handle an allocator reports alive. They count
in 32 bits, as the source does, so they are run with fuel; that they come to an
end is proved where they are specified.
-/

namespace GenerationalVector

/-- `entry`: a value and the generation it was stored under. -/
structure Entry (T : Type*) where
  generation : UInt32
  value : T
  deriving DecidableEq, Repr

end GenerationalVector

/-- `generational_vector`. -/
structure GenerationalVector (T : Type*) where
  /-- `m_entries`. -/
  entries : List (Option (GenerationalVector.Entry T))
  deriving DecidableEq, Repr

namespace GenerationalVector

variable {T : Type*}

/-- A new vector has no slots. -/
def empty : GenerationalVector T := ⟨[]⟩

/-- `m_entries[index]`; past the end, where the source has no slot to read, it
holds nothing. -/
def slot (v : GenerationalVector T) (index : UInt32) : Option (Entry T) :=
  (v.entries[index.toNat]?).join

/-- The loop of `set` that pushes empty slots until there is one at the index. -/
def growLoop (index : ℕ) : ℕ → List (Option (Entry T)) → List (Option (Entry T))
  | 0, entries => entries
  | fuel + 1, entries =>
    if entries.length ≤ index then growLoop index fuel (entries ++ [none]) else entries

/-- The vector with a slot at the index: no more than `index + 1` slots are
pushed. -/
def grow (v : GenerationalVector T) (index : UInt32) : GenerationalVector T :=
  ⟨growLoop index.toNat (index.toNat + 1) v.entries⟩

/-- `prev_gen`: the generation in the slot, and zero where it is empty. -/
def prevGen (v : GenerationalVector T) (index : UInt32) : UInt32 :=
  match v.slot index with
  | some e => e.generation
  | none => 0

/-- What `set` writes to `cerr` when it refuses. -/
def refusal (index prev_gen generation : UInt32) : String :=
  "Cannot set value at index " ++ toString index
    ++ ": previous generation is larger than current: " ++ toString prev_gen
    ++ " > " ++ toString generation ++ "\n"

/-- `set`: the vector afterwards, and the refusal if there was one. -/
def set (v : GenerationalVector T) (h : GenerationalIndex) (val : T) :
    GenerationalVector T × Option String :=
  let v := v.grow h.index
  let prev_gen := v.prevGen h.index
  if prev_gen > h.generation then
    (v, some (refusal h.index prev_gen h.generation))
  else
    (⟨v.entries.set h.index.toNat (some ⟨h.generation, val⟩)⟩, none)

/-- `remove`. -/
def remove (v : GenerationalVector T) (h : GenerationalIndex) : GenerationalVector T :=
  if h.index.toNat < v.entries.length then ⟨v.entries.set h.index.toNat none⟩ else v

/-- `get`: the value, where the source returns a pointer to it. -/
def get (v : GenerationalVector T) (h : GenerationalIndex) : Option T :=
  if h.index.toNat ≥ v.entries.length then none
  else match v.slot h.index with
    | some e => if e.generation = h.generation then some e.value else none
    | none => none

/-- The loop of `get_all_valid_indices`, from `i` on and with the handles found
before. Without fuel it has not come to an end. -/
def getAllValidIndicesLoop (v : GenerationalVector T) (allocator : GenerationalIndexAllocator) :
    ℕ → UInt32 → List GenerationalIndex → Option (List GenerationalIndex)
  | 0, _, _ => none
  | fuel + 1, i, result =>
    if i.toNat < v.entries.length then
      match v.slot i with
      | none => getAllValidIndicesLoop v allocator fuel (i + 1) result
      | some e =>
        let idx : GenerationalIndex := ⟨i, e.generation⟩
        getAllValidIndicesLoop v allocator fuel (i + 1)
          (if allocator.isAlive idx then result ++ [idx] else result)
    else some result

/-- `get_all_valid_indices`. -/
def getAllValidIndices (v : GenerationalVector T) (allocator : GenerationalIndexAllocator)
    (fuel : ℕ) : Option (List GenerationalIndex) :=
  getAllValidIndicesLoop v allocator fuel 0 []

/-- The loop of `get_first_valid_entry`, from `i` on. -/
def getFirstValidEntryLoop (v : GenerationalVector T) (allocator : GenerationalIndexAllocator) :
    ℕ → UInt32 → Option (Option (GenerationalIndex × T))
  | 0, _ => none
  | fuel + 1, i =>
    if i.toNat < v.entries.length then
      match v.slot i with
      | none => getFirstValidEntryLoop v allocator fuel (i + 1)
      | some e =>
        let idx : GenerationalIndex := ⟨i, e.generation⟩
        if allocator.isAlive idx then some (some (idx, e.value))
        else getFirstValidEntryLoop v allocator fuel (i + 1)
    else some none

/-- `get_first_valid_entry`. -/
def getFirstValidEntry (v : GenerationalVector T) (allocator : GenerationalIndexAllocator)
    (fuel : ℕ) : Option (Option (GenerationalIndex × T)) :=
  getFirstValidEntryLoop v allocator fuel 0

variable {v : GenerationalVector T} {h : GenerationalIndex} {i : UInt32} {x : T}

/-! ## Slots -/

@[simp] theorem slot_empty (i : UInt32) : (empty : GenerationalVector T).slot i = none := rfl

/-- A slot that holds something is there. -/
theorem lt_of_slot_eq_some {e : Entry T} (hslot : v.slot i = some e) :
    i.toNat < v.entries.length := by
  unfold slot at hslot
  rw [Option.join_eq_some_iff] at hslot
  exact (List.getElem?_eq_some_iff.mp hslot).1

/-- **A lookup reads one slot** and compares the generation. -/
theorem get_eq_some_iff : v.get h = some x ↔ v.slot h.index = some ⟨h.generation, x⟩ := by
  unfold get
  split
  · rename_i hge
    refine ⟨fun hget => absurd hget (by simp), fun hslot => ?_⟩
    exact absurd (lt_of_slot_eq_some hslot) (Nat.not_lt_of_ge hge)
  · cases v.slot h.index with
    | none => simp
    | some e =>
      obtain ⟨generation, value⟩ := e
      simp only [Option.some.injEq, Entry.mk.injEq]
      by_cases hgeneration : generation = h.generation
      · simp [hgeneration]
      · simp [hgeneration]

/-- Lookups in equal slots agree. -/
theorem get_congr {v' : GenerationalVector T} (hslot : v'.slot h.index = v.slot h.index) :
    v'.get h = v.get h := by
  apply Option.ext
  intro x
  rw [get_eq_some_iff, get_eq_some_iff, hslot]

/-- A lookup fails in a slot that does not hold the generation. -/
theorem get_eq_none_iff : v.get h = none
    ↔ ∀ e, v.slot h.index = some e → e.generation ≠ h.generation := by
  rw [Option.eq_none_iff_forall_ne_some]
  constructor
  · rintro hget ⟨generation, value⟩ hslot rfl
    exact hget value (get_eq_some_iff.mpr hslot)
  · intro hslot x hget
    exact hslot _ (get_eq_some_iff.mp hget) rfl

theorem growLoop_eq (index : ℕ) (fuel : ℕ) (entries : List (Option (Entry T)))
    (hfuel : index < entries.length + fuel) :
    growLoop index fuel entries = entries.rightpad (index + 1) none := by
  induction fuel generalizing entries with
  | zero =>
    unfold growLoop List.rightpad
    rw [show index + 1 - entries.length = 0 by omega]
    simp
  | succ fuel ih =>
    unfold growLoop
    split
    · rename_i hle
      rw [ih _ (by simp; omega)]
      unfold List.rightpad
      rw [List.length_append, List.append_assoc, ← List.replicate_one, List.replicate_append_replicate]
      congr 2
      simp only [List.length_replicate]
      omega
    · unfold List.rightpad
      rw [show index + 1 - entries.length = 0 by omega]
      simp

theorem grow_entries (v : GenerationalVector T) (index : UInt32) :
    (v.grow index).entries = v.entries.rightpad (index.toNat + 1) none :=
  growLoop_eq _ _ _ (by omega)

/-- Growing changes no slot: there is nothing in those it adds. -/
@[simp] theorem slot_grow (v : GenerationalVector T) (index i : UInt32) :
    (v.grow index).slot i = v.slot i := by
  unfold slot
  rw [grow_entries]
  unfold List.rightpad
  by_cases hlt : i.toNat < v.entries.length
  · rw [List.getElem?_append_left hlt]
  · rw [List.getElem?_append_right (Nat.le_of_not_lt hlt), List.getElem?_replicate,
      List.getElem?_eq_none (Nat.le_of_not_lt hlt)]
    split <;> rfl

@[simp] theorem prevGen_grow (v : GenerationalVector T) (index i : UInt32) :
    (v.grow index).prevGen i = v.prevGen i := by
  unfold prevGen
  rw [slot_grow]

theorem length_grow (v : GenerationalVector T) (index : UInt32) :
    (v.grow index).entries.length = max (index.toNat + 1) v.entries.length := by
  rw [grow_entries, List.length_rightpad]

/-- **`set` fills the slot of its index**, unless there is a larger generation in
it, and touches no other. -/
theorem slot_set (v : GenerationalVector T) (h : GenerationalIndex) (x : T) (i : UInt32) :
    (v.set h x).1.slot i
      = if i = h.index ∧ v.prevGen h.index ≤ h.generation then some ⟨h.generation, x⟩
        else v.slot i := by
  unfold set
  simp only [prevGen_grow, gt_iff_lt]
  split
  · rename_i hlt
    rw [if_neg (fun hand => UInt32.not_le.mpr hlt hand.2), slot_grow]
  · rename_i hle
    have hinside : h.index.toNat < (v.grow h.index).entries.length := by
      rw [length_grow]
      omega
    by_cases hi : i = h.index
    · subst hi
      rw [if_pos ⟨rfl, UInt32.not_lt.mp hle⟩]
      unfold slot
      rw [List.getElem?_set_self hinside]
      rfl
    · have hne : h.index.toNat ≠ i.toNat := fun heq => hi (UInt32.toNat_inj.mp heq.symm)
      rw [if_neg (fun hand => hi hand.1), ← slot_grow v h.index i]
      unfold slot
      rw [List.getElem?_set_ne hne]

/-- `set` refuses exactly the generations smaller than the one in the slot. -/
theorem set_refusal_eq_none_iff (v : GenerationalVector T) (h : GenerationalIndex) (x : T) :
    (v.set h x).2 = none ↔ v.prevGen h.index ≤ h.generation := by
  unfold set
  simp only [prevGen_grow, gt_iff_lt]
  split
  · rename_i hlt
    exact ⟨fun heq => absurd heq (by simp), fun hle => absurd hlt (UInt32.not_lt.mpr hle)⟩
  · rename_i hle
    exact ⟨fun _ => UInt32.not_lt.mp hle, fun _ => rfl⟩

/-- **`remove` empties the slot of its index**, whatever is in it. -/
theorem slot_remove (v : GenerationalVector T) (h : GenerationalIndex) (i : UInt32) :
    (v.remove h).slot i = if i = h.index then none else v.slot i := by
  unfold remove
  by_cases hi : i = h.index
  · subst hi
    rw [if_pos rfl]
    split
    · rename_i hlt
      unfold slot
      rw [List.getElem?_set_self hlt]
      rfl
    · rename_i hge
      unfold slot
      rw [List.getElem?_eq_none (Nat.le_of_not_lt hge)]
      rfl
  · rw [if_neg hi]
    split
    · have hne : h.index.toNat ≠ i.toNat := fun heq => hi (UInt32.toNat_inj.mp heq.symm)
      unfold slot
      rw [List.getElem?_set_ne hne]
    · rfl

/-- `set` adds slots up to its index, and no others. -/
theorem length_set (v : GenerationalVector T) (h : GenerationalIndex) (x : T) :
    (v.set h x).1.entries.length = max (h.index.toNat + 1) v.entries.length := by
  unfold set
  dsimp only
  split
  · exact length_grow v h.index
  · rw [List.length_set]
    exact length_grow v h.index

theorem length_remove (v : GenerationalVector T) (h : GenerationalIndex) :
    (v.remove h).entries.length = v.entries.length := by
  unfold remove
  split
  · exact List.length_set
  · rfl

/-! ## The scans -/

/-- What the scans look for in a slot: a value whose handle is alive. -/
def validAt (v : GenerationalVector T) (allocator : GenerationalIndexAllocator) (i : UInt32) :
    Option (GenerationalIndex × T) :=
  match v.slot i with
  | some e => if allocator.isAlive ⟨i, e.generation⟩ then some (⟨i, e.generation⟩, e.value) else none
  | none => none

/-- The live handles with their values, from the slot `i` on. -/
def validFrom (v : GenerationalVector T) (allocator : GenerationalIndexAllocator) (i : ℕ) :
    List (GenerationalIndex × T) :=
  (List.range' i (v.entries.length - i)).filterMap (fun k => v.validAt allocator (UInt32.ofNat k))

variable {allocator : GenerationalIndexAllocator}

theorem validAt_eq_some_iff {y : T} :
    v.validAt allocator i = some (h, y)
      ↔ h.index = i ∧ v.get h = some y ∧ allocator.isAlive h = true := by
  unfold validAt
  rw [get_eq_some_iff]
  constructor
  · intro hvalid
    split at hvalid
    · rename_i e hslot
      split at hvalid
      · rename_i halive
        cases hvalid
        exact ⟨rfl, hslot, halive⟩
      · cases hvalid
    · cases hvalid
  · rintro ⟨rfl, hslot, halive⟩
    rw [hslot]
    exact if_pos halive

theorem validFrom_of_lt (hlt : i.toNat < v.entries.length) :
    v.validFrom allocator i.toNat
      = (v.validAt allocator i).toList ++ v.validFrom allocator (i.toNat + 1) := by
  unfold validFrom
  rw [show v.entries.length - i.toNat = (v.entries.length - (i.toNat + 1)) + 1 by omega,
    List.range'_succ, List.filterMap_cons, UInt32.ofNat_toNat]
  cases v.validAt allocator i with
  | none => rfl
  | some found => rfl

theorem validFrom_of_ge {i : ℕ} (hge : v.entries.length ≤ i) : v.validFrom allocator i = [] := by
  unfold validFrom
  rw [show v.entries.length - i = 0 by omega]
  rfl

/-- With fewer than `2 ^ 32` slots the counter of a scan does not come round. -/
theorem toNat_succ_of_lt (hlen : v.entries.length < 2 ^ 32) (hlt : i.toNat < v.entries.length) :
    (i + 1).toNat = i.toNat + 1 := by
  rw [UInt32.toNat_add]
  exact Nat.mod_eq_of_lt (Nat.lt_of_le_of_lt hlt hlen)

/-- **The first scan collects the live handles** from its counter on, and comes
to an end. -/
theorem getAllValidIndicesLoop_eq (hlen : v.entries.length < 2 ^ 32) (fuel : ℕ) (i : UInt32)
    (result : List GenerationalIndex) (hi : i.toNat ≤ v.entries.length)
    (hfuel : v.entries.length < i.toNat + fuel) :
    v.getAllValidIndicesLoop allocator fuel i result
      = some (result ++ (v.validFrom allocator i.toNat).map Prod.fst) := by
  induction fuel generalizing i result with
  | zero => exact absurd hi (Nat.not_le.mpr hfuel)
  | succ fuel ih =>
    unfold getAllValidIndicesLoop
    split
    · rename_i hlt
      have hsucc := toNat_succ_of_lt hlen hlt
      have ih' := fun result => ih (i + 1) result (by omega) (by omega)
      rw [hsucc] at ih'
      rw [validFrom_of_lt hlt]
      unfold validAt
      cases v.slot i with
      | none => exact ih' result
      | some e =>
        by_cases halive : allocator.isAlive ⟨i, e.generation⟩ = true
        · simp only [halive, if_true, ih']
          simp
        · simp only [halive, ih']
          simp
    · rename_i hge
      rw [validFrom_of_ge (Nat.le_of_not_lt hge)]
      simp

/-- **The second scan returns the first of them**, and comes to an end. -/
theorem getFirstValidEntryLoop_eq (hlen : v.entries.length < 2 ^ 32) (fuel : ℕ) (i : UInt32)
    (hi : i.toNat ≤ v.entries.length) (hfuel : v.entries.length < i.toNat + fuel) :
    v.getFirstValidEntryLoop allocator fuel i = some (v.validFrom allocator i.toNat).head? := by
  induction fuel generalizing i with
  | zero => exact absurd hi (Nat.not_le.mpr hfuel)
  | succ fuel ih =>
    unfold getFirstValidEntryLoop
    split
    · rename_i hlt
      have hsucc := toNat_succ_of_lt hlen hlt
      have ih' := ih (i + 1) (by omega) (by omega)
      rw [hsucc] at ih'
      rw [validFrom_of_lt hlt]
      unfold validAt
      cases v.slot i with
      | none => exact ih'
      | some e =>
        by_cases halive : allocator.isAlive ⟨i, e.generation⟩ = true
        · simp [halive]
        · simp [halive, ih']
    · rename_i hge
      rw [validFrom_of_ge (Nat.le_of_not_lt hge)]
      rfl

theorem mem_validFrom_zero :
    (h, x) ∈ v.validFrom allocator 0 ↔ v.get h = some x ∧ allocator.isAlive h = true := by
  unfold validFrom
  rw [List.mem_filterMap]
  constructor
  · rintro ⟨k, -, hvalid⟩
    exact (validAt_eq_some_iff.mp hvalid).2
  · rintro ⟨hget, halive⟩
    have hlt := lt_of_slot_eq_some (get_eq_some_iff.mp hget)
    refine ⟨h.index.toNat, List.mem_range'_1.mpr ⟨Nat.zero_le _, by omega⟩, ?_⟩
    rw [UInt32.ofNat_toNat, validAt_eq_some_iff]
    exact ⟨rfl, hget, halive⟩

/-- The scans go through the slots in order. -/
theorem pairwise_validFrom_zero (hlen : v.entries.length ≤ 2 ^ 32) :
    ((v.validFrom allocator 0).map Prod.fst).Pairwise (fun h h' => h.index < h'.index) := by
  unfold validFrom
  rw [List.pairwise_map, List.pairwise_filterMap]
  refine List.Pairwise.imp_of_mem ?_ (List.pairwise_lt_range' (s := 0))
  rintro k k' hk hk' hlt ⟨h, x⟩ hvalid ⟨h', x'⟩ hvalid'
  rw [List.mem_range'_1] at hk hk'
  rw [(validAt_eq_some_iff.mp hvalid).1, (validAt_eq_some_iff.mp hvalid').1,
    UInt32.lt_iff_toNat_lt, UInt32.toNat_ofNat_of_lt' (by simp only [UInt32.size]; omega),
    UInt32.toNat_ofNat_of_lt' (by simp only [UInt32.size]; omega)]
  exact hlt

end GenerationalVector

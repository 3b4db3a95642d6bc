import SapCore.FixedStringRefinement

/-!
# A string and views of its own characters

`view()`, `substr()` and `c_str()` refer to the buffer of the string, and what they return can
be handed back to it. The characters are then copied within one buffer, by `memcpy`, which is
defined only between ranges that do not overlap.

An `append` copies past the end of the string, where no view of it reaches. An assignment
copies to the front: a view that begins before the place where its copy ends is overlapped by
it. So a string can be appended any view of itself, and be assigned those that are no longer
than the offset they begin at (`FixedString.tolerates_iff`).
-/

/-- **A `string_view` or a C string by the place of its characters.** -/
structure CharSpan where
  start : UInt64
  size : UInt64
  deriving DecidableEq, Repr

/-- The characters that stand there. -/
def CharSpan.deref (v : CharSpan) (c : CharStore) : CharView where
  chars := c.memory.bytesAt v.start.toNat v.size.toNat
  length_lt := by
    rw [Memory.length_bytesAt]
    exact v.size.toNat_lt

theorem CharSpan.size_deref (v : CharSpan) (c : CharStore) : (v.deref c).size = v.size := by
  rw [← UInt64.toNat_inj, CharView.toNat_size]
  exact Memory.length_bytesAt _ _ _

/-- Why an operation has no result. -/
inductive StringFault where
  /-- An assertion fails. -/
  | assertion
  /-- `memcpy` is called with ranges that overlap. -/
  | overlap
  deriving DecidableEq, Repr

/-- **The ways to refer to the characters of a string.** -/
inductive OwnView where
  /-- `view()`, or the conversion. -/
  | view
  /-- `substr(pos, count)`. -/
  | substr (pos count : UInt64)
  /-- `c_str() + k`, as a C string. -/
  | cString (k : UInt64)
  deriving DecidableEq, Repr

/-- Where the characters begin in the string. -/
def OwnView.offset : OwnView → UInt64
  | .view => 0
  | .substr pos _ => pos
  | .cString k => k

/-- `strlen`, of a C string whose NUL is among the next `limit` bytes. -/
def strlen (m : Memory) (p limit : ℕ) : ℕ := ((m.bytesAt p limit).takeWhile (· ≠ 0)).length

namespace FixedString

variable {N address : UInt64} {s : FixedString N} {c : CharStore} {v : CharSpan} {own : OwnView}

/-- **The place of characters of the string itself**; there is none where an assertion fails or
the pointer is past the NUL. -/
def ownView (s : FixedString N) (c : CharStore) : OwnView → Option CharSpan
  | .view => some ⟨s.buf, s.size⟩
  | .substr pos count =>
    if pos ≤ s.size then
      some ⟨s.buf + pos, if s.size - pos < count then s.size - pos else count⟩
    else none
  | .cString k =>
    if k ≤ s.size then
      some ⟨s.buf + k,
        UInt64.ofNat (strlen c.memory (s.buf + k).toNat (s.size.toNat - k.toNat + 1))⟩
    else none

/-- **`memcpy`** into the buffer. -/
def memcpy (s : FixedString N) (c : CharStore) (dest src count : UInt64) :
    Except StringFault CharStore :=
  if dest.toNat + count.toNat ≤ src.toNat ∨ src.toNat + count.toNat ≤ dest.toNat then
    .ok (s.put c dest (c.memory.bytesAt src.toNat count.toNat))
  else .error .overlap

/-- `operator=(std::string_view)`, and `operator=(const char*)` with the length of the C
string. -/
def assignSpan (s : FixedString N) (c : CharStore) (v : CharSpan) :
    Except StringFault (FixedString N × CharStore) := do
  let s := { s with size := v.size }
  if s.size ≤ N then
    let c ← s.memcpy c s.buf v.start s.size
    return (s, s.terminate c)
  else throw .assertion

/-- `append(std::string_view)`, to which `append(const char*)` and `operator+=` come down. -/
def appendSpan (s : FixedString N) (c : CharStore) (v : CharSpan) :
    Except StringFault (FixedString N × CharStore) := do
  if s.size + v.size ≤ N then
    let c ← s.memcpy c (s.buf + s.size) v.start v.size
    let s := { s with size := s.size + v.size }
    return (s, s.terminate c)
  else throw .assertion

/-- **What a string owes for characters of its own**: an assignment replaces what it held by
them, and an `append` for which there is room adds them, as they were before the call; neither
copies between ranges that overlap. -/
structure Tolerates (s : FixedString N) (c : CharStore) (v : CharSpan) : Prop where
  assign : ∃ s' c', s.assignSpan c v = .ok (s', c') ∧ (s'.view c').chars = (v.deref c).chars
  append : s.size.toNat + v.size.toNat ≤ N.toNat →
    ∃ s' c', s.appendSpan c v = .ok (s', c')
      ∧ (s'.view c').chars = (s.view c).chars ++ (v.deref c).chars

/-! ## Where the characters are -/

/-- A C string ends at the NUL after the string, or before. -/
theorem strlen_le (m : Memory) {p n : ℕ} (hnul : m (p + n) = 0) : strlen m p (n + 1) ≤ n := by
  have hsplit : m.bytesAt p (n + 1) = m.bytesAt p n ++ [0] := by
    rw [Memory.bytesAt_add, ← hnul]
    rfl
  have hlength := m.length_bytesAt p n
  have hle := (List.takeWhile_prefix (l := m.bytesAt p n) (fun b => decide (b ≠ 0))).length_le
  rw [strlen, hsplit, List.takeWhile_append]
  split
  · rw [List.length_append, hlength]
    simp
  · omega

/-- **A view of the string lies within it.** -/
theorem ownView_within (hplace : Place N address) (hs : s.WellFormed address c)
    (hv : s.ownView c own = some v) :
    v.start.toNat = address.toNat + own.offset.toNat
      ∧ own.offset.toNat + v.size.toNat ≤ s.size.toNat := by
  have hle := hs.size_le
  cases own with
  | view =>
    cases hv
    exact ⟨by rw [hs.buf]; rfl, by simp [OwnView.offset]⟩
  | substr pos count =>
    obtain ⟨hpos, heq⟩ := Option.ite_none_right_eq_some.mp hv
    cases heq
    have hpos' := UInt64.le_iff_toNat_le.mp hpos
    have hrest : (s.size - pos).toNat = s.size.toNat - pos.toNat := UInt64.toNat_sub_of_le _ _ hpos
    refine ⟨by rw [hs.buf]; exact toNat_add_of_le hplace (by omega), ?_⟩
    have hmin : (if s.size - pos < count then s.size - pos else count).toNat
        ≤ (s.size - pos).toNat := by
      split
      · exact le_refl _
      · rename_i hge
        exact UInt64.le_iff_toNat_le.mp (UInt64.not_lt.mp hge)
    show pos.toNat + (if s.size - pos < count then s.size - pos else count).toNat ≤ s.size.toNat
    omega
  | cString k =>
    obtain ⟨hk, heq⟩ := Option.ite_none_right_eq_some.mp hv
    cases heq
    have hk' := UInt64.le_iff_toNat_le.mp hk
    have hlt := s.size.toNat_lt
    have hstart : (s.buf + k).toNat = address.toNat + k.toNat := by
      rw [hs.buf]
      exact toNat_add_of_le hplace (by omega)
    have hnul : c.memory ((s.buf + k).toNat + (s.size.toNat - k.toNat)) = 0 := by
      rw [hstart, Nat.add_assoc, Nat.add_sub_cancel' hk', ← hs.buf]
      exact hs.nul
    have hlen := strlen_le c.memory hnul
    refine ⟨hstart, ?_⟩
    show k.toNat + (UInt64.ofNat _).toNat ≤ s.size.toNat
    rw [UInt64.toNat_ofNat_of_lt' (show _ < 2 ^ 64 by omega)]
    omega

/-! ## Assignments and appends -/

section Within

variable (hplace : Place N address) (hs : s.WellFormed address c)
  (hv : s.ownView c own = some v)
include hplace hs hv

/-- **An assignment copies from where it does not write exactly when the characters are no more
than the offset they begin at**; then it is the assignment of those characters. -/
theorem assignSpan_eq :
    (own.offset.toNat < v.size.toNat → s.assignSpan c v = .error .overlap)
      ∧ (v.size.toNat ≤ own.offset.toNat → ∃ s' c', s.assignSpan c v = .ok (s', c')
        ∧ (s'.view c').chars = (v.deref c).chars) := by
  obtain ⟨hstart, hin⟩ := ownView_within hplace hs hv
  have hsize : v.size ≤ N := by
    have hle := hs.size_le
    rw [UInt64.le_iff_toNat_le]
    omega
  have hbuf := congrArg UInt64.toNat hs.buf
  constructor
  · intro hlt
    have hcopy : memcpy { s with size := v.size } c s.buf v.start v.size = .error .overlap :=
      if_neg (by omega)
    simp only [assignSpan, if_pos hsize, hcopy]
    rfl
  · intro hle
    have hcopy : memcpy { s with size := v.size } c s.buf v.start v.size
        = .ok (put { s with size := v.size } c s.buf (v.deref c).chars) := if_pos (by omega)
    have hassign : s.assignView c (v.deref c) = some ({ s with size := v.size },
        terminate { s with size := v.size } (put { s with size := v.size } c s.buf
          (v.deref c).chars)) := by
      rw [assignView, v.size_deref]
      exact if_pos hsize
    refine ⟨_, _, ?_, (yields_assignView hplace hs (v.deref c) _ _ hassign).view⟩
    simp only [assignSpan, if_pos hsize, hcopy]
    rfl

/-- **An `append` never copies from where it writes.** -/
theorem appendSpan_eq (hroom : s.size.toNat + v.size.toNat ≤ N.toNat) :
    ∃ s' c', s.appendSpan c v = .ok (s', c')
      ∧ (s'.view c').chars = (s.view c).chars ++ (v.deref c).chars := by
  obtain ⟨hstart, hin⟩ := ownView_within hplace hs hv
  have hlt := N.toNat_lt
  have hsum : s.size + v.size ≤ N := by
    rw [UInt64.le_iff_toNat_le, UInt64.toNat_add, Nat.mod_eq_of_lt (by omega)]
    exact hroom
  have hend : (s.buf + s.size).toNat = address.toNat + s.size.toNat := by
    rw [hs.buf, toNat_add_of_le hplace hs.size_le]
  have hcopy : s.memcpy c (s.buf + s.size) v.start v.size
      = .ok (s.put c (s.buf + s.size) (v.deref c).chars) := if_pos (by omega)
  have hcount : v.size.toNat = (v.deref c).chars.length := (Memory.length_bytesAt _ _ _).symm
  have happend : s.appendChars c v.size (v.deref c).chars
      = some ({ s with size := s.size + v.size }, terminate { s with size := s.size + v.size }
          (s.put c (s.buf + s.size) (v.deref c).chars)) :=
    if_pos hsum
  have hexact : SumExact N s.size v.size := fun _ _ => by omega
  refine ⟨_, _, ?_, ((yieldsIf_appendChars hplace hs hcount).1 hexact _ _ happend).view⟩
  simp only [appendSpan, if_pos hsum, hcopy]
  rfl

/-- **The views of itself that a string tolerates** are those no longer than the offset they
begin at. Appending tolerates them all. -/
theorem tolerates_iff : s.Tolerates c v ↔ v.size.toNat ≤ own.offset.toNat := by
  obtain ⟨hoverlap, happly⟩ := assignSpan_eq hplace hs hv
  constructor
  · rintro ⟨⟨s', c', hok, -⟩, -⟩
    by_contra hlong
    rw [hoverlap (by omega)] at hok
    cases hok
  · intro hle
    exact ⟨happly hle, appendSpan_eq hplace hs hv⟩

end Within

/-- The string `abcd`, of capacity 15 at address 4096. -/
def abcd : FixedString 15 := ⟨⟨4096, 4112⟩, 4096, 4⟩

/-- The memory it is in. -/
def abcdStore : CharStore :=
  ⟨fun p => if p = 4096 then 97 else if p = 4097 then 98 else if p = 4098 then 99
    else if p = 4099 then 100 else 0, false⟩

theorem wellFormed_abcd : abcd.WellFormed 4096 abcdStore := ⟨rfl, rfl, by decide, rfl⟩

theorem place_abcd : Place 15 4096 := ⟨by decide, by decide⟩

/-- It can be assigned its second half. -/
theorem tolerates_iff_abcd :
    abcd.ownView abcdStore (.substr 2 2) = some ⟨4098, 2⟩
      ∧ abcd.Tolerates abcdStore ⟨4098, 2⟩ := by
  have hv : abcd.ownView abcdStore (.substr 2 2) = some ⟨4098, 2⟩ := rfl
  exact ⟨hv, (tolerates_iff place_abcd wellFormed_abcd hv).mpr (by decide)⟩

/-- **Assigning a string to itself overlaps**, through its view, and so does assigning it all
but its first character, through `substr` or as a C string. -/
theorem assignSpan_abcd :
    abcd.ownView abcdStore .view = some ⟨4096, 4⟩
      ∧ abcd.ownView abcdStore (.substr 1 0xFFFFFFFFFFFFFFFF) = some ⟨4097, 3⟩
      ∧ abcd.ownView abcdStore (.cString 1) = some ⟨4097, 3⟩
      ∧ abcd.assignSpan abcdStore ⟨4096, 4⟩ = .error .overlap
      ∧ abcd.assignSpan abcdStore ⟨4097, 3⟩ = .error .overlap
      ∧ ¬ abcd.Tolerates abcdStore ⟨4096, 4⟩ ∧ ¬ abcd.Tolerates abcdStore ⟨4097, 3⟩ := by
  have hview : abcd.ownView abcdStore .view = some ⟨4096, 4⟩ := rfl
  have htail : abcd.ownView abcdStore (.cString 1) = some ⟨4097, 3⟩ := by decide
  have hwhole := (assignSpan_eq place_abcd wellFormed_abcd hview).1 (by decide)
  have hrest := (assignSpan_eq place_abcd wellFormed_abcd htail).1 (by decide)
  refine ⟨hview, rfl, htail, hwhole, hrest, fun h => ?_, fun h => ?_⟩
  · obtain ⟨s', c', hok, -⟩ := h.assign
    rw [hwhole] at hok
    cases hok
  · obtain ⟨s', c', hok, -⟩ := h.assign
    rw [hrest] at hok
    cases hok

end FixedString

import SapCore.FixedString

/-!
# Fixed strings as bounded lists of characters

Every operation writes characters and a NUL after some characters that stay, and nothing else
(`FixedString.stores_of_write`); what it yields is said once for each operation, as a list. The
sizes are sums of 64-bit words, and the checks against the capacity are made on these sums. A
sum that wraps and is accepted makes `append` store characters beside the buffer; without such
a sum the strings are lists of at most as many characters as their capacity says, and the
operations are those on lists (`FixedStrings.refines_iff_exact`).
-/

open Alignment

theorem CharView.toNat_size (v : CharView) : v.size.toNat = v.chars.length :=
  UInt64.toNat_ofNat_of_lt' v.length_lt

namespace FixedString

variable {N M K : UInt64} {address : UInt64} {s : FixedString N} {c c' : CharStore}
  {l : List UInt8}

/-- **A string is well-formed**: it is in its buffer, has no more characters than it may, and a
NUL after them. -/
structure WellFormed (address : UInt64) (s : FixedString N) (c : CharStore) : Prop where
  arena : s.arena.buf = address
  buf : s.buf = address
  size_le : s.size.toNat ≤ N.toNat
  nul : c.memory (s.buf.toNat + s.size.toNat) = 0

/-- **What an operation leaves**: a well-formed string of the given characters, and the rest of
the memory as it was. -/
structure Stores (address : UInt64) (c : CharStore) (l : List UInt8) (s : FixedString N)
    (c' : CharStore) : Prop where
  wellFormed : s.WellFormed address c'
  view : (s.view c').chars = l
  frame : ∀ p, ¬ (address.toNat ≤ p ∧ p < address.toNat + (N.toNat + 1)) →
    c'.memory p = c.memory p
  overrun : c'.overrun = c.overrun

/-- Where a string may be: at an address that is not null, in the address space. -/
structure Place (N address : UInt64) : Prop where
  nonnull : address ≠ 0
  fits : address.toNat + (N.toNat + 1) < 2 ^ 64

theorem length_view (s : FixedString N) (c : CharStore) :
    (s.view c).chars.length = s.size.toNat :=
  Memory.length_bytesAt _ _ _

theorem size_view (s : FixedString N) (c : CharStore) : (s.view c).size = s.size := by
  rw [← UInt64.toNat_inj, CharView.toNat_size, length_view]

/-- The first operation leaves what the second begins with. -/
theorem Stores.trans {c₁ c₂ : CharStore} {s₁ s₂ : FixedString N} {l₁ l₂ : List UInt8}
    (h₁ : Stores address c l₁ s₁ c₁) (h₂ : Stores address c₁ l₂ s₂ c₂) :
    Stores address c l₂ s₂ c₂ where
  wellFormed := h₂.wellFormed
  view := h₂.view
  frame p hp := (h₂.frame p hp).trans (h₁.frame p hp)
  overrun := h₂.overrun.trans h₁.overrun

/-- A position in the buffer. -/
theorem toNat_add_of_le (hplace : Place N address) {k : UInt64} (hk : k.toNat ≤ N.toNat) :
    (address + k).toNat = address.toNat + k.toNat := by
  have hfits := hplace.fits
  rw [UInt64.toNat_add, Nat.mod_eq_of_lt (by omega)]

/-- **The shape of every operation**: characters and a NUL are written after those that stay. -/
theorem stores_of_write (harena : s.arena.buf = address) (hbuf : s.buf = address)
    (kept chars : List UInt8) (hsize : s.size.toNat = kept.length + chars.length)
    (hle : kept.length + chars.length ≤ N.toNat)
    (hkept : c.memory.bytesAt address.toNat kept.length = kept)
    (hmemory : c'.memory = c.memory.write (address.toNat + kept.length) (chars ++ [0]))
    (hoverrun : c'.overrun = c.overrun) : Stores address c (kept ++ chars) s c' where
  wellFormed := by
    refine ⟨harena, hbuf, by omega, ?_⟩
    rw [hbuf, hsize, hmemory, Memory.write_append, ← Nat.add_assoc]
    simp [Memory.write]
  view := by
    have hread := Memory.bytesAt_write_add c.memory address.toNat kept.length (chars ++ [0])
    rw [List.length_append, ← Nat.add_assoc, Memory.bytesAt_add, ← List.append_assoc] at hread
    have hchars := (List.append_inj hread (by
      rw [Memory.length_bytesAt, List.length_append, Memory.length_bytesAt])).1
    show c'.memory.bytesAt s.buf.toNat s.size.toNat = kept ++ chars
    rw [hbuf, hsize, hmemory, hchars, hkept]
  frame p hp := by
    rw [hmemory]
    refine Memory.write_of_not_mem (fun hmem => hp ?_)
    rw [List.length_append, List.length_singleton] at hmem
    omega
  overrun := hoverrun

theorem overrun_put (harena : s.arena.buf = address) {p : UInt64} {chars : List UInt8}
    (hp : address.toNat ≤ p.toNat) (hle : p.toNat + chars.length ≤ address.toNat + (N.toNat + 1)) :
    (s.put c p chars).overrun = c.overrun := by
  simp [put, harena, hp, hle]

theorem overrun_put_past (harena : s.arena.buf = address) {p : UInt64} {chars : List UInt8}
    (hpast : ¬ p.toNat + chars.length ≤ address.toNat + (N.toNat + 1)) :
    (s.put c p chars).overrun = true := by
  simp only [put, harena, hpast, and_false, decide_false, Bool.not_false, Bool.or_true]

/-- An overrun is recorded for good. -/
theorem overrun_put_of_overrun (hc : c.overrun = true) (p : UInt64) (chars : List UInt8) :
    (s.put c p chars).overrun = true := by
  simp only [put, hc, Bool.true_or]

/-- A NUL is written after the characters that stay. -/
theorem stores_terminate (hplace : Place N address) (harena : s.arena.buf = address)
    (hbuf : s.buf = address) (kept : List UInt8) (hsize : s.size.toNat = kept.length)
    (hle : kept.length ≤ N.toNat)
    (hkept : c.memory.bytesAt address.toNat kept.length = kept) :
    Stores address c kept s (s.terminate c) := by
  have hptr : (s.buf + s.size).toNat = address.toNat + kept.length := by
    rw [hbuf, toNat_add_of_le hplace (by omega), hsize]
  have hstores : Stores address c (kept ++ []) s (s.terminate c) := by
    refine stores_of_write harena hbuf kept [] hsize hle hkept ?_ (overrun_put harena (by omega) ?_)
    · rw [terminate, put, hptr]
      rfl
    · rw [hptr, List.length_singleton]
      omega
  rwa [List.append_nil] at hstores

/-- Characters and then a NUL are written after those that stay. -/
theorem stores_put (hplace : Place N address) (harena : s.arena.buf = address)
    (hbuf : s.buf = address) (kept chars : List UInt8) (k size : UInt64)
    (hk : k.toNat = kept.length) (hsize : size.toNat = kept.length + chars.length)
    (hle : kept.length + chars.length ≤ N.toNat)
    (hkept : c.memory.bytesAt address.toNat kept.length = kept) :
    Stores address c (kept ++ chars) { s with size := size }
      (terminate { s with size := size } (s.put c (s.buf + k) chars)) := by
  have hptr : (s.buf + k).toNat = address.toNat + kept.length := by
    rw [hbuf, toNat_add_of_le hplace (by omega), hk]
  have hend : (s.buf + size).toNat = address.toNat + (kept.length + chars.length) := by
    rw [hbuf, toNat_add_of_le hplace (by omega), hsize]
  refine stores_of_write (s := { s with size := size }) harena hbuf kept chars hsize hle hkept ?_ ?_
  · rw [Memory.write_append, Nat.add_assoc, ← hend, ← hptr]
    rfl
  · have hnul : (terminate { s with size := size } (s.put c (s.buf + k) chars)).overrun
        = (s.put c (s.buf + k) chars).overrun := by
      refine overrun_put (s := { s with size := size }) (p := s.buf + size) harena (by omega) ?_
      rw [hend, List.length_singleton]
      omega
    exact hnul.trans (overrun_put harena (by omega) (by omega))

/-! ## Constructors -/

/-- The arena of a string has room for its buffer, at its own address. -/
theorem allocateBuf_eq (hplace : Place N address) (size : UInt64) :
    ∃ arena : StackArena (N + 1), arena.buf = address
      ∧ allocateBuf N address size = some ⟨arena, address, size⟩ := by
  have hfits := hplace.fits
  have hsucc : (N + 1).toNat = N.toNat + 1 := by
    have hone : (1 : UInt64).toNat = 1 := rfl
    rw [UInt64.toNat_add, hone, Nat.mod_eq_of_lt (by omega)]
  have hround : roundUp address.toNat (1 : UInt64).toNat = address.toNat := by
    simp [roundUp]
  have hlast : (address + (N + 1)).toNat = address.toNat + (N.toNat + 1) := by
    rw [UInt64.toNat_add, hsucc, Nat.mod_eq_of_lt hfits]
  obtain ⟨-, hfirst, -⟩ | ⟨hpast, -⟩ := @bump_of_lt address (address + (N + 1)) (N + 1)
    1 ⟨0, rfl⟩ (by rw [hround, hsucc]; exact hfits)
  · rw [hround, UInt64.toNat_inj] at hfirst
    refine ⟨((StackArena.new address : StackArena (N + 1)).allocate (N + 1) 1).2, rfl, ?_⟩
    simp only [allocateBuf, StackArena.allocate, StackArena.new, hfirst, hplace.nonnull, if_false]
  · rw [hround, hsucc, hlast] at hpast
    exact absurd hpast (Nat.lt_irrefl _)

/-- **What an operation yields**, if it has a result. -/
def Yields (address : UInt64) (c : CharStore) (l : List UInt8)
    (r : Option (FixedString N × CharStore)) : Prop :=
  ∀ s' c', r = some (s', c') → Stores address c l s' c'

theorem yields_some {r : FixedString N × CharStore} :
    Yields address c l (some r) ↔ Stores address c l r.1 r.2 := by
  refine ⟨fun h => h _ _ rfl, fun h s' c' heq => ?_⟩
  cases heq
  exact h

theorem yields_none : Yields (N := N) address c l none := fun _ _ heq => nomatch heq

/-- An operation that checks something first. -/
theorem yields_ite {P : Prop} [Decidable P] {r : Option (FixedString N × CharStore)} :
    Yields address c l (if P then r else none) ↔ (P → Yields address c l r) := by
  split
  · rename_i hP
    exact ⟨fun h _ => h, fun h => h hP⟩
  · rename_i hP
    exact ⟨fun _ hP' => absurd hP' hP, fun _ => yields_none⟩

/-- **What an operation yields on a condition**; without it, something is stored beside the
buffer. -/
def YieldsIf (P : Prop) (address : UInt64) (c : CharStore) (l : List UInt8)
    (r : Option (FixedString N × CharStore)) : Prop :=
  (P → Yields address c l r) ∧ (¬ P → ∃ r', r = some r' ∧ r'.2.overrun = true)

/-- The characters are replaced. -/
theorem yields_fill (hplace : Place N address) (harena : s.arena.buf = address)
    (hbuf : s.buf = address) {chars : List UInt8} (hsize : s.size.toNat = chars.length) :
    Yields address c chars (s.fill c chars) := by
  refine yields_ite.mpr (fun hle => yields_some.mpr ?_)
  rw [UInt64.le_iff_toNat_le] at hle
  have hstores := stores_put (c := c) hplace harena hbuf [] chars 0 s.size rfl
    (by rw [hsize, List.length_nil, Nat.zero_add]) (by rw [List.length_nil, Nat.zero_add]; omega) rfl
  rw [UInt64.add_zero] at hstores
  exact hstores

theorem yields_new (hplace : Place N address) : Yields address c [] (new N address c) := by
  obtain ⟨arena, harena, heq⟩ := allocateBuf_eq hplace 0
  rw [new, heq]
  refine yields_some.mpr ?_
  have hstores := stores_terminate (c := c) (s := ⟨arena, address, 0⟩) hplace harena rfl [] rfl
    (Nat.zero_le _) rfl
  rw [terminate, UInt64.add_zero] at hstores
  exact hstores

theorem yields_ofCString (hplace : Place N address) (str : Option CharView) :
    Yields address c (str.elim [] CharView.chars) (ofCString N address c str) := by
  obtain ⟨arena, harena, heq⟩ := allocateBuf_eq hplace 0
  rw [ofCString, heq]
  cases str with
  | none => exact yields_some.mpr (stores_terminate hplace harena rfl [] rfl (Nat.zero_le _) rfl)
  | some v => exact yields_fill hplace harena rfl v.toNat_size

theorem yields_ofView (hplace : Place N address) (v : CharView) :
    Yields address c v.chars (ofView N address c v) := by
  obtain ⟨arena, harena, heq⟩ := allocateBuf_eq hplace v.size
  rw [ofView, heq]
  exact yields_fill hplace harena rfl v.toNat_size

theorem yields_ofCount (hplace : Place N address) (count : UInt64) (ch : UInt8) :
    Yields address c (List.replicate count.toNat ch) (ofCount N address c count ch) := by
  obtain ⟨arena, harena, heq⟩ := allocateBuf_eq hplace count
  rw [ofCount, heq]
  exact yields_fill hplace harena rfl List.length_replicate.symm

/-- The characters of another string are copied, with their NUL. -/
theorem stores_copyChars (hplace : Place N address) (harena : s.arena.buf = address)
    (hbuf : s.buf = address) {address' : UInt64} {other : FixedString M}
    (hother : other.WellFormed address' c) (hsize : s.size = other.size)
    (hle : s.size.toNat ≤ N.toNat) :
    Stores address c (other.view c).chars s (s.copyChars c other) := by
  have hfits := hplace.fits
  have hone : (1 : UInt64).toNat = 1 := rfl
  have hsucc : (s.size + 1).toNat = other.size.toNat + 1 := by
    rw [UInt64.toNat_add, hone, Nat.mod_eq_of_lt (by omega), hsize]
  have hchars : c.memory.bytesAt other.buf.toNat (s.size + 1).toNat
      = (other.view c).chars ++ [0] := by
    rw [hsucc, Memory.bytesAt_add]
    show (other.view c).chars ++ [c.memory (other.buf.toNat + other.size.toNat + 0)] = _
    rw [Nat.add_zero, hother.nul]
  have hlength := other.length_view c
  refine stores_of_write harena hbuf [] (other.view c).chars ?_ ?_ rfl ?_ (overrun_put harena ?_ ?_)
  · rw [List.length_nil, Nat.zero_add, hlength, hsize]
  · rw [List.length_nil, Nat.zero_add, hlength, ← hsize]
    exact hle
  · rw [copyChars, hchars, hbuf]
    rfl
  · rw [hbuf]
  · rw [hbuf, Memory.length_bytesAt, hsucc, ← hsize]
    omega

theorem yields_copy (hplace : Place N address) {address' : UInt64} {other : FixedString M}
    (hother : other.WellFormed address' c) (hle : other.size.toNat ≤ N.toNat) :
    Yields address c (other.view c).chars (copy N address c other) := by
  obtain ⟨arena, harena, heq⟩ := allocateBuf_eq hplace other.size
  rw [copy, heq]
  exact yields_some.mpr (stores_copyChars hplace harena rfl hother rfl hle)

theorem yields_convert (hplace : Place N address) {address' : UInt64} {other : FixedString M}
    (hother : other.WellFormed address' c) :
    Yields address c (other.view c).chars (convert N address c other) := by
  obtain ⟨arena, harena, heq⟩ := allocateBuf_eq hplace other.size
  rw [convert, heq]
  refine yields_ite.mpr (fun hle => yields_some.mpr ?_)
  exact stores_copyChars hplace harena rfl hother rfl (UInt64.le_iff_toNat_le.mp hle)

/-! ## Assignments and modifiers -/

section Modifiers

variable (hplace : Place N address) (hs : s.WellFormed address c)
include hplace hs

theorem yields_assign {address' : UInt64} {other : FixedString M}
    (hother : other.WellFormed address' c) (hle : other.size.toNat ≤ N.toNat) :
    Yields address c (other.view c).chars (some (s.assign c other)) :=
  yields_some.mpr (stores_copyChars (s := { s with size := other.size }) hplace hs.arena hs.buf
    hother rfl hle)

theorem yields_assignCString (str : Option CharView) :
    Yields address c (str.elim [] CharView.chars) (s.assignCString c str) := by
  cases str with
  | none =>
    rw [assignCString]
    refine yields_ite.mpr (fun _ => yields_some.mpr ?_)
    exact stores_terminate (s := { s with size := 0 }) hplace hs.arena hs.buf [] rfl
      (Nat.zero_le _) rfl
  | some v =>
    exact yields_fill (s := { s with size := v.size }) hplace hs.arena hs.buf v.toNat_size

theorem yields_assignView (v : CharView) : Yields address c v.chars (s.assignView c v) :=
  yields_fill (s := { s with size := v.size }) hplace hs.arena hs.buf v.toNat_size

theorem yields_clear : Yields address c [] (some (s.clear c)) := by
  refine yields_some.mpr ?_
  have hstores := stores_terminate (c := c) (s := { s with size := 0 }) hplace hs.arena hs.buf [] rfl
    (Nat.zero_le _) rfl
  rw [terminate, UInt64.add_zero] at hstores
  exact hstores

omit hplace in
/-- The characters of the string stand at its address. -/
theorem bytesAt_view :
    c.memory.bytesAt address.toNat (s.view c).chars.length = (s.view c).chars := by
  rw [length_view, ← hs.buf]
  rfl

theorem yields_pushBack (ch : UInt8) :
    Yields address c ((s.view c).chars ++ [ch]) (s.pushBack c ch) := by
  refine yields_ite.mpr (fun hlt => yields_some.mpr ?_)
  have hlength := s.length_view c
  have hfits := hplace.fits
  have hone : (1 : UInt64).toNat = 1 := rfl
  rw [UInt64.lt_iff_toNat_lt] at hlt
  have hsucc : (s.size + 1).toNat = s.size.toNat + 1 := by
    rw [UInt64.toNat_add, hone, Nat.mod_eq_of_lt (by omega)]
  refine stores_put hplace hs.arena hs.buf _ [ch] _ _ hlength.symm ?_ ?_ (bytesAt_view hs)
  · rw [hsucc, hlength, List.length_singleton]
  · rw [hlength, List.length_singleton]
    exact hlt

/-- The characters after the first few are dropped. -/
theorem stores_take (size : UInt64) (hle : size.toNat ≤ s.size.toNat) :
    Stores address c ((s.view c).chars.take size.toNat) { s with size := size }
      (terminate { s with size := size } c) := by
  have hlength : ((s.view c).chars.take size.toNat).length = size.toNat := by
    rw [List.length_take, length_view, Nat.min_eq_left hle]
  refine stores_terminate (s := { s with size := size }) hplace hs.arena hs.buf _ hlength.symm ?_ ?_
  · rw [hlength]
    exact Nat.le_trans hle hs.size_le
  · rw [hlength, ← hs.buf]
    exact (Memory.take_bytesAt c.memory s.buf.toNat hle).symm

theorem yields_popBack : Yields address c (s.view c).chars.dropLast (s.popBack c) := by
  refine yields_ite.mpr (fun hpos => yields_some.mpr ?_)
  have hone : (1 : UInt64) ≤ s.size := by
    rw [UInt64.le_iff_toNat_le]
    exact UInt64.lt_iff_toNat_lt.mp hpos
  have hpred : (s.size - 1).toNat = s.size.toNat - 1 := UInt64.toNat_sub_of_le _ _ hone
  have hstores := stores_take hplace hs (s.size - 1) (by omega)
  rwa [hpred, ← length_view s c, ← List.dropLast_eq_take] at hstores

/-- **The condition on a sum of sizes**: if it is accepted, it did not pass `2 ^ 64`. -/
def SumExact (N a b : UInt64) : Prop := a ≤ N → a + b ≤ N → a.toNat + b.toNat < 2 ^ 64

/-- **Characters are appended** if the sum of the sizes did not wrap; if it did and was accepted
all the same, characters are stored beside the buffer. -/
theorem yieldsIf_appendChars {count : UInt64} {chars : List UInt8}
    (hcount : count.toNat = chars.length) :
    YieldsIf (SumExact N s.size count) address c ((s.view c).chars ++ chars)
      (s.appendChars c count chars) := by
  have hlength := s.length_view c
  refine ⟨fun hexact => yields_ite.mpr (fun hle => yields_some.mpr ?_), fun hwraps => ?_⟩
  · have hlt := hexact (UInt64.le_iff_toNat_le.mpr hs.size_le) hle
    have hsum : (s.size + count).toNat = s.size.toNat + count.toNat := by
      rw [UInt64.toNat_add, Nat.mod_eq_of_lt hlt]
    rw [UInt64.le_iff_toNat_le, hsum] at hle
    refine stores_put hplace hs.arena hs.buf _ chars _ _ hlength.symm ?_ ?_ (bytesAt_view hs)
    · rw [hsum, hlength, hcount]
    · rw [hlength, ← hcount]
      exact hle
  · obtain ⟨-, hle, hlt⟩ : s.size ≤ N ∧ s.size + count ≤ N
        ∧ ¬ s.size.toNat + count.toNat < 2 ^ 64 := by
      simpa only [SumExact, Classical.not_imp] using hwraps
    have hptr : (s.buf + s.size).toNat = address.toNat + s.size.toNat := by
      rw [hs.buf, toNat_add_of_le hplace hs.size_le]
    have hpast : ¬ (s.buf + s.size).toNat + chars.length ≤ address.toNat + (N.toNat + 1) := by
      have hfits := hplace.fits
      rw [hptr, ← hcount]
      omega
    exact ⟨_, if_pos hle, overrun_put_of_overrun (overrun_put_past hs.arena hpast) _ _⟩

theorem yields_resize (count : UInt64) (ch : UInt8) :
    Yields address c ((s.view c).chars.take count.toNat
      ++ List.replicate (count.toNat - s.size.toNat) ch) (s.resize c count ch) := by
  refine yields_ite.mpr (fun hle => yields_some.mpr ?_)
  have hlength := s.length_view c
  rw [UInt64.le_iff_toNat_le] at hle
  by_cases hgt : count > s.size
  · have hlt := UInt64.lt_iff_toNat_lt.mp hgt
    have hdiff : (count - s.size).toNat = count.toNat - s.size.toNat :=
      UInt64.toNat_sub_of_le _ _ (UInt64.le_of_lt hgt)
    rw [if_pos hgt, List.take_of_length_le (by omega), hdiff]
    refine stores_put hplace hs.arena hs.buf _ _ _ _ hlength.symm ?_ ?_ (bytesAt_view hs)
    · rw [hlength, List.length_replicate]
      omega
    · rw [hlength, List.length_replicate]
      omega
  · have hge := UInt64.le_iff_toNat_le.mp (UInt64.not_lt.mp hgt)
    rw [if_neg hgt, Nat.sub_eq_zero_of_le hge, List.replicate_zero, List.append_nil]
    exact stores_take hplace hs count hge

end Modifiers

/-! ## Concatenation -/

/-- A string is left alone by what is stored in the buffer of another. -/
theorem WellFormed.congr (hs : s.WellFormed address c)
    (hframe : ∀ p, address.toNat ≤ p → p < address.toNat + (N.toNat + 1) →
      c'.memory p = c.memory p) :
    s.WellFormed address c' ∧ (s.view c').chars = (s.view c).chars := by
  have hle := hs.size_le
  have hbuf := hs.buf
  refine ⟨⟨hs.arena, hs.buf, hs.size_le, ?_⟩, Memory.AgreesOn.bytesAt_eq (fun p hp hp' => ?_)⟩
  · rw [hframe _ (by rw [hbuf]; omega) (by rw [hbuf]; omega)]
    exact hs.nul
  · rw [hbuf] at hp hp'
    exact hframe p hp (by omega)

/-- **Characters are appended to a string that was just made.** -/
theorem yieldsIf_bind_append {first : Option (FixedString K × CharStore)}
    {v : CharStore → CharView} {a b : UInt64} {m : List UInt8} (hplace : Place K address)
    (hfirst : Yields address c l first) (hsome : a ≤ K → first.isSome = true)
    (ha : a.toNat = l.length) (hv : ∀ s₁ c₁, first = some (s₁, c₁) → (v c₁).chars = m)
    (hb : b.toNat = m.length) :
    YieldsIf (SumExact K a b) address c (l ++ m)
      (first.bind (fun r => r.1.append r.2 (v r.2))) := by
  cases hcase : first with
  | none =>
    refine ⟨fun _ => yields_none, fun hwraps => absurd (fun hle => ?_) hwraps⟩
    have hsome' := hsome hle
    rw [hcase] at hsome'
    cases hsome'
  | some r =>
    obtain ⟨s₁, c₁⟩ := r
    have hstores := hfirst s₁ c₁ hcase
    have hsize : s₁.size = a := by
      rw [← UInt64.toNat_inj, ha, ← length_view s₁ c₁, hstores.view]
    have hcount : (v c₁).size = b := by
      rw [← UInt64.toNat_inj, CharView.toNat_size, hv s₁ c₁ hcase, hb]
    have happend := yieldsIf_appendChars hplace hstores.wellFormed (v c₁).toNat_size
    rw [hstores.view, hsize, hcount, hv s₁ c₁ hcase] at happend
    refine ⟨fun hexact s₂ c₂ heq => hstores.trans (happend.1 hexact s₂ c₂ ?_), fun hwraps => ?_⟩
    · rw [← heq, ← hv s₁ c₁ hcase, ← hcount]
      rfl
    · obtain ⟨r', heq, hoverrun⟩ := happend.2 hwraps
      refine ⟨r', ?_, hoverrun⟩
      rw [← heq, ← hv s₁ c₁ hcase, ← hcount]
      rfl

theorem isSome_ofView (hplace : Place K address) (c : CharStore) {v : CharView} (hle : v.size ≤ K) :
    (ofView K address c v).isSome = true := by
  obtain ⟨arena, -, heq⟩ := allocateBuf_eq hplace v.size
  simp [ofView, heq, fill, hle]

theorem isSome_copy (hplace : Place K address) (c : CharStore) (other : FixedString M) :
    (copy K address c other).isSome = true := by
  obtain ⟨arena, -, heq⟩ := allocateBuf_eq hplace other.size
  simp [copy, heq]

end FixedString

/-! ## The strings and the lists -/

/-- **Where the strings may be**: each in the address space, and apart from each other. -/
structure StringSetup.Proper {ι : Type} (setup : StringSetup ι) : Prop where
  place : ∀ x, FixedString.Place (setup.capacity x) (setup.address x)
  apart : ∀ x y, x ≠ y →
    (setup.address x).toNat + ((setup.capacity x).toNat + 1) ≤ (setup.address y).toNat
      ∨ (setup.address y).toNat + ((setup.capacity y).toNat + 1) ≤ (setup.address x).toNat

namespace FixedStrings

variable {ι : Type} {setup : StringSetup ι} {s s' : FixedStrings setup}

/-- **All strings are well-formed**, and nothing was ever stored beside a buffer. -/
structure Good (s : FixedStrings setup) : Prop where
  overrun : s.chars.overrun = false
  object : ∀ x f, s.object x = some f → f.WellFormed (setup.address x) s.chars

/-- The characters of the strings. -/
def lists (s : FixedStrings setup) (x : ι) : Option (List UInt8) :=
  (s.object x).map (fun f => (f.view s.chars).chars)

variable [DecidableEq ι] {x y z : ι} {l : List UInt8}

/-- **The operations on lists of characters.** -/
def listStep (t : ι → Option (List UInt8)) : Label ι → ι → Option (List UInt8)
  | .new x => Function.update t x (some [])
  | .ofCString x str => Function.update t x (some (str.elim [] CharView.chars))
  | .ofView x v => Function.update t x (some v.chars)
  | .ofCount x count ch => Function.update t x (some (List.replicate count.toNat ch))
  | .copy x y => Function.update t x (t y)
  | .convert x y => Function.update t x (t y)
  | .assign x y => Function.update t x (t y)
  | .assignCString x str => Function.update t x (some (str.elim [] CharView.chars))
  | .assignView x v => Function.update t x (some v.chars)
  | .clear x => Function.update t x (some [])
  | .pushBack x ch => Function.update t x ((t x).map (· ++ [ch]))
  | .popBack x => Function.update t x ((t x).map List.dropLast)
  | .append x v => Function.update t x ((t x).map (· ++ v.chars))
  | .appendCount x count ch =>
    Function.update t x ((t x).map (· ++ List.replicate count.toNat ch))
  | .resize x count ch => Function.update t x ((t x).map (fun l =>
      l.take count.toNat ++ List.replicate (count.toNat - l.length) ch))
  | .concat x y z => Function.update t x ((t y).bind (fun l => (t z).map (l ++ ·)))
  | .concatView x y v => Function.update t x ((t y).map (· ++ v.chars))
  | .viewConcat x v y => Function.update t x ((t y).map (v.chars ++ ·))
  | .destroy x => Function.update t x none

/-- **The step refines the one on lists.** -/
def Refines (s : FixedStrings setup) (label : Label ι) (s' : FixedStrings setup) : Prop :=
  s'.Good ∧ s'.lists = listStep s.lists label

section Steps

variable (hsetup : StringSetup.Proper setup) (hs : s.Good)
include hsetup hs

omit [DecidableEq ι] in
/-- What is stored in the buffer of one string leaves the others what they were. -/
theorem Good.others {f : FixedString (setup.capacity x)} {g : FixedString (setup.capacity y)}
    {c : CharStore} (h : FixedString.Stores (setup.address x) s.chars l f c) (hyx : y ≠ x)
    (hy : s.object y = some g) :
    g.WellFormed (setup.address y) c ∧ (g.view c).chars = (g.view s.chars).chars := by
  refine (hs.object y g hy).congr (fun p hp hp' => h.frame p (fun hmem => ?_))
  have hapart := hsetup.apart y x hyx
  omega

/-- **A string is written**, and the others are what they were. -/
theorem Good.set {r : FixedString (setup.capacity x) × CharStore}
    (h : FixedString.Stores (setup.address x) s.chars l r.1 r.2) :
    (s.set x r).Good ∧ (s.set x r).lists = Function.update s.lists x (some l) := by
  refine ⟨⟨h.overrun.trans hs.overrun, fun y f hy => ?_⟩, funext (fun y => ?_)⟩
  · by_cases hyx : y = x
    · subst hyx
      obtain rfl : r.1 = f := Option.some.inj ((Function.update_self y _ _).symm.trans hy)
      exact h.wellFormed
    · exact (hs.others hsetup h hyx ((Function.update_of_ne hyx _ _).symm.trans hy)).1
  · by_cases hyx : y = x
    · subst hyx
      simp only [lists, FixedStrings.set, Function.update_self, Option.map_some, h.view]
    · rw [Function.update_of_ne hyx]
      simp only [lists, FixedStrings.set, Function.update_of_ne hyx]
      cases hy : s.object y with
      | none => rfl
      | some f => exact congrArg some (hs.others hsetup h hyx hy).2

theorem Good.construct {r : Option (FixedString (setup.capacity x) × CharStore)}
    (hr : FixedString.Yields (setup.address x) s.chars l r) (h : s.construct x r = some s') :
    s'.Good ∧ s'.lists = Function.update s.lists x (some l) := by
  rw [FixedStrings.construct, Option.ite_none_right_eq_some, Option.map_eq_some_iff] at h
  obtain ⟨-, ⟨f, c⟩, hr', rfl⟩ := h
  exact hs.set hsetup (hr f c hr')

theorem Good.modify {op : FixedString (setup.capacity x) → CharStore →
      Option (FixedString (setup.capacity x) × CharStore)}
    {l : FixedString (setup.capacity x) → List UInt8}
    (hop : ∀ f, s.object x = some f →
      FixedString.Yields (setup.address x) s.chars (l f) (op f s.chars))
    (h : s.modify x op = some s') :
    ∃ f, s.object x = some f ∧ s'.Good
      ∧ s'.lists = Function.update s.lists x (some (l f)) := by
  rw [FixedStrings.modify, Option.bind_eq_some_iff] at h
  obtain ⟨f, hx, h⟩ := h
  rw [Option.map_eq_some_iff] at h
  obtain ⟨⟨f', c⟩, hf', rfl⟩ := h
  exact ⟨f, hx, hs.set hsetup (r := (f', c)) (hop f hx f' c hf')⟩

/-- An operation on an object that exists, which does to its characters what `g` does. -/
theorem Good.modify_map {op : FixedString (setup.capacity x) → CharStore →
      Option (FixedString (setup.capacity x) × CharStore)} {g : List UInt8 → List UInt8}
    (hop : ∀ f, s.object x = some f →
      FixedString.Yields (setup.address x) s.chars (g (f.view s.chars).chars) (op f s.chars))
    (h : s.modify x op = some s') :
    s'.Good ∧ s'.lists = Function.update s.lists x ((s.lists x).map g) := by
  obtain ⟨f, hx, hgood, hlists⟩ := hs.modify hsetup hop h
  rw [hlists, lists, hx]
  exact ⟨hgood, rfl⟩

/-- An operation on an object that exists, which replaces its characters. -/
theorem Good.modify_const {op : FixedString (setup.capacity x) → CharStore →
      Option (FixedString (setup.capacity x) × CharStore)}
    (hop : ∀ f, s.object x = some f →
      FixedString.Yields (setup.address x) s.chars l (op f s.chars))
    (h : s.modify x op = some s') :
    s'.Good ∧ s'.lists = Function.update s.lists x (some l) := by
  obtain ⟨f, -, hgood, hlists⟩ := hs.modify hsetup hop h
  exact ⟨hgood, hlists⟩

omit hsetup in
/-- A string ceases to exist. -/
theorem Good.destroy (h : s.step (.destroy x) = some s') : s.Refines (.destroy x) s' := by
  rw [step, Option.map_eq_some_iff] at h
  obtain ⟨f, -, rfl⟩ := h
  refine ⟨⟨hs.overrun, fun y g hy => ?_⟩, funext (fun y => ?_)⟩
  · by_cases hyx : y = x
    · subst hyx
      cases (Function.update_self y _ _).symm.trans hy
    · exact hs.object y g ((Function.update_of_ne hyx _ _).symm.trans hy)
  · by_cases hyx : y = x
    · subst hyx
      simp [lists, listStep]
    · simp [lists, listStep, hyx]

end Steps

/-- **The condition on a step**: where sizes are added and the sum is accepted, it did not pass
`2 ^ 64`. -/
def Exact (s : FixedStrings setup) : Label ι → Prop
  | .append x v => ∀ f, s.object x = some f →
      FixedString.SumExact (setup.capacity x) f.size v.size
  | .appendCount x count _ => ∀ f, s.object x = some f →
      FixedString.SumExact (setup.capacity x) f.size count
  | .concat x y z => setup.capacity x = setup.capacity y + setup.capacity z → s.object x = none →
      ∀ f g, s.object y = some f → s.object z = some g →
        FixedString.SumExact (setup.capacity x) f.size g.size
  | .concatView x y v => setup.capacity x = setup.capacity y → s.object x = none →
      ∀ f, s.object y = some f → FixedString.SumExact (setup.capacity x) f.size v.size
  | .viewConcat x v y => setup.capacity x = setup.capacity y → s.object x = none →
      ∀ g, s.object y = some g → FixedString.SumExact (setup.capacity x) v.size g.size
  | _ => True

section Steps

variable (hsetup : StringSetup.Proper setup) (hs : s.Good)
include hsetup hs

omit [DecidableEq ι] hsetup hs in
theorem ne_of_object (hx : s.object x = none) {f : FixedString (setup.capacity y)}
    (hy : s.object y = some f) : y ≠ x := by
  rintro rfl
  cases hx.symm.trans hy

/-- A constructor that yields its result on a condition. -/
theorem Good.construct_iff {P : Prop} {r : Option (FixedString (setup.capacity x) × CharStore)}
    (hr : FixedString.YieldsIf P (setup.address x) s.chars l r) (hx : s.object x = none) :
    (∀ s', s.construct x r = some s' →
        s'.Good ∧ s'.lists = Function.update s.lists x (some l)) ↔ P := by
  refine ⟨fun h => Classical.byContradiction (fun hP => ?_),
    fun hP s' h => hs.construct hsetup (hr.1 hP) h⟩
  obtain ⟨r', rfl, hoverrun⟩ := hr.2 hP
  have hgood := (h (s.set x r') (by rw [FixedStrings.construct, hx]; rfl)).1
  exact absurd (hgood.overrun.symm.trans hoverrun) (by decide)

/-- An operation on an object that exists, which yields its result on a condition. -/
theorem Good.modify_iff {P : FixedString (setup.capacity x) → Prop}
    {op : FixedString (setup.capacity x) → CharStore →
      Option (FixedString (setup.capacity x) × CharStore)} {g : List UInt8 → List UInt8}
    (hop : ∀ f, s.object x = some f → FixedString.YieldsIf (P f) (setup.address x) s.chars
      (g (f.view s.chars).chars) (op f s.chars)) :
    (∀ s', s.modify x op = some s' →
        s'.Good ∧ s'.lists = Function.update s.lists x ((s.lists x).map g))
      ↔ ∀ f, s.object x = some f → P f := by
  refine ⟨fun h f hx => Classical.byContradiction (fun hP => ?_), fun hP s' h =>
    hs.modify_map hsetup (fun f hx => (hop f hx).1 (hP f hx)) h⟩
  obtain ⟨r', heq, hoverrun⟩ := (hop f hx).2 hP
  have hgood := (h (s.set x r') (by
    rw [FixedStrings.modify, hx, Option.bind_some, heq, Option.map_some])).1
  exact absurd (hgood.overrun.symm.trans hoverrun) (by decide)

omit hsetup hs in
theorem object_of_construct {r : Option (FixedString (setup.capacity x) × CharStore)}
    (h : s.construct x r = some s') : s.object x = none := by
  rw [FixedStrings.construct, Option.ite_none_right_eq_some, Option.isNone_iff_eq_none] at h
  exact h.1

omit [DecidableEq ι] in
/-- The characters of another string, read after one was made. -/
theorem Good.view_after {r : Option (FixedString (setup.capacity x) × CharStore)}
    (hr : FixedString.Yields (setup.address x) s.chars l r) (hx : s.object x = none)
    {g : FixedString (setup.capacity y)} (hy : s.object y = some g)
    (f : FixedString (setup.capacity x)) (c : CharStore) (heq : r = some (f, c)) :
    (g.view c).chars = (g.view s.chars).chars :=
  (hs.others hsetup (hr f c heq) (ne_of_object hx hy) hy).2

/-- `fixed_string<N> + fixed_string<M>`. -/
theorem Good.concat_iff :
    (∀ s', s.step (.concat x y z) = some s' → s.Refines (.concat x y z) s')
      ↔ s.Exact (.concat x y z) := by
  have hspec : ∀ f g, s.object x = none → s.object y = some f → s.object z = some g →
      FixedString.YieldsIf (N := setup.capacity x)
        (FixedString.SumExact (setup.capacity x) f.size g.size) (setup.address x) s.chars
        ((f.view s.chars).chars ++ (g.view s.chars).chars)
        (FixedString.concat (setup.address x) s.chars f g) := by
    intro f g hx hy hz
    have hfirst := FixedString.yields_ofView (c := s.chars) (hsetup.place x) (f.view s.chars)
    refine FixedString.yieldsIf_bind_append (hsetup.place x) hfirst (fun hle => ?_)
      (f.length_view s.chars).symm (hs.view_after hsetup hfirst hx hz) (g.length_view s.chars).symm
    exact FixedString.isSome_ofView (hsetup.place x) _ (by rw [FixedString.size_view]; exact hle)
  constructor
  · intro h hcapacity hx f g hy hz
    refine (hs.construct_iff hsetup (hspec f g hx hy hz) hx).mp (fun s' hs' => ?_)
    have hrefines := h s' (by simp only [step, if_pos hcapacity, hy, hz, Option.bind_some, hs'])
    simpa only [Refines, listStep, lists, hy, hz, Option.map_some, Option.bind_some] using hrefines
  · intro h s' hs'
    rw [step, Option.ite_none_right_eq_some, Option.bind_eq_some_iff] at hs'
    obtain ⟨hcapacity, f, hy, hs'⟩ := hs'
    rw [Option.bind_eq_some_iff] at hs'
    obtain ⟨g, hz, hs'⟩ := hs'
    have hx := object_of_construct hs'
    have hstep := (hs.construct_iff hsetup (hspec f g hx hy hz) hx).mpr
      (h hcapacity hx f g hy hz) s' hs'
    simpa only [Refines, listStep, lists, hy, hz, Option.map_some, Option.bind_some] using hstep

/-- An object is made out of another of its type, on a condition. -/
theorem Good.madeFrom_iff {label : Label ι} {P : FixedString (setup.capacity y) → Prop}
    {r : FixedString (setup.capacity y) → Option (FixedString (setup.capacity x) × CharStore)}
    {l : FixedString (setup.capacity y) → List UInt8}
    (hstep : s.step label = if setup.capacity x = setup.capacity y then
      (s.object y).bind (fun f => s.construct x (r f)) else none)
    (hlist : ∀ s' f, s.object y = some f → (s.Refines label s'
      ↔ s'.Good ∧ s'.lists = Function.update s.lists x (some (l f))))
    (hspec : ∀ f, setup.capacity x = setup.capacity y → s.object x = none → s.object y = some f →
      FixedString.YieldsIf (P f) (setup.address x) s.chars (l f) (r f)) :
    (∀ s', s.step label = some s' → s.Refines label s')
      ↔ (setup.capacity x = setup.capacity y → s.object x = none →
        ∀ f, s.object y = some f → P f) := by
  rw [hstep]
  constructor
  · intro h hcapacity hx f hy
    refine (hs.construct_iff hsetup (hspec f hcapacity hx hy) hx).mp (fun s' hs' => ?_)
    refine (hlist s' f hy).mp (h s' ?_)
    rw [if_pos hcapacity, hy, Option.bind_some, hs']
  · intro h s' hs'
    rw [Option.ite_none_right_eq_some, Option.bind_eq_some_iff] at hs'
    obtain ⟨hcapacity, f, hy, hs'⟩ := hs'
    have hx := object_of_construct hs'
    refine (hlist s' f hy).mpr ?_
    exact (hs.construct_iff hsetup (hspec f hcapacity hx hy) hx).mpr (h hcapacity hx f hy) s' hs'

/-- `fixed_string<N> + string_view`. -/
theorem Good.concatView_iff {v : CharView} :
    (∀ s', s.step (.concatView x y v) = some s' → s.Refines (.concatView x y v) s')
      ↔ s.Exact (.concatView x y v) := by
  refine hs.madeFrom_iff hsetup rfl (l := fun f => (f.view s.chars).chars ++ v.chars)
    (fun s' f hy => ?_) (fun f hcapacity _ hy => ?_)
  · simp only [Refines, listStep, lists, hy, Option.map_some]
  · have hf := hs.object y f hy
    have hfirst := FixedString.yields_copy (hsetup.place x) hf
      (by rw [hcapacity]; exact hf.size_le)
    exact FixedString.yieldsIf_bind_append (v := fun _ => v) (hsetup.place x) hfirst
      (fun _ => FixedString.isSome_copy (hsetup.place x) _ f) (f.length_view s.chars).symm
      (fun _ _ _ => rfl) v.toNat_size

/-- `string_view + fixed_string<N>`. -/
theorem Good.viewConcat_iff {v : CharView} :
    (∀ s', s.step (.viewConcat x v y) = some s' → s.Refines (.viewConcat x v y) s')
      ↔ s.Exact (.viewConcat x v y) := by
  refine hs.madeFrom_iff hsetup rfl (l := fun g => v.chars ++ (g.view s.chars).chars)
    (fun s' g hy => ?_) (fun g _ hx hy => ?_)
  · simp only [Refines, listStep, lists, hy, Option.map_some]
  · have hfirst := FixedString.yields_ofView (c := s.chars) (hsetup.place x) v
    exact FixedString.yieldsIf_bind_append (hsetup.place x) hfirst
      (fun hle => FixedString.isSome_ofView (hsetup.place x) _ hle) v.toNat_size
      (hs.view_after hsetup hfirst hx hy) (g.length_view s.chars).symm

/-- Copies, conversions and assignments. -/
theorem Good.step_from {label : Label ι}
    (hlabel : label = .copy x y ∨ label = .convert x y ∨ label = .assign x y)
    (h : s.step label = some s') : s.Refines label s' := by
  obtain rfl | rfl | rfl := hlabel
  · rw [step, Option.ite_none_right_eq_some, Option.bind_eq_some_iff] at h
    obtain ⟨hcapacity, g, hy, h⟩ := h
    have hg := hs.object y g hy
    have hstep := hs.construct hsetup (FixedString.yields_copy (hsetup.place x) hg
      (by rw [hcapacity]; exact hg.size_le)) h
    simpa only [Refines, listStep, lists, hy, Option.map_some] using hstep
  · rw [step, Option.bind_eq_some_iff] at h
    obtain ⟨g, hy, h⟩ := h
    have hg := hs.object y g hy
    have hstep := hs.construct hsetup (FixedString.yields_convert (hsetup.place x) hg) h
    simpa only [Refines, listStep, lists, hy, Option.map_some] using hstep
  · rw [step, Option.ite_none_right_eq_some, Option.bind_eq_some_iff] at h
    obtain ⟨hcapacity, g, hy, h⟩ := h
    have hg := hs.object y g hy
    have hstep := hs.modify_const hsetup (l := (g.view s.chars).chars) (fun f hx => ?_) h
    · simpa only [Refines, listStep, lists, hy, Option.map_some] using hstep
    · by_cases hxy : x = y
      · subst hxy
        obtain rfl : g = f := Option.some.inj (hy.symm.trans hx)
        rw [if_pos rfl]
        exact FixedString.yields_some.mpr ⟨hg, rfl, fun _ _ => rfl, rfl⟩
      · rw [if_neg hxy]
        exact FixedString.yields_assign (hsetup.place x) (hs.object x f hx) hg
          (by rw [hcapacity]; exact hg.size_le)

/-- **One step.** It refines the step on lists exactly if it meets the condition. -/
theorem Good.step_iff (label : Label ι) :
    (∀ s', s.step label = some s' → s.Refines label s') ↔ s.Exact label := by
  have hplace := hsetup.place
  cases label with
  | new x =>
    exact iff_of_true (fun s' h => hs.construct hsetup (FixedString.yields_new (hplace x)) h) trivial
  | ofCString x str =>
    exact iff_of_true (fun s' h =>
      hs.construct hsetup (FixedString.yields_ofCString (hplace x) str) h) trivial
  | ofView x v =>
    exact iff_of_true (fun s' h =>
      hs.construct hsetup (FixedString.yields_ofView (hplace x) v) h) trivial
  | ofCount x count ch =>
    exact iff_of_true (fun s' h =>
      hs.construct hsetup (FixedString.yields_ofCount (hplace x) count ch) h) trivial
  | copy x y => exact iff_of_true (fun s' h => hs.step_from hsetup (Or.inl rfl) h) trivial
  | convert x y =>
    exact iff_of_true (fun s' h => hs.step_from hsetup (Or.inr (Or.inl rfl)) h) trivial
  | assign x y =>
    exact iff_of_true (fun s' h => hs.step_from hsetup (Or.inr (Or.inr rfl)) h) trivial
  | assignCString x str =>
    refine iff_of_true (fun s' h => ?_) trivial
    rw [step] at h
    exact hs.modify_const hsetup (fun f hx =>
      FixedString.yields_assignCString (hplace x) (hs.object x f hx) str) h
  | assignView x v =>
    refine iff_of_true (fun s' h => ?_) trivial
    rw [step] at h
    exact hs.modify_const hsetup (fun f hx =>
      FixedString.yields_assignView (hplace x) (hs.object x f hx) v) h
  | clear x =>
    refine iff_of_true (fun s' h => ?_) trivial
    rw [step] at h
    exact hs.modify_const hsetup (fun f hx =>
      FixedString.yields_clear (hplace x) (hs.object x f hx)) h
  | pushBack x ch =>
    refine iff_of_true (fun s' h => ?_) trivial
    rw [step] at h
    exact hs.modify_map hsetup (fun f hx =>
      FixedString.yields_pushBack (hplace x) (hs.object x f hx) ch) h
  | popBack x =>
    refine iff_of_true (fun s' h => ?_) trivial
    rw [step] at h
    exact hs.modify_map hsetup (fun f hx =>
      FixedString.yields_popBack (hplace x) (hs.object x f hx)) h
  | append x v =>
    simp only [step, Refines, listStep, Exact]
    exact hs.modify_iff hsetup (fun f hx =>
      FixedString.yieldsIf_appendChars (hplace x) (hs.object x f hx) v.toNat_size)
  | appendCount x count ch =>
    simp only [step, Refines, listStep, Exact]
    exact hs.modify_iff hsetup (fun f hx =>
      FixedString.yieldsIf_appendChars (hplace x) (hs.object x f hx) List.length_replicate.symm)
  | resize x count ch =>
    refine iff_of_true (fun s' h => ?_) trivial
    rw [step] at h
    refine hs.modify_map hsetup (fun f hx => ?_) h
    rw [FixedString.length_view]
    exact FixedString.yields_resize (hplace x) (hs.object x f hx) count ch
  | concat x y z => exact hs.concat_iff hsetup
  | concatView x y v => exact hs.concatView_iff hsetup
  | viewConcat x v y => exact hs.viewConcat_iff hsetup
  | destroy x => exact iff_of_true (fun s' h => hs.destroy h) trivial

/-- **`fixed_string<N> + fixed_string<M>` fails no assertion.** -/
theorem Good.isSome_concat {f : FixedString (setup.capacity y)} {g : FixedString (setup.capacity z)}
    (hx : s.object x = none) (hy : s.object y = some f) (hz : s.object z = some g)
    (hcapacity : setup.capacity x = setup.capacity y + setup.capacity z)
    (hlt : (setup.capacity y).toNat + (setup.capacity z).toNat < 2 ^ 64) :
    (s.step (.concat x y z)).isSome = true := by
  have hf := (hs.object y f hy).size_le
  have hg := (hs.object z g hz).size_le
  have hsum : (setup.capacity x).toNat = (setup.capacity y).toNat + (setup.capacity z).toNat := by
    rw [hcapacity, UInt64.toNat_add, Nat.mod_eq_of_lt hlt]
  have hfirst := FixedString.yields_ofView (c := s.chars) (hsetup.place x) (f.view s.chars)
  have hle : (f.view s.chars).size ≤ setup.capacity x := by
    rw [FixedString.size_view, UInt64.le_iff_toNat_le]
    omega
  obtain ⟨⟨s₁, c₁⟩, hcase⟩ := Option.isSome_iff_exists.mp
    (FixedString.isSome_ofView (hsetup.place x) s.chars hle)
  have hsize : s₁.size.toNat = f.size.toNat := by
    rw [← FixedString.length_view s₁ c₁, (hfirst s₁ c₁ hcase).view, FixedString.length_view]
  have hcount : (g.view c₁).size.toNat = g.size.toNat := by
    rw [CharView.toNat_size, FixedString.length_view]
  have hfits : s₁.size + (g.view c₁).size ≤ setup.capacity x := by
    rw [UInt64.le_iff_toNat_le, UInt64.toNat_add, hsize, hcount, Nat.mod_eq_of_lt (by omega)]
    omega
  simp [step, if_pos hcapacity, hy, hz, FixedStrings.construct, hx, FixedString.concat, hcase,
    FixedString.append, FixedString.appendChars, if_pos hfits]

end Steps

/-! ## Runs -/

omit [DecidableEq ι] in
theorem good_new (m : Memory) : Good (new m : FixedStrings setup) := ⟨rfl, fun _ _ hx => nomatch hx⟩

/-- **When the strings are bounded lists.** In every run, every operation leaves the strings
well-formed, stores nothing beside their buffers and does to their characters what the list
operation does exactly if every operation meets the condition on its sums. In a run whose
operations do, the concatenation of two strings fails no assertion, if the sum of their
capacities is a size. -/
theorem refines_iff_exact (setup : StringSetup ι) (hsetup : StringSetup.Proper setup) (m : Memory)
    (labels : List (Label ι)) :
    ((machine setup m).Along (fun s label => ∀ s', s.step label = some s' → s.Refines label s')
        (new m) labels
      ↔ (machine setup m).Along Exact (new m) labels)
    ∧ ∀ s, (machine setup m).Along Exact (new m) labels →
      (machine setup m).run (new m) labels = some s →
      ∀ x y z f g, s.object x = none → s.object y = some f → s.object z = some g →
        setup.capacity x = setup.capacity y + setup.capacity z →
        (setup.capacity y).toNat + (setup.capacity z).toNat < 2 ^ 64 →
          (s.step (.concat x y z)).isSome = true := by
  refine ⟨Machine.along_iff (fun _ _ _ h => h.1) (fun s label hs => hs.step_iff hsetup label)
    (good_new m), fun s hexact hrun x y z f g hx hy hz hcapacity hlt => ?_⟩
  have hs : s.Good := by
    have hreachable := Machine.ReachableBy.init.run_along hexact hrun
    refine hreachable.invariant (good_new m) (fun s label s' _ hs hC hstep => ?_)
    exact ((hs.step_iff hsetup label).mpr hC s' hstep).1
  exact hs.isSome_concat hsetup hx hy hz hcapacity hlt

/-- Two strings of fifteen characters, and one of thirty. -/
def threeStrings : StringSetup (Fin 3) :=
  ⟨fun x => if x = 0 then 30 else 15, fun x => if x = 0 then 4096 else if x = 1 then 5120 else 6144⟩

theorem proper_threeStrings : StringSetup.Proper threeStrings where
  place x := ⟨by revert x; decide, by revert x; decide⟩
  apart := by decide

/-- The view of one character. -/
def oneChar : CharView := ⟨[97], by decide⟩

/-- Two strings are made, and characters are appended. -/
def twoStrings : List (Label (Fin 3)) := [.ofView 1 oneChar, .append 1 oneChar, .new 2]

/-- They can be concatenated. -/
theorem refines_iff_exact_twoStrings :
    ∃ s : FixedStrings threeStrings,
      (machine threeStrings (fun _ => 0)).run (new (fun _ => 0)) twoStrings = some s
        ∧ (machine threeStrings (fun _ => 0)).Along
          (fun s label => ∀ s', s.step label = some s' → s.Refines label s')
          (new (fun _ => 0)) twoStrings
        ∧ (s.step (.concat 0 1 2)).isSome = true := by
  have hexact : (machine threeStrings (fun _ => 0)).Along Exact (new (fun _ => 0)) twoStrings := by
    refine .cons trivial rfl (.cons (fun f hf => ?_) rfl (.cons trivial rfl trivial))
    cases hf
    exact fun _ _ => by decide
  obtain ⟨hiff, hconcat⟩ :=
    refines_iff_exact threeStrings proper_threeStrings (fun _ => 0) twoStrings
  exact ⟨_, rfl, hiff.mpr hexact,
    hconcat _ hexact rfl 0 1 2 _ _ rfl rfl rfl (by decide) (by decide)⟩

/-- One character, and then `2 ^ 64 - 1` more. -/
def hugeAppend : List (Label (Fin 3)) :=
  [.ofView 1 oneChar, .appendCount 1 0xffffffffffffffff 97]

/-- **The sum of the sizes wraps to zero and is accepted**: characters are stored beside the
buffer of the string. -/
theorem hugeAppend_overruns :
    ¬ (machine threeStrings (fun _ => 0)).Along
        (fun s label => ∀ s', s.step label = some s' → s.Refines label s')
        (new (fun _ => 0)) hugeAppend
      ∧ ∃ s, (machine threeStrings (fun _ => 0)).run (new (fun _ => 0)) hugeAppend = some s
        ∧ s.chars.overrun = true := by
  have hfirst : ∃ s₁ : FixedStrings threeStrings, (new (fun _ => 0)).step (.ofView 1 oneChar) = some s₁
      ∧ s₁.Good ∧ ∃ f, s₁.object 1 = some f ∧ f.size = 1 :=
    ⟨_, rfl, (((good_new _).step_iff proper_threeStrings (.ofView 1 oneChar)).mpr trivial _ rfl).1,
      _, rfl, rfl⟩
  obtain ⟨s₁, hstep, hgood, f, hf, hsize⟩ := hfirst
  have hwraps : ¬ FixedString.SumExact 15 f.size 0xffffffffffffffff := by
    rw [hsize]
    exact fun h => absurd (h (by decide) (by decide)) (by decide)
  refine ⟨fun h => ?_, ?_⟩
  · have hexact := (hgood.step_iff proper_threeStrings _).mp (h.2 s₁ hstep).1
    exact hwraps (hexact f hf)
  · obtain ⟨r, heq, hoverrun⟩ := (FixedString.yieldsIf_appendChars (proper_threeStrings.place 1)
      (hgood.object 1 f hf) (List.length_replicate (a := 97)).symm).2 hwraps
    have happend : f.appendCount s₁.chars 0xffffffffffffffff 97 = some r := heq
    have hsecond : s₁.step (.appendCount 1 0xffffffffffffffff 97) = some (s₁.set 1 r) := by
      rw [step, FixedStrings.modify, hf, Option.bind_some, happend, Option.map_some]
    refine ⟨s₁.set 1 r, ?_, hoverrun⟩
    exact (Machine.run_cons hstep _).trans (Machine.run_cons hsecond _)

end FixedStrings

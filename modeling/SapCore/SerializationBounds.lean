import SapCore.SerializationCodec

/-!
# When a `ByteReader` stays inside its buffer

Every read adds a length to the cursor and compares the sum with the size of
the buffer. The length may come from the bytes themselves (`read_string`) or
from the caller (`read_bytes`), and the addition is that of `size_t`: a length
close to `2 ^ 64` brings the sum back to a small number, the comparison
succeeds, and what is returned lies outside the buffer while the cursor moves
backwards.

`Safe` is what a read owes: a successful one returns the slice of the stated
length at the cursor, that slice is inside the buffer, and the cursor moves by
what was consumed. `Wraps` is the one thing that breaks it, and exactly:
`safe_iff_not_wraps` for one read, `reads_safe_iff` for every sequence of reads
of every buffer.

A read that fails owes something else: it should leave the reader where it was,
so that it can be tried again (`Retriable`). Every read of one step does.
`read_string` takes two, and where the second fails the cursor stays past the
length the first has read (`reads_retriable_iff`).
-/

namespace ByteReader

open ByteWriter

/-- **The sum a read compares passes `2 ^ 64`.** For a string there are two
sums, the second of them made only when the length is there to be read. -/
def Wraps (host : ByteOrder) (r : ByteReader) : Op → Prop
  | .string => 2 ^ 64 ≤ r.offset.toNat + 8
      ∨ (r.offset.toNat + 8 ≤ r.buffer.bytes.length
        ∧ 2 ^ 64 ≤ r.offset.toNat + 8 + (r.statedLength host).toNat)
  | op => 2 ^ 64 ≤ r.offset.toNat + op.need.toNat

/-- Where the data of a read starts: at the cursor, or past the length of a
string. -/
def Op.start (r : ByteReader) : Op → ℕ
  | .string => r.offset.toNat + 8
  | _ => r.offset.toNat

/-- The length of the data of a read, as the operation or the string's own
length states it. -/
def Op.length (host : ByteOrder) (r : ByteReader) : Op → ℕ
  | .string => (r.statedLength host).toNat
  | op => op.need.toNat

/-- **The value is the slice of the buffer at `start`, `len` bytes long**: as a
view of those very bytes, or as a copy that is written as they stand. -/
def Value.IsSlice (host : ByteOrder) (buf : ByteSpan) (start len : ℕ) : Value → Prop
  | .string view => view.start.toNat = start ∧ view.size.toNat = len
  | .bytes view => view.start.toNat = start ∧ view.size.toNat = len
  | v => (v.item buf).encode host = (buf.bytes.drop start).take len

/-- **What a read owes.** -/
def Safe (host : ByteOrder) (r : ByteReader) (op : Op) : Prop :=
  (∀ v r', r.read host op = (.ok v, r') →
    op.start r + op.length host r ≤ r.buffer.bytes.length
      ∧ v.IsSlice host r.buffer (op.start r) (op.length host r)
      ∧ r'.bytesRead.toNat = op.start r + op.length host r)
  ∧ r.bytesRead.toNat ≤ (r.read host op).2.bytesRead.toNat

/-! ## One read -/

theorem wraps_iff_of_ne {host : ByteOrder} {r : ByteReader} {op : Op} (hop : op ≠ .string) :
    r.Wraps host op ↔ 2 ^ 64 ≤ r.offset.toNat + op.need.toNat := by
  cases op with
  | string => exact absurd rfl hop
  | _ => exact Iff.rfl

theorem start_of_ne {r : ByteReader} {op : Op} (hop : op ≠ .string) :
    op.start r = r.offset.toNat := by
  cases op with
  | string => exact absurd rfl hop
  | _ => rfl

theorem length_of_ne {host : ByteOrder} {r : ByteReader} {op : Op} (hop : op ≠ .string) :
    op.length host r = op.need.toNat := by
  cases op with
  | string => exact absurd rfl hop
  | _ => rfl

/-- The value read from a block that is there is that slice. -/
theorem isSlice_result {host : ByteOrder} {r : ByteReader} {op : Op} (hop : op ≠ .string)
    (hfit : r.offset.toNat + op.need.toNat ≤ r.buffer.bytes.length) :
    (op.result host r).IsSlice host r.buffer r.offset.toNat op.need.toNat := by
  cases op with
  | string => exact absurd rfl hop
  | bytes len =>
    have hfit' : r.offset.toNat + len.toNat ≤ r.buffer.bytes.length := hfit
    show (r.buffer.subspan r.offset len).start.toNat = _
      ∧ (r.buffer.subspan r.offset len).size.toNat = _
    rw [subspan_size hfit']
    exact ⟨rfl, rfl⟩
  | _ => exact encode_result host hop hfit

/-- A step that succeeds returns its value. -/
theorem consume_ok_eq {α : Type} {r r₁ r' : ByteReader} {need : UInt64} {underflow : String}
    {value v : α} (h₁ : r.consume need underflow value = (.ok value, r₁))
    (h : r.consume need underflow value = (.ok v, r')) : v = value ∧ r' = r₁ := by
  rw [h₁, Prod.mk.injEq, Except.ok.injEq] at h
  exact ⟨h.1.symm, h.2.symm⟩

/-- **A read other than `read_string` is safe exactly when its sum does not
wrap.** -/
theorem safe_iff_of_ne {host : ByteOrder} {r : ByteReader} {op : Op} (hop : op ≠ .string) :
    r.Safe host op ↔ r.offset.toNat + op.need.toNat < 2 ^ 64 := by
  obtain ⟨underflow, hread⟩ := read_eq_consume host r hop
  have hsize := r.buffer.size_lt
  unfold Safe
  rw [hread, start_of_ne hop, length_of_ne hop]
  obtain ⟨hfit, r₁, hok, hbuf, hoff⟩ | ⟨hpast, hlt, herr⟩ | ⟨hwrap, r₁, hok, hbuf, hoff⟩ :=
    r.consume_cases op.need underflow (op.result host r)
  · refine iff_of_true ⟨?_, ?_⟩ (by omega)
    · intro v r' h
      obtain ⟨rfl, rfl⟩ := consume_ok_eq hok h
      exact ⟨hfit, isSlice_result hop hfit, hoff⟩
    · rw [hok]
      show r.offset.toNat ≤ r₁.offset.toNat
      omega
  · refine iff_of_true ⟨?_, ?_⟩ hlt
    · intro v r' h
      rw [herr] at h
      cases h
    · rw [herr]
  · -- the sum wrapped: what was returned ends past the buffer
    refine iff_of_false ?_ (by omega)
    rintro ⟨hsafe, -⟩
    obtain ⟨hin, -, -⟩ := hsafe _ _ hok
    omega

/-- **A `read_string` is safe exactly when neither of its sums wraps.** -/
theorem safe_string_iff (host : ByteOrder) (r : ByteReader) :
    r.Safe host .string ↔ ¬ r.Wraps host .string := by
  have hsize := r.buffer.size_lt
  have hlen := (r.statedLength host).toNat_lt
  simp only [Safe, Wraps, Op.start, Op.length, bytesRead]
  obtain ⟨e, hpast, hlt, herr⟩ | ⟨r₁, underflow, hbuf, hoff, hpre, hread⟩ :=
    r.read_string_cases host
  · -- the length is not there: nothing is returned and the cursor stays
    rw [herr]
    refine iff_of_true ⟨?_, le_refl _⟩ (by omega)
    intro v r' h
    cases h
  have hoff₁ : r₁.offset.toNat = (r.offset.toNat + 8) % 2 ^ 64 := by
    rw [hoff, UInt64.toNat_add]
    rfl
  rw [hread]
  obtain hthere | hwrap₁ := hpre
  · obtain ⟨hfit, r₂, hok, -, hoff₂⟩ | ⟨hpast, hlt, herr⟩ | ⟨hwrap, r₂, hok, -, hoff₂⟩ :=
      r₁.consume_cases (r.statedLength host) underflow (Op.string.result host r)
    · rw [hbuf] at hfit
      refine iff_of_true ⟨?_, ?_⟩ (by omega)
      · intro v r' h
        obtain ⟨rfl, rfl⟩ := consume_ok_eq hok h
        refine ⟨by omega, ⟨?_, rfl⟩, by omega⟩
        show (r.offset + 8).toNat = _
        rw [← hoff]
        omega
      · rw [hok]
        show r.offset.toNat ≤ r₂.offset.toNat
        omega
    · rw [hbuf] at hpast
      rw [herr]
      refine iff_of_true ⟨?_, ?_⟩ (by omega)
      · intro v r' h
        cases h
      · show r.offset.toNat ≤ r₁.offset.toNat
        omega
    · refine iff_of_false ?_ (by omega)
      rintro ⟨hsafe, -⟩
      obtain ⟨hin, -, -⟩ := hsafe _ _ hok
      omega
  · -- the length itself was read past the end of memory, and the cursor went back
    refine iff_of_false ?_ (by omega)
    rintro ⟨hsafe, hmono⟩
    obtain ⟨-, r₂, hok, -, -⟩ | ⟨-, -, herr⟩ | ⟨-, r₂, hok, -, -⟩ :=
      r₁.consume_cases (r.statedLength host) underflow (Op.string.result host r)
    · obtain ⟨hin, -, -⟩ := hsafe _ _ hok
      omega
    · rw [herr] at hmono
      have hback : r.offset.toNat ≤ r₁.offset.toNat := hmono
      have hlt := r.offset.toNat_lt
      omega
    · obtain ⟨hin, -, -⟩ := hsafe _ _ hok
      omega

/-- **A read is safe exactly when its sum does not wrap.** -/
theorem safe_iff_not_wraps (host : ByteOrder) (r : ByteReader) (op : Op) :
    r.Safe host op ↔ ¬ r.Wraps host op := by
  by_cases hop : op = .string
  · subst hop
    exact safe_string_iff host r
  · rw [safe_iff_of_ne hop, wraps_iff_of_ne hop, Nat.not_le]

/-! ## Every sequence of reads

The cursor is always a position of the buffer, so nothing has to be carried
from one read to the next: the reads of a sequence are all safe exactly when
none of their sums wraps. -/

/-- A property of every call of a sequence of reads: of each operation, in the
state the ones before it leave. -/
def EachRead (host : ByteOrder) (r : ByteReader) (ops : List Op)
    (P : ByteReader → Op → Prop) : Prop :=
  ∀ pre op, pre ++ [op] <+: ops → P (r.readAll host pre).2 op

/-- **Bounds safety of every sequence of reads.** -/
theorem reads_safe_iff (host : ByteOrder) (buf : ByteSpan) (ops : List Op) :
    (ofSpan buf).EachRead host ops (fun r op => r.Safe host op)
      ↔ (ofSpan buf).EachRead host ops (fun r op => ¬ r.Wraps host op) := by
  unfold EachRead
  exact forall_congr' (fun pre => forall_congr' (fun op =>
    imp_congr_right (fun _ => safe_iff_not_wraps host _ op)))

/-- A string that claims to be `2 ^ 64 - 8` bytes long. -/
def hostileLength : ByteSpan :=
  ⟨[0xFF, 0xFF, 0xFF, 0xFF, 0xFF, 0xFF, 0xFF, 0xF8], by decide⟩

/-- **A hostile length is accepted.** The sum `8 + (2 ^ 64 - 8)` is `0`, so
`read_string` returns a view of `2 ^ 64 - 8` bytes past the end of an
eight-byte buffer and the cursor goes back to where it started. -/
theorem readString_hostileLength :
    ((ofSpan hostileLength).read .little .string).1
        = .ok (.string ⟨8, 0xFFFFFFFFFFFFFFF8⟩)
      ∧ ((ofSpan hostileLength).read .little .string).2.bytesRead = 0
      ∧ ¬ ∀ (host : ByteOrder) (buf : ByteSpan) (ops : List Op),
        (ofSpan buf).EachRead host ops (fun r op => r.Safe host op) := by
  refine ⟨by decide, by decide, fun hall => ?_⟩
  have hsafe := hall .little hostileLength [.string] [] .string (List.prefix_refl _)
  refine (safe_string_iff .little (ofSpan hostileLength)).mp hsafe (Or.inr ⟨?_, ?_⟩) <;> decide

/-! ## Failed reads -/

/-- **What a failed read owes**: `bytes_read()` and `remaining()` are what they
were. -/
def Retriable (host : ByteOrder) (r : ByteReader) (op : Op) : Prop :=
  ∀ e r', r.read host op = (.error e, r') →
    r'.bytesRead = r.bytesRead ∧ r'.remaining = r.remaining

/-- **A string is cut short**: the comparison for its length succeeds, and the
one for as many bytes as the length says does not. -/
def CutShort (host : ByteOrder) (r : ByteReader) : Op → Prop
  | .string => r.offset + 8 ≤ r.buffer.size
      ∧ r.buffer.size < r.offset + 8 + r.statedLength host
  | _ => False

theorem not_cutShort_of_ne {host : ByteOrder} {r : ByteReader} {op : Op} (hop : op ≠ .string) :
    ¬ r.CutShort host op := by
  cases op with
  | string => exact absurd rfl hop
  | _ => exact id

/-- **A step fails exactly where its comparison does**, and then the reader is
the one it was. -/
theorem consume_error_iff {α : Type} {r r' : ByteReader} {need : UInt64} {underflow e : String}
    {value : α} :
    r.consume need underflow value = (.error e, r')
      ↔ r.buffer.size < r.offset + need ∧ e = underflow ∧ r' = r := by
  unfold consume
  split
  · rename_i hgt
    rw [Prod.mk.injEq, Except.error.injEq]
    exact ⟨fun h => ⟨hgt, h.1.symm, h.2.symm⟩, fun h => ⟨h.2.1.symm, h.2.2.symm⟩⟩
  · rename_i hle
    refine iff_of_false (fun h => ?_) (fun h => hle h.1)
    cases h

/-- A cursor that was moved past a length is not where it was. -/
theorem add_eight_ne (a : UInt64) : a + 8 ≠ a := by
  intro h
  have hnat := congrArg UInt64.toNat h
  have hlt := a.toNat_lt
  rw [UInt64.toNat_add] at hnat
  replace hnat : (a.toNat + 8) % 2 ^ 64 = a.toNat := hnat
  omega

/-- **A failed `read_string` leaves the reader where it was exactly when the
string was not cut short.** -/
theorem retriable_string_iff (host : ByteOrder) (r : ByteReader) :
    r.Retriable host .string ↔ ¬ r.CutShort host .string := by
  obtain ⟨e, hpast, hlt, herr⟩ | ⟨r₁, underflow, hbuf, hoff, -, hread⟩ :=
    r.read_string_cases host
  · -- the length is not there
    refine iff_of_true ?_ ?_
    · intro e' r' h
      rw [herr, Prod.mk.injEq] at h
      rw [← h.2]
      exact ⟨rfl, rfl⟩
    · rintro ⟨hthere, -⟩
      have hle := UInt64.le_iff_toNat_le.mp hthere
      rw [UInt64.toNat_add, ByteSpan.toNat_size] at hle
      replace hle : (r.offset.toNat + 8) % 2 ^ 64 ≤ r.buffer.bytes.length := hle
      omega
  · -- the length is there: what is left is the step for the body, past the length
    have hthere : r.offset + 8 ≤ r.buffer.size := hoff ▸ hbuf ▸ r₁.offset_le
    unfold Retriable
    rw [hread]
    constructor
    · rintro hkept ⟨-, hcut⟩
      rw [← hbuf, ← hoff] at hcut
      obtain ⟨hsame, -⟩ := hkept underflow r₁ (consume_error_iff.mpr ⟨hcut, rfl, rfl⟩)
      exact add_eight_ne r.offset (hoff.symm.trans hsame)
    · intro hnot e' r' h
      obtain ⟨hcut, -, -⟩ := consume_error_iff.mp h
      rw [hbuf, hoff] at hcut
      exact absurd ⟨hthere, hcut⟩ hnot

/-- **A failed read leaves the reader where it was exactly when it is not a
string that was cut short.** -/
theorem retriable_iff_not_cutShort (host : ByteOrder) (r : ByteReader) (op : Op) :
    r.Retriable host op ↔ ¬ r.CutShort host op := by
  by_cases hop : op = .string
  · subst hop
    exact retriable_string_iff host r
  · refine iff_of_true ?_ (not_cutShort_of_ne hop)
    intro e r' h
    obtain ⟨underflow, hread⟩ := read_eq_consume host r hop
    rw [hread] at h
    obtain ⟨-, -, rfl⟩ := consume_error_iff.mp h
    exact ⟨rfl, rfl⟩

/-- **Failed reads in every sequence of reads.** -/
theorem reads_retriable_iff (host : ByteOrder) (buf : ByteSpan) (ops : List Op) :
    (ofSpan buf).EachRead host ops (fun r op => r.Retriable host op)
      ↔ (ofSpan buf).EachRead host ops (fun r op => ¬ r.CutShort host op) := by
  unfold EachRead
  exact forall_congr' (fun pre => forall_congr' (fun op =>
    imp_congr_right (fun _ => retriable_iff_not_cutShort host _ op)))

/-- The length of a string of five bytes, and two bytes of it. -/
def cutString : ByteSpan := ⟨[0, 0, 0, 0, 0, 0, 0, 5, 0x68, 0x65], by decide⟩

/-- **A string that is cut short moves the cursor.** The body is refused, and
the reader stays at its first byte: the same `read_string` would now take the
body for a length. -/
theorem readString_cutString :
    ((ofSpan cutString).read .little .string).1
        = .error "buffer underflow: need 5 bytes for string, have 2"
      ∧ ((ofSpan cutString).read .little .string).2.bytesRead = 8
      ∧ ¬ ∀ (host : ByteOrder) (buf : ByteSpan) (ops : List Op),
        (ofSpan buf).EachRead host ops (fun r op => r.Retriable host op) := by
  refine ⟨by decide, by decide, fun hall => ?_⟩
  have hkept := hall .little cutString [.string] [] .string (List.prefix_refl _)
  exact (retriable_string_iff .little (ofSpan cutString)).mp hkept ⟨by decide, by decide⟩

end ByteReader

import SapCore.Serialization

/-!
# What one write appends and one read takes

Two readings of the serialization layer that everything above it uses. A
write appends a block that depends on the item and the host alone
(`ByteWriter.write_buffer`, with `Item.encode` the block), so a message is the
concatenation of its items' blocks. A read other than `read_string` is one
`consume` of a number of bytes the operation fixes, returning a value computed
from the block at the cursor (`ByteReader.read_eq_consume`); `read_string` is
two of them, the second as long as the first says
(`ByteReader.read_string_cases`).

The block of a word and the word of a block are inverse (`read_write_u32`,
`write_read_u32` and their siblings), on either host and for every bit
pattern.
-/

namespace ByteWriter

/-! ## The block of an item -/

/-- **The bytes a write appends.** -/
def Item.encode (host : ByteOrder) (item : Item) : List UInt8 :=
  ((ByteWriter.mk []).write host item).2.buffer

@[simp] theorem encode_u8 (host : ByteOrder) (val : UInt8) :
    (Item.u8 val).encode host = [val] := rfl

@[simp] theorem encode_u16 (host : ByteOrder) (val : UInt16) :
    (Item.u16 val).encode host = host.image 2 (htons host val).toNat := rfl

@[simp] theorem encode_u32 (host : ByteOrder) (val : UInt32) :
    (Item.u32 val).encode host = host.image 4 (htonl host val).toNat := rfl

@[simp] theorem encode_u64 (host : ByteOrder) (val : UInt64) :
    (Item.u64 val).encode host = host.image 8 (htonll host val).toNat := rfl

@[simp] theorem encode_f32 (host : ByteOrder) (bits : UInt32) :
    (Item.f32 bits).encode host = host.image 4 (htonl host bits).toNat := rfl

@[simp] theorem encode_f64 (host : ByteOrder) (bits : UInt64) :
    (Item.f64 bits).encode host = host.image 8 (htonll host bits).toNat := rfl

@[simp] theorem encode_string (host : ByteOrder) (str : ByteSpan) :
    (Item.string str).encode host
      = host.image 8 (htonll host str.size).toNat ++ str.bytes := rfl

@[simp] theorem encode_bytes (host : ByteOrder) (data : ByteSpan) :
    (Item.bytes data).encode host = data.bytes := rfl

/-- **A write appends the item's block**, whatever was in the buffer. -/
theorem write_buffer (host : ByteOrder) (w : ByteWriter) (item : Item) :
    (w.write host item).2.buffer = w.buffer ++ item.encode host := by
  cases item with
  | string str => exact List.append_assoc _ _ _
  | _ => rfl

/-- No write fails, so a message may drop what its writes return. -/
theorem write_success (host : ByteOrder) (w : ByteWriter) (item : Item) :
    (w.write host item).1 = success := by
  cases item <;> rfl

/-- **A message is the concatenation of its blocks.** -/
theorem writeAll_buffer (host : ByteOrder) (w : ByteWriter) (items : List Item) :
    (w.writeAll host items).buffer = w.buffer ++ items.flatMap (Item.encode host) := by
  induction items generalizing w with
  | nil => rw [List.flatMap_nil, List.append_nil]; rfl
  | cons item items ih =>
    show ((w.write host item).2.writeAll host items).buffer = _
    rw [ih, write_buffer, List.flatMap_cons, List.append_assoc]

end ByteWriter

/-! ## A word and its block

What `write_*` appends for a word, `read_*` turns back into the word, and the
other way round for every block of the width. -/

theorem read_write_u16 (host : ByteOrder) (val : UInt16) :
    ntohs host (UInt16.ofNat (host.value (host.image 2 (htons host val).toNat))) = val := by
  rw [host.value_image (k := 2) (htons host val).toNat_lt, UInt16.ofNat_toNat, ntohs_eq_htons,
    htons_htons]

theorem read_write_u32 (host : ByteOrder) (val : UInt32) :
    ntohl host (UInt32.ofNat (host.value (host.image 4 (htonl host val).toNat))) = val := by
  rw [host.value_image (k := 4) (htonl host val).toNat_lt, UInt32.ofNat_toNat, ntohl_eq_htonl,
    htonl_htonl]

theorem read_write_u64 (host : ByteOrder) (val : UInt64) :
    ntohll host (UInt64.ofNat (host.value (host.image 8 (htonll host val).toNat))) = val := by
  rw [host.value_image (k := 8) (htonll host val).toNat_lt, UInt64.ofNat_toNat,
    ntohll_eq_htonll, htonll_htonll]

theorem write_read_u16 (host : ByteOrder) {bs : List UInt8} (hlen : bs.length = 2) :
    host.image 2 (htons host (ntohs host (UInt16.ofNat (host.value bs)))).toNat = bs := by
  have hlt := host.value_lt bs
  rw [hlen] at hlt
  have hval : (UInt16.ofNat (host.value bs)).toNat = host.value bs :=
    UInt16.toNat_ofNat_of_lt hlt
  rw [ntohs_eq_htons, htons_htons, hval, host.image_value hlen]

theorem write_read_u32 (host : ByteOrder) {bs : List UInt8} (hlen : bs.length = 4) :
    host.image 4 (htonl host (ntohl host (UInt32.ofNat (host.value bs)))).toNat = bs := by
  have hlt := host.value_lt bs
  rw [hlen] at hlt
  have hval : (UInt32.ofNat (host.value bs)).toNat = host.value bs :=
    UInt32.toNat_ofNat_of_lt hlt
  rw [ntohl_eq_htonl, htonl_htonl, hval, host.image_value hlen]

theorem write_read_u64 (host : ByteOrder) {bs : List UInt8} (hlen : bs.length = 8) :
    host.image 8 (htonll host (ntohll host (UInt64.ofNat (host.value bs)))).toNat = bs := by
  have hlt := host.value_lt bs
  rw [hlen] at hlt
  have hval : (UInt64.ofNat (host.value bs)).toNat = host.value bs :=
    UInt64.toNat_ofNat_of_lt hlt
  rw [ntohll_eq_htonll, htonll_htonll, hval, host.image_value hlen]

namespace ByteReader

open ByteWriter

/-! ## A read as a step of the cursor -/

/-- The number of bytes an operation compares for first: all of them, or the
length that precedes a string. -/
def Op.need : Op → UInt64
  | .u8 => 1
  | .u16 => 2
  | .u32 => 4
  | .u64 => 8
  | .f32 => 4
  | .f64 => 8
  | .string => 8
  | .bytes len => len

/-- **The length a string says it has**: the number the eight bytes at the
cursor denote. -/
def statedLength (host : ByteOrder) (r : ByteReader) : UInt64 :=
  ntohll host (UInt64.ofNat (host.value (r.block 8)))

/-- What an operation returns where its comparison succeeds. -/
def Op.result (host : ByteOrder) (r : ByteReader) : Op → Value
  | .u8 => .u8 (r.buffer.bytes.getD r.offset.toNat 0)
  | .u16 => .u16 (ntohs host (UInt16.ofNat (host.value (r.block 2))))
  | .u32 => .u32 (ntohl host (UInt32.ofNat (host.value (r.block 4))))
  | .u64 => .u64 (r.statedLength host)
  | .f32 => .f32 (ntohl host (UInt32.ofNat (host.value (r.block 4))))
  | .f64 => .f64 (r.statedLength host)
  | .string => .string ⟨r.offset + 8, r.statedLength host⟩
  | .bytes len => .bytes (r.buffer.subspan r.offset len)

/-- Naming the value a step returns commutes with the step. -/
theorem map_consume {α β : Type} (f : α → β) (r : ByteReader) (need : UInt64)
    (underflow : String) (value : α) :
    (r.consume need underflow value).map (Except.map f) id
      = r.consume need underflow (f value) := by
  unfold consume
  split <;> rfl

theorem readF32_eq (host : ByteOrder) (r : ByteReader) : r.readF32 host = r.readU32 host := by
  unfold readF32
  split <;> rename_i heq <;> exact heq.symm

theorem readF64_eq (host : ByteOrder) (r : ByteReader) : r.readF64 host = r.readU64 host := by
  unfold readF64
  split <;> rename_i heq <;> exact heq.symm

/-- **A read other than `read_string` is one step of the cursor.** -/
theorem read_eq_consume (host : ByteOrder) (r : ByteReader) {op : Op} (hop : op ≠ .string) :
    ∃ underflow, r.read host op = r.consume op.need underflow (op.result host r) := by
  cases op with
  | string => exact absurd rfl hop
  | f32 =>
    have hread : r.read host .f32 = (r.readU32 host).map (Except.map .f32) id :=
      congrArg (Prod.map (Except.map Value.f32) id) (readF32_eq host r)
    exact ⟨_, hread.trans (map_consume _ _ _ _ _)⟩
  | f64 =>
    have hread : r.read host .f64 = (r.readU64 host).map (Except.map .f64) id :=
      congrArg (Prod.map (Except.map Value.f64) id) (readF64_eq host r)
    exact ⟨_, hread.trans (map_consume _ _ _ _ _)⟩
  | _ => exact ⟨_, map_consume _ _ _ _ _⟩

/-- Past its length, a string is one more step from the new cursor. -/
theorem read_string_of_ok {host : ByteOrder} {r r₁ : ByteReader}
    (hok : r.readU64 host = (.ok (r.statedLength host), r₁)) (hoff : r₁.offset = r.offset + 8) :
    ∃ underflow, r.read host .string
      = r₁.consume (r.statedLength host) underflow (Op.string.result host r) := by
  have hstr : ∃ underflow, r.readString host
      = r₁.consume (r.statedLength host) underflow ⟨r₁.offset, r.statedLength host⟩ := by
    unfold readString
    rw [hok]
    exact ⟨_, rfl⟩
  obtain ⟨underflow, h⟩ := hstr
  refine ⟨underflow, ?_⟩
  show (r.readString host).map (Except.map Value.string) id = _
  rw [h, map_consume, hoff]
  rfl

/-- **`read_string` is two steps**: the length, and then as many bytes as it
says. The first can fail with the cursor where it was; past it the cursor has
moved, whatever the second does. -/
theorem read_string_cases (host : ByteOrder) (r : ByteReader) :
    (∃ e, r.buffer.bytes.length < r.offset.toNat + 8 ∧ r.offset.toNat + 8 < 2 ^ 64
      ∧ r.read host .string = (.error e, r))
    ∨ ∃ (r₁ : ByteReader) (underflow : String), r₁.buffer = r.buffer
      ∧ r₁.offset = r.offset + 8
      ∧ (r.offset.toNat + 8 ≤ r.buffer.bytes.length ∨ 2 ^ 64 ≤ r.offset.toNat + 8)
      ∧ r.read host .string
        = r₁.consume (r.statedLength host) underflow (Op.string.result host r) := by
  have hlt := fun r₁ : ByteReader => r₁.offset.toNat_lt
  have hsize := r.buffer.size_lt
  have hadd : ∀ r₁ : ByteReader, r₁.offset.toNat = (r.offset.toNat + 8) % 2 ^ 64 →
      r₁.offset = r.offset + 8 := by
    intro r₁ h
    refine UInt64.toNat_inj.mp ?_
    rw [h, UInt64.toNat_add]
    rfl
  obtain ⟨hfit, r₁, hok, hbuf, hoff⟩ | ⟨hpast, hfit, herr⟩ | ⟨hwrap, r₁, hok, hbuf, hoff⟩ :=
    r.consume_cases 8 ("buffer underflow: need 8 bytes, have " ++ toString r.remaining)
      (r.statedLength host)
  · have hoff' : r₁.offset.toNat = r.offset.toNat + 8 := hoff
    have hfit' : r.offset.toNat + 8 ≤ r.buffer.bytes.length := hfit
    have hat := hadd r₁ (by omega)
    obtain ⟨underflow, h⟩ := read_string_of_ok hok hat
    exact Or.inr ⟨r₁, underflow, hbuf, hat, Or.inl hfit, h⟩
  · -- the length does not fit: its error is passed on, the cursor has not moved
    have herr' : r.readU64 host
        = (.error ("buffer underflow: need 8 bytes, have " ++ toString r.remaining), r) := herr
    have hstr : ∃ e, r.readString host = (.error e, r) := by
      unfold readString
      rw [herr']
      exact ⟨_, rfl⟩
    obtain ⟨e, h⟩ := hstr
    refine Or.inl ⟨e, hpast, hfit, ?_⟩
    show (r.readString host).map (Except.map Value.string) id = _
    rw [h]
    rfl
  · -- the length was read past the end of the address space
    have hoff' : r₁.offset.toNat + 2 ^ 64 = r.offset.toNat + 8 := hoff
    have hlt₁ := hlt r₁
    have hat := hadd r₁ (by omega)
    obtain ⟨underflow, h⟩ := read_string_of_ok hok hat
    exact Or.inr ⟨r₁, underflow, hbuf, hat, Or.inr hwrap, h⟩

/-! ## The block under the cursor -/

theorem length_block {r : ByteReader} {k : ℕ}
    (hfit : r.offset.toNat + k ≤ r.buffer.bytes.length) : (r.block k).length = k := by
  unfold block
  rw [List.length_take, List.length_drop]
  omega

/-- A stated length, written, is the block it was read from. -/
theorem image_statedLength {host : ByteOrder} {r : ByteReader}
    (hfit : r.offset.toNat + 8 ≤ r.buffer.bytes.length) :
    host.image 8 (htonll host (r.statedLength host)).toNat = r.block 8 :=
  write_read_u64 host (length_block hfit)

/-- The view of a block of `len` bytes that fit has that length: the count
`dynamic_extent` fits only a buffer of that size, which it then covers. -/
theorem subspan_size {buf : ByteSpan} {offset len : UInt64}
    (hfit : offset.toNat + len.toNat ≤ buf.bytes.length) :
    buf.subspan offset len = ⟨offset, len⟩ := by
  unfold ByteSpan.subspan
  split
  · rename_i hext
    have hlen : len.toNat = 2 ^ 64 - 1 := by rw [hext]; rfl
    have hsize := buf.size_lt
    have hoff : offset = 0 := UInt64.toNat_inj.mp (by show offset.toNat = 0; omega)
    have hall : buf.size = len := UInt64.toNat_inj.mp (by rw [ByteSpan.toNat_size]; omega)
    rw [hoff, hall, UInt64.sub_zero]
  · rfl

/-- **A value read from a block that is there, written, is the block.** -/
theorem encode_result (host : ByteOrder) {r : ByteReader} {op : Op} (hop : op ≠ .string)
    (hfit : r.offset.toNat + op.need.toNat ≤ r.buffer.bytes.length) :
    ((op.result host r).item r.buffer).encode host = r.block op.need.toNat := by
  cases op with
  | string => exact absurd rfl hop
  | u8 =>
    have hlt : r.offset.toNat < r.buffer.bytes.length := hfit
    show [r.buffer.bytes.getD r.offset.toNat 0] = (r.buffer.bytes.drop r.offset.toNat).take 1
    rw [List.getD_eq_getElem?_getD, List.getElem?_eq_getElem hlt, List.drop_eq_getElem_cons hlt]
    rfl
  | u16 => exact write_read_u16 host (length_block hfit)
  | u32 => exact write_read_u32 host (length_block hfit)
  | u64 => exact write_read_u64 host (length_block hfit)
  | f32 => exact write_read_u32 host (length_block hfit)
  | f64 => exact write_read_u64 host (length_block hfit)
  | bytes len =>
    have hfit' : r.offset.toNat + len.toNat ≤ r.buffer.bytes.length := hfit
    show ((r.buffer.subspan r.offset len).deref r.buffer).bytes = r.block len.toNat
    rw [subspan_size hfit']
    rfl

end ByteReader

import SapCore.ByteOrder

/-!
# `ByteWriter` and `ByteReader`

The serialization layer (`src/serialization.cpp`): a writer that appends
typed items to a byte vector in network order, and a reader that walks a
borrowed buffer with a cursor.

The model keeps three things the source depends on.

* **The host.** A word reaches the buffer through `htons`, `htonl` or
  `htonll` and then a copy of its memory image, so what is appended depends on
  the byte order of the machine; every operation takes it as `host`.
* **`size_t`.** The cursor, the buffer's size and the lengths are `UInt64`, and
  the test `m_offset + len > m_buffer.size()` is the wrapping one.
* **Views.** `read_string` and `read_bytes` hand out a pointer and a length,
  not bytes. A `View` is that pair, and nothing obliges it to lie inside the
  buffer.

A load through a pointer outside the buffer is undefined in the source; the
model then reads whatever part of the block exists, and the results say when
no such load happens.
-/

/-! ## Byte order conversions -/

/-- `htons`: the conversion of a `u16` to network order. -/
def htons (host : ByteOrder) (x : UInt16) : UInt16 :=
  UInt16.ofNat (host.toNetwork 2 x.toNat)

/-- `ntohs`: the conversion back. -/
def ntohs (host : ByteOrder) (x : UInt16) : UInt16 :=
  UInt16.ofNat (host.toNetwork 2 x.toNat)

/-- `htonl`: the conversion of a `u32` to network order. -/
def htonl (host : ByteOrder) (x : UInt32) : UInt32 :=
  UInt32.ofNat (host.toNetwork 4 x.toNat)

/-- `ntohl`: the conversion back. -/
def ntohl (host : ByteOrder) (x : UInt32) : UInt32 :=
  UInt32.ofNat (host.toNetwork 4 x.toNat)

/-- `htonll`: both halves converted, then exchanged – on every host. -/
def htonll (host : ByteOrder) (value : UInt64) : UInt64 :=
  let high := htonl host (value >>> 32).toUInt32
  let low := htonl host (value &&& 0xFFFFFFFF).toUInt32
  (low.toUInt64 <<< 32) ||| high.toUInt64

/-- `ntohll`: the same computation the other way. -/
def ntohll (host : ByteOrder) (value : UInt64) : UInt64 :=
  let high := ntohl host (value >>> 32).toUInt32
  let low := ntohl host (value &&& 0xFFFFFFFF).toUInt32
  (low.toUInt64 <<< 32) ||| high.toUInt64

/-! ### The conversions as arithmetic

Each conversion serves both ways, and undoes itself. -/

theorem ntohs_eq_htons (host : ByteOrder) : ntohs host = htons host := rfl

theorem ntohl_eq_htonl (host : ByteOrder) : ntohl host = htonl host := rfl

theorem ntohll_eq_htonll (host : ByteOrder) : ntohll host = htonll host := rfl

theorem toNat_htons (host : ByteOrder) (x : UInt16) :
    (htons host x).toNat = host.toNetwork 2 x.toNat :=
  UInt16.toNat_ofNat_of_lt (host.toNetwork_lt (k := 2) x.toNat_lt)

theorem toNat_htonl (host : ByteOrder) (x : UInt32) :
    (htonl host x).toNat = host.toNetwork 4 x.toNat :=
  UInt32.toNat_ofNat_of_lt (host.toNetwork_lt (k := 4) x.toNat_lt)

/-- The upper half of a `u64`. -/
theorem toNat_high (value : UInt64) :
    (value >>> 32).toUInt32.toNat = value.toNat / 2 ^ 32 := by
  have hlt := value.toNat_lt
  have hsh : (value >>> 32).toNat = value.toNat / 2 ^ 32 := by
    rw [UInt64.toNat_shiftRight, Nat.shiftRight_eq_div_pow]
    rfl
  rw [UInt64.toNat_toUInt32, hsh]
  omega

/-- The lower half of a `u64`. -/
theorem toNat_low (value : UInt64) :
    (value &&& 0xFFFFFFFF).toUInt32.toNat = value.toNat % 2 ^ 32 := by
  have hand : (value &&& 0xFFFFFFFF).toNat = value.toNat % 2 ^ 32 := by
    rw [UInt64.toNat_and]
    exact Nat.and_two_pow_sub_one_eq_mod value.toNat 32
  rw [UInt64.toNat_toUInt32, hand]
  omega

/-- A `u64` put together from two halves. -/
theorem toNat_exchange (low high : UInt32) :
    ((low.toUInt64 <<< 32) ||| high.toUInt64).toNat = low.toNat * 2 ^ 32 + high.toNat := by
  have hlow := low.toNat_lt
  have hhigh := high.toNat_lt
  have hsh : (low.toUInt64 <<< 32).toNat = low.toNat <<< 32 := by
    rw [UInt64.toNat_shiftLeft, UInt32.toNat_toUInt64]
    show low.toNat <<< 32 % 2 ^ 64 = _
    rw [Nat.shiftLeft_eq]
    omega
  rw [UInt64.toNat_or, hsh, UInt32.toNat_toUInt64, ← Nat.shiftLeft_add_eq_or_of_lt hhigh,
    Nat.shiftLeft_eq]

/-- **`htonll` in arithmetic**: the converted lower half above the converted
upper half. -/
theorem toNat_htonll (host : ByteOrder) (value : UInt64) :
    (htonll host value).toNat
      = host.toNetwork 4 (value.toNat % 2 ^ 32) * 2 ^ 32
        + host.toNetwork 4 (value.toNat / 2 ^ 32) := by
  unfold htonll
  rw [toNat_exchange, toNat_htonl, toNat_htonl, toNat_low, toNat_high]

theorem htons_htons (host : ByteOrder) (x : UInt16) : htons host (htons host x) = x := by
  refine UInt16.toNat_inj.mp ?_
  rw [toNat_htons, toNat_htons]
  exact host.toNetwork_toNetwork (k := 2) x.toNat_lt

theorem htonl_htonl (host : ByteOrder) (x : UInt32) : htonl host (htonl host x) = x := by
  refine UInt32.toNat_inj.mp ?_
  rw [toNat_htonl, toNat_htonl]
  exact host.toNetwork_toNetwork (k := 4) x.toNat_lt

/-- The exchange of halves is undone with the halves. -/
theorem htonll_htonll (host : ByteOrder) (x : UInt64) : htonll host (htonll host x) = x := by
  have hx := x.toNat_lt
  have hlow : x.toNat % 2 ^ 32 < 256 ^ 4 := Nat.mod_lt _ (by decide)
  have hhigh : x.toNat / 2 ^ 32 < 256 ^ 4 := by omega
  have hlow' := host.toNetwork_lt hlow
  have hhigh' := host.toNetwork_lt hhigh
  refine UInt64.toNat_inj.mp ?_
  -- the halves of the converted word are the converted halves, exchanged
  rw [toNat_htonll, toNat_htonll,
    show (host.toNetwork 4 (x.toNat % 2 ^ 32) * 2 ^ 32
        + host.toNetwork 4 (x.toNat / 2 ^ 32)) % 2 ^ 32
      = host.toNetwork 4 (x.toNat / 2 ^ 32) from by omega,
    show (host.toNetwork 4 (x.toNat % 2 ^ 32) * 2 ^ 32
        + host.toNetwork 4 (x.toNat / 2 ^ 32)) / 2 ^ 32
      = host.toNetwork 4 (x.toNat % 2 ^ 32) from by omega,
    host.toNetwork_toNetwork hlow, host.toNetwork_toNetwork hhigh]
  omega

/-- `stl::success`, as the `stl::result<>` a write returns: its value type is
`unsigned`, value-initialized. -/
def success : Except String UInt32 := .ok 0

/-! ## Buffers and views -/

/-- **A block of memory handed over by pointer and length**, read as its
bytes: `stl::span<const stl::byte>`, and `stl::string_view` as the bytes of
its characters. Its length is a `size_t`. -/
structure ByteSpan where
  /-- The bytes, in address order. -/
  bytes : List UInt8
  /-- The length is a `size_t`. -/
  size_lt : bytes.length < 2 ^ 64
  deriving DecidableEq

namespace ByteSpan

@[ext] theorem ext {s t : ByteSpan} (h : s.bytes = t.bytes) : s = t := by
  cases s
  cases t
  cases h
  rfl

/-- `size()`. -/
def size (s : ByteSpan) : UInt64 := UInt64.ofNat s.bytes.length

@[simp] theorem toNat_size (s : ByteSpan) : s.size.toNat = s.bytes.length :=
  UInt64.toNat_ofNat_of_lt s.size_lt

end ByteSpan

/-- `std::dynamic_extent`, the count that asks `subspan` for the rest. -/
def dynamicExtent : UInt64 := 0xFFFFFFFFFFFFFFFF

namespace ByteReader

/-- **What a reader hands out for a string or a block**: where it starts in
the buffer and how long it is said to be. -/
structure View where
  /-- The position of the first byte. -/
  start : UInt64
  /-- The number of bytes. -/
  size : UInt64
  deriving DecidableEq, Repr

/-- The view lies wholly inside the buffer. -/
def View.Inside (buf : ByteSpan) (v : View) : Prop :=
  v.start.toNat + v.size.toNat ≤ buf.bytes.length

instance (buf : ByteSpan) (v : View) : Decidable (v.Inside buf) :=
  inferInstanceAs (Decidable (_ ≤ _))

/-- The bytes a view shows. -/
def View.deref (buf : ByteSpan) (v : View) : ByteSpan where
  bytes := (buf.bytes.drop v.start.toNat).take v.size.toNat
  size_lt := by
    have hle : ((buf.bytes.drop v.start.toNat).take v.size.toNat).length
        ≤ buf.bytes.length := by
      rw [List.length_take, List.length_drop]
      omega
    exact lt_of_le_of_lt hle buf.size_lt

end ByteReader

/-- `std::span::subspan`: the count `dynamic_extent` means all that is left.
The precondition `offset + count ≤ size()` is the caller's. -/
def ByteSpan.subspan (s : ByteSpan) (offset count : UInt64) : ByteReader.View :=
  ⟨offset, if count = dynamicExtent then s.size - offset else count⟩

/-! ## The writer -/

/-- `ByteWriter`: the bytes appended so far. -/
structure ByteWriter where
  /-- `m_buffer`. -/
  buffer : List UInt8

namespace ByteWriter

/-- `append_bytes`: copy a block of memory to the end of the buffer. -/
def appendBytes (w : ByteWriter) (data : List UInt8) : ByteWriter :=
  ⟨w.buffer ++ data⟩

/-- `write_u8`. -/
def writeU8 (w : ByteWriter) (val : UInt8) : Except String UInt32 × ByteWriter :=
  (success, ⟨w.buffer ++ [val]⟩)

/-- `write_u16`. -/
def writeU16 (host : ByteOrder) (w : ByteWriter) (val : UInt16) :
    Except String UInt32 × ByteWriter :=
  let net := htons host val
  (success, w.appendBytes (host.image 2 net.toNat))

/-- `write_u32`. -/
def writeU32 (host : ByteOrder) (w : ByteWriter) (val : UInt32) :
    Except String UInt32 × ByteWriter :=
  let net := htonl host val
  (success, w.appendBytes (host.image 4 net.toNat))

/-- `write_u64`. -/
def writeU64 (host : ByteOrder) (w : ByteWriter) (val : UInt64) :
    Except String UInt32 × ByteWriter :=
  let net := htonll host val
  (success, w.appendBytes (host.image 8 net.toNat))

/-- `write_f32`, the float given by its bit pattern. -/
def writeF32 (host : ByteOrder) (w : ByteWriter) (bits : UInt32) :
    Except String UInt32 × ByteWriter :=
  let net := htonl host bits
  (success, w.appendBytes (host.image 4 net.toNat))

/-- `write_f64`, the float given by its bit pattern. -/
def writeF64 (host : ByteOrder) (w : ByteWriter) (bits : UInt64) :
    Except String UInt32 × ByteWriter :=
  let net := htonll host bits
  (success, w.appendBytes (host.image 8 net.toNat))

/-- `write_string`: the size as a `u64`, then the characters. -/
def writeString (host : ByteOrder) (w : ByteWriter) (str : ByteSpan) :
    Except String UInt32 × ByteWriter :=
  let w := (w.writeU64 host str.size).2
  (success, w.appendBytes str.bytes)

/-- `write_bytes`. -/
def writeBytes (w : ByteWriter) (data : ByteSpan) : Except String UInt32 × ByteWriter :=
  (success, ⟨w.buffer ++ data.bytes⟩)

/-- **A typed item**, one constructor per `write_*`. -/
inductive Item where
  | u8 (val : UInt8)
  | u16 (val : UInt16)
  | u32 (val : UInt32)
  | u64 (val : UInt64)
  /-- A float, by its bit pattern. -/
  | f32 (bits : UInt32)
  /-- A double, by its bit pattern. -/
  | f64 (bits : UInt64)
  | string (str : ByteSpan)
  | bytes (data : ByteSpan)
  deriving DecidableEq

/-- The write an item calls for. -/
def write (host : ByteOrder) (w : ByteWriter) : Item → Except String UInt32 × ByteWriter
  | .u8 val => w.writeU8 val
  | .u16 val => w.writeU16 host val
  | .u32 val => w.writeU32 host val
  | .u64 val => w.writeU64 host val
  | .f32 bits => w.writeF32 host bits
  | .f64 bits => w.writeF64 host bits
  | .string str => w.writeString host str
  | .bytes data => w.writeBytes data

/-- A whole message: the items written in order. -/
def writeAll (host : ByteOrder) (w : ByteWriter) (items : List Item) : ByteWriter :=
  items.foldl (fun w item => (w.write host item).2) w

end ByteWriter

/-! ## The reader -/

/-- `ByteReader`: a borrowed buffer and a cursor. The cursor never passes the
end – a read moves it only to a position it has just compared with the
size. -/
structure ByteReader where
  /-- `m_buffer`. -/
  buffer : ByteSpan
  /-- `m_offset`. -/
  offset : UInt64
  /-- The cursor is a position of the buffer, or its end. -/
  offset_le : offset ≤ buffer.size

namespace ByteReader

/-- The constructor: the cursor at the first byte. -/
def ofSpan (buffer : ByteSpan) : ByteReader := ⟨buffer, 0, UInt64.zero_le⟩

/-- `bytes_read()`. -/
def bytesRead (r : ByteReader) : UInt64 := r.offset

/-- `remaining()`. -/
def remaining (r : ByteReader) : UInt64 := r.buffer.size - r.offset

/-- The block of `k` bytes at the cursor, as `memcpy` copies it out. -/
def block (r : ByteReader) (k : ℕ) : List UInt8 :=
  (r.buffer.bytes.drop r.offset.toNat).take k

/-- **The step every read takes**: compare the cursor advanced by `need` with
the size – in `size_t`, where the sum wraps – and either report the underflow
or return a value and advance. -/
def consume {α : Type} (r : ByteReader) (need : UInt64) (underflow : String)
    (value : α) : Except String α × ByteReader :=
  if h : r.offset + need > r.buffer.size then
    (.error underflow, r)
  else
    (.ok value, ⟨r.buffer, r.offset + need, UInt64.not_lt.mp h⟩)

theorem offset_toNat_le (r : ByteReader) : r.offset.toNat ≤ r.buffer.bytes.length := by
  have h := UInt64.le_iff_toNat_le.mp r.offset_le
  rwa [ByteSpan.toNat_size] at h

/-- **What the step can do.** The exact sum fits the buffer and the cursor
moves there; or it passes the end and the underflow is reported; or it passes
`2 ^ 64`, the comparison sees a small number, and the step succeeds with the
cursor moved back. -/
theorem consume_cases {α : Type} (r : ByteReader) (need : UInt64) (underflow : String)
    (value : α) :
    (r.offset.toNat + need.toNat ≤ r.buffer.bytes.length
      ∧ ∃ r', r.consume need underflow value = (.ok value, r')
        ∧ r'.buffer = r.buffer ∧ r'.offset.toNat = r.offset.toNat + need.toNat)
    ∨ (r.buffer.bytes.length < r.offset.toNat + need.toNat
      ∧ r.offset.toNat + need.toNat < 2 ^ 64
      ∧ r.consume need underflow value = (.error underflow, r))
    ∨ (2 ^ 64 ≤ r.offset.toNat + need.toNat
      ∧ ∃ r', r.consume need underflow value = (.ok value, r')
        ∧ r'.buffer = r.buffer ∧ r'.offset.toNat + 2 ^ 64 = r.offset.toNat + need.toNat) := by
  have hsize := r.buffer.size_lt
  have hoff := r.offset_toNat_le
  have hneed := need.toNat_lt
  have hsum : (r.offset + need).toNat = (r.offset.toNat + need.toNat) % 2 ^ 64 :=
    UInt64.toNat_add _ _
  by_cases hgt : r.offset + need > r.buffer.size
  · -- a sum that has wrapped is below the cursor, so this one has not
    have hlt : r.buffer.bytes.length < (r.offset.toNat + need.toNat) % 2 ^ 64 := by
      rw [← hsum, ← ByteSpan.toNat_size]
      exact UInt64.lt_iff_toNat_lt.mp hgt
    exact Or.inr (Or.inl ⟨by omega, by omega, dif_pos hgt⟩)
  · have hle : (r.offset.toNat + need.toNat) % 2 ^ 64 ≤ r.buffer.bytes.length := by
      rw [← hsum, ← ByteSpan.toNat_size]
      exact UInt64.le_iff_toNat_le.mp (UInt64.not_lt.mp hgt)
    by_cases hwrap : 2 ^ 64 ≤ r.offset.toNat + need.toNat
    · refine Or.inr (Or.inr ⟨hwrap, _, dif_neg hgt, rfl, ?_⟩)
      show (r.offset + need).toNat + 2 ^ 64 = _
      rw [hsum]
      omega
    · refine Or.inl ⟨by omega, _, dif_neg hgt, rfl, ?_⟩
      show (r.offset + need).toNat = _
      rw [hsum]
      omega

/-- `read_u8`. -/
def readU8 (r : ByteReader) : Except String UInt8 × ByteReader :=
  r.consume 1 ("buffer underflow: need 1 byte, have " ++ toString r.remaining)
    (r.buffer.bytes.getD r.offset.toNat 0)

/-- `read_u16`. -/
def readU16 (host : ByteOrder) (r : ByteReader) : Except String UInt16 × ByteReader :=
  r.consume 2 ("buffer underflow: need 2 bytes, have " ++ toString r.remaining)
    (ntohs host (UInt16.ofNat (host.value (r.block 2))))

/-- `read_u32`. -/
def readU32 (host : ByteOrder) (r : ByteReader) : Except String UInt32 × ByteReader :=
  r.consume 4 ("buffer underflow: need 4 bytes, have " ++ toString r.remaining)
    (ntohl host (UInt32.ofNat (host.value (r.block 4))))

/-- `read_u64`. -/
def readU64 (host : ByteOrder) (r : ByteReader) : Except String UInt64 × ByteReader :=
  r.consume 8 ("buffer underflow: need 8 bytes, have " ++ toString r.remaining)
    (ntohll host (UInt64.ofNat (host.value (r.block 8))))

/-- `read_f32`, as a bit pattern. -/
def readF32 (host : ByteOrder) (r : ByteReader) : Except String UInt32 × ByteReader :=
  match r.readU32 host with
  | (.error e, r) => (.error e, r)
  | (.ok bits, r) => (.ok bits, r)

/-- `read_f64`, as a bit pattern. -/
def readF64 (host : ByteOrder) (r : ByteReader) : Except String UInt64 × ByteReader :=
  match r.readU64 host with
  | (.error e, r) => (.error e, r)
  | (.ok bits, r) => (.ok bits, r)

/-- `read_string`: the length is read first, and stays read if the characters
are missing. -/
def readString (host : ByteOrder) (r : ByteReader) : Except String View × ByteReader :=
  match r.readU64 host with
  | (.error e, r) => (.error ("failed to read string length: " ++ e), r)
  | (.ok len, r) =>
    r.consume len ("buffer underflow: need " ++ toString len ++ " bytes for string, have "
      ++ toString r.remaining) ⟨r.offset, len⟩

/-- `read_bytes`. -/
def readBytes (r : ByteReader) (len : UInt64) : Except String View × ByteReader :=
  r.consume len ("buffer underflow: need " ++ toString len ++ " bytes, have "
    ++ toString r.remaining) (r.buffer.subspan r.offset len)

/-- **A read operation**, one constructor per `read_*`. -/
inductive Op where
  | u8
  | u16
  | u32
  | u64
  | f32
  | f64
  | string
  | bytes (len : UInt64)
  deriving DecidableEq, Repr

/-- **What a successful read returns.** -/
inductive Value where
  | u8 (val : UInt8)
  | u16 (val : UInt16)
  | u32 (val : UInt32)
  | u64 (val : UInt64)
  | f32 (bits : UInt32)
  | f64 (bits : UInt64)
  | string (view : View)
  | bytes (view : View)
  deriving DecidableEq, Repr

/-- The read an operation calls for. -/
def read (host : ByteOrder) (r : ByteReader) : Op → Except String Value × ByteReader
  | .u8 => (r.readU8).map (Except.map .u8) id
  | .u16 => (r.readU16 host).map (Except.map .u16) id
  | .u32 => (r.readU32 host).map (Except.map .u32) id
  | .u64 => (r.readU64 host).map (Except.map .u64) id
  | .f32 => (r.readF32 host).map (Except.map .f32) id
  | .f64 => (r.readF64 host).map (Except.map .f64) id
  | .string => (r.readString host).map (Except.map .string) id
  | .bytes len => (r.readBytes len).map (Except.map .bytes) id

/-- A sequence of reads: what each returns, in order, and the reader after the
last. A failed read does not stop the sequence. -/
def readAll (host : ByteOrder) (r : ByteReader) :
    List Op → List (Except String Value) × ByteReader
  | [] => ([], r)
  | op :: ops =>
    let (result, r) := r.read host op
    let (results, r) := r.readAll host ops
    (result :: results, r)

/-- The item a returned value stands for, its view read through the
buffer. -/
def Value.item (buf : ByteSpan) : Value → ByteWriter.Item
  | .u8 val => .u8 val
  | .u16 val => .u16 val
  | .u32 val => .u32 val
  | .u64 val => .u64 val
  | .f32 bits => .f32 bits
  | .f64 bits => .f64 bits
  | .string view => .string (view.deref buf)
  | .bytes view => .bytes (view.deref buf)

/-- A returned string or block lies inside the buffer; nothing is asked of the
other values, which are copies. -/
def Value.Inside (buf : ByteSpan) : Value → Prop
  | .string view => view.Inside buf
  | .bytes view => view.Inside buf
  | _ => True

end ByteReader

/-- The read that matches a write; a block is read back by its length. -/
def ByteWriter.Item.op : ByteWriter.Item → ByteReader.Op
  | .u8 _ => .u8
  | .u16 _ => .u16
  | .u32 _ => .u32
  | .u64 _ => .u64
  | .f32 _ => .f32
  | .f64 _ => .f64
  | .string _ => .string
  | .bytes data => .bytes data.size

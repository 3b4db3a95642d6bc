import Mathlib.Data.List.Basic
import SapCore.SerializationCodec

/-!
# Network byte order on either host

The format is meant to be the same bytes on every machine: each word in network
order, each string its length as a 64-bit word and then its characters. That is
`Item.networkBytes`, which mentions no host.

The 16- and 32-bit words get there on both hosts, through `htons` and `htonl`.
The 64-bit helpers convert each half and then exchange the halves. On a
little-endian host the exchange is the missing part of the byte reversal; on a
big-endian one, where the conversions do nothing, it is all that happens, and
the halves reach the buffer in the wrong order (`image_htonll_big`). The bytes
are then right exactly when exchanging the halves changes nothing, so the
exception is exact (`network_order_iff`).
-/

namespace ByteWriter

/-- **The bytes the format prescribes for an item**, on every host. -/
def Item.networkBytes : Item → List UInt8
  | .u8 val => [val]
  | .u16 val => ByteOrder.big.image 2 val.toNat
  | .u32 val => ByteOrder.big.image 4 val.toNat
  | .u64 val => ByteOrder.big.image 8 val.toNat
  | .f32 bits => ByteOrder.big.image 4 bits.toNat
  | .f64 bits => ByteOrder.big.image 8 bits.toNat
  | .string str => ByteOrder.big.image 8 str.bytes.length ++ str.bytes
  | .bytes data => data.bytes

/-- A word whose two halves are the same number. -/
def HalvesEqual (n : ℕ) : Prop := n / 2 ^ 32 = n % 2 ^ 32

/-- **The 64-bit word an item writes, if any, has equal halves**: the value of
a `u64`, the bits of an `f64`, the length of a string. -/
def Item.Symmetric : Item → Prop
  | .u64 val => HalvesEqual val.toNat
  | .f64 bits => HalvesEqual bits.toNat
  | .string str => HalvesEqual str.bytes.length
  | _ => True

/-! ## The 64-bit conversion -/

/-- On a little-endian host the conversion gives the upper half, then the
lower. -/
theorem image_htonll_little (value : UInt64) :
    ByteOrder.little.image 8 (htonll .little value).toNat
      = ByteOrder.big.image 8 value.toNat := by
  have hhigh := ByteOrder.swap_lt 4 (value.toNat / 2 ^ 32)
  have hnet : (htonll .little value).toNat
      = ByteOrder.swap 4 (value.toNat % 2 ^ 32) * 2 ^ 32
        + ByteOrder.swap 4 (value.toNat / 2 ^ 32) := toNat_htonll .little value
  have hlower : (htonll .little value).toNat % 256 ^ 4
      = ByteOrder.swap 4 (value.toNat / 2 ^ 32) := by omega
  have hupper : (htonll .little value).toNat / 256 ^ 4
      = ByteOrder.swap 4 (value.toNat % 2 ^ 32) := by omega
  have hlow : ByteOrder.lowFirst 4 (value.toNat % 2 ^ 32)
      = ByteOrder.lowFirst 4 value.toNat := ByteOrder.lowFirst_mod 4 value.toNat
  -- both sides, half by half
  show ByteOrder.lowFirst (4 + 4) (htonll .little value).toNat = ByteOrder.big.image (4 + 4) _
  rw [ByteOrder.lowFirst_add, ← ByteOrder.lowFirst_mod 4 (htonll .little value).toNat, hlower,
    hupper, ByteOrder.lowFirst_swap, ByteOrder.lowFirst_swap, hlow, ByteOrder.big_image_add]
  rfl

/-- On a big-endian host it gives the lower half, then the upper. -/
theorem image_htonll_big (value : UInt64) :
    ByteOrder.big.image 8 (htonll .big value).toNat
      = ByteOrder.big.image 4 (value.toNat % 2 ^ 32)
        ++ ByteOrder.big.image 4 (value.toNat / 2 ^ 32) := by
  have hlt := value.toNat_lt
  have hnet : (htonll .big value).toNat
      = value.toNat % 2 ^ 32 * 2 ^ 32 + value.toNat / 2 ^ 32 := toNat_htonll .big value
  have hupper : (htonll .big value).toNat / 256 ^ 4 = value.toNat % 2 ^ 32 := by omega
  have hlower : (htonll .big value).toNat % 256 ^ 4 = value.toNat / 2 ^ 32 := by omega
  have himage : ByteOrder.big.image 4 (htonll .big value).toNat
      = ByteOrder.big.image 4 (value.toNat / 2 ^ 32) := by
    rw [← hlower]
    exact congrArg List.reverse (ByteOrder.lowFirst_mod 4 _).symm
  show ByteOrder.big.image (4 + 4) _ = _
  rw [ByteOrder.big_image_add, hupper, himage]

/-- **The conversion of a big-endian host is right exactly where the halves are
equal.** -/
theorem image_htonll_big_iff (value : UInt64) :
    ByteOrder.big.image 8 (htonll .big value).toNat = ByteOrder.big.image 8 value.toNat
      ↔ HalvesEqual value.toNat := by
  have hlt := value.toNat_lt
  have hhigh : value.toNat / 2 ^ 32 < 256 ^ 4 := by omega
  have hlow : value.toNat % 2 ^ 32 < 256 ^ 4 := Nat.mod_lt _ (by decide)
  have hmod : ByteOrder.big.image 4 (value.toNat % 2 ^ 32)
      = ByteOrder.big.image 4 value.toNat :=
    congrArg List.reverse (ByteOrder.lowFirst_mod 4 value.toNat)
  have hnet : ByteOrder.big.image 8 value.toNat
      = ByteOrder.big.image 4 (value.toNat / 2 ^ 32)
        ++ ByteOrder.big.image 4 (value.toNat % 2 ^ 32) := by
    rw [hmod]
    exact ByteOrder.big_image_add 4 4 value.toNat
  rw [image_htonll_big, hnet]
  constructor
  · intro h
    obtain ⟨heq, -⟩ := List.append_inj h (by rw [ByteOrder.length_image, ByteOrder.length_image])
    have hval := congrArg ByteOrder.big.value heq
    rw [ByteOrder.value_image _ hlow, ByteOrder.value_image _ hhigh] at hval
    exact hval.symm
  · intro h
    have hsame : value.toNat / 2 ^ 32 = value.toNat % 2 ^ 32 := h
    rw [hsame]

/-! ## Items and messages -/

theorem encode_little (item : Item) : item.encode .little = item.networkBytes := by
  cases item with
  | u8 val => rfl
  | u16 val =>
    rw [encode_u16, toNat_htons]
    exact ByteOrder.image_toNetwork .little 2 _
  | u32 val =>
    rw [encode_u32, toNat_htonl]
    exact ByteOrder.image_toNetwork .little 4 _
  | u64 val => exact image_htonll_little val
  | f32 bits =>
    rw [encode_f32, toNat_htonl]
    exact ByteOrder.image_toNetwork .little 4 _
  | f64 bits => exact image_htonll_little bits
  | string str =>
    rw [encode_string, image_htonll_little, ByteSpan.toNat_size]
    rfl
  | bytes data => rfl

theorem encode_big_iff (item : Item) :
    item.encode .big = item.networkBytes ↔ item.Symmetric := by
  cases item with
  | u8 val => exact iff_of_true rfl trivial
  | u16 val =>
    refine iff_of_true ?_ trivial
    rw [encode_u16, toNat_htons]
    rfl
  | u32 val =>
    refine iff_of_true ?_ trivial
    rw [encode_u32, toNat_htonl]
    rfl
  | u64 val => exact image_htonll_big_iff val
  | f32 bits =>
    refine iff_of_true ?_ trivial
    rw [encode_f32, toNat_htonl]
    rfl
  | f64 bits => exact image_htonll_big_iff bits
  | string str =>
    have hiff := image_htonll_big_iff str.size
    rw [ByteSpan.toNat_size] at hiff
    rw [encode_string]
    exact (List.append_left_inj str.bytes).trans hiff
  | bytes data => exact iff_of_true rfl trivial

/-- **An item is written in network order exactly when the host is little-endian
or the item's 64-bit word has equal halves.** -/
theorem encode_eq_networkBytes_iff (host : ByteOrder) (item : Item) :
    item.encode host = item.networkBytes ↔ host = .little ∨ item.Symmetric := by
  cases host with
  | little => exact iff_of_true (encode_little item) (Or.inl rfl)
  | big =>
    rw [encode_big_iff]
    exact ⟨Or.inr, fun h => h.resolve_left (by decide)⟩

/-- The host decides the order of the bytes and never their number. -/
theorem length_encode (host : ByteOrder) (item : Item) :
    (item.encode host).length = item.networkBytes.length := by
  cases item with
  | string str =>
    show (host.image 8 _ ++ _).length = (ByteOrder.big.image 8 _ ++ _).length
    rw [List.length_append, List.length_append, ByteOrder.length_image, ByteOrder.length_image]
  | u8 val => rfl
  | bytes data => rfl
  | _ =>
    show (host.image _ _).length = (ByteOrder.big.image _ _).length
    rw [ByteOrder.length_image, ByteOrder.length_image]

/-- A message is in network order exactly when each of its items is: the blocks
have the lengths they should have, so none can make up for another. -/
theorem flatMap_encode_iff (host : ByteOrder) (items : List Item) :
    items.flatMap (Item.encode host) = items.flatMap Item.networkBytes
      ↔ ∀ item ∈ items, item.encode host = item.networkBytes := by
  constructor
  · intro h
    induction items with
    | nil => exact fun item hitem => absurd hitem (List.not_mem_nil)
    | cons a items ih =>
      rw [List.flatMap_cons, List.flatMap_cons] at h
      obtain ⟨hhead, htail⟩ := List.append_inj h (length_encode host a)
      intro item hitem
      obtain rfl | hmem := List.mem_cons.mp hitem
      · exact hhead
      · exact ih htail item hmem
  · exact List.flatMap_congr

/-- **A message is in network order exactly when the host is little-endian or
all its 64-bit words have equal halves.** -/
theorem flatMap_encode_eq_networkBytes_iff (host : ByteOrder) (items : List Item) :
    items.flatMap (Item.encode host) = items.flatMap Item.networkBytes
      ↔ host = .little ∨ ∀ item ∈ items, item.Symmetric := by
  rw [flatMap_encode_iff]
  cases host with
  | little => exact iff_of_true (fun item _ => encode_little item) (Or.inl rfl)
  | big =>
    refine Iff.trans (forall₂_congr (fun item _ => encode_big_iff item)) ?_
    exact ⟨Or.inr, fun h => h.resolve_left (by decide)⟩

/-- **Network byte order, and when it fails.** For one item and for a message,
what is appended is the prescribed bytes exactly when the host is little-endian
or the 64-bit words written have equal halves; so the two hosts write the same
message exactly when they do. -/
theorem network_order_iff (host : ByteOrder) (w : ByteWriter) (items : List Item) :
    (∀ item : Item, (w.write host item).2.buffer = w.buffer ++ item.networkBytes
        ↔ host = .little ∨ item.Symmetric)
      ∧ ((w.writeAll host items).buffer = w.buffer ++ items.flatMap Item.networkBytes
        ↔ host = .little ∨ ∀ item ∈ items, item.Symmetric)
      ∧ ((w.writeAll .little items).buffer = (w.writeAll .big items).buffer
        ↔ ∀ item ∈ items, item.Symmetric) := by
  refine ⟨?_, ?_, ?_⟩
  · intro item
    rw [write_buffer, List.append_right_inj]
    exact encode_eq_networkBytes_iff host item
  · rw [writeAll_buffer, List.append_right_inj]
    exact flatMap_encode_eq_networkBytes_iff host items
  · have hlittle : items.flatMap (Item.encode .little) = items.flatMap Item.networkBytes :=
      (flatMap_encode_eq_networkBytes_iff .little items).mpr (Or.inl rfl)
    have hbig := flatMap_encode_eq_networkBytes_iff .big items
    rw [writeAll_buffer, writeAll_buffer, List.append_right_inj, hlittle]
    constructor
    · intro h
      exact (hbig.mp h.symm).resolve_left (by decide)
    · intro h
      exact (hbig.mpr (Or.inr h)).symm

/-- **A big-endian host writes the number one as `2 ^ 32`.** -/
theorem writeU64_big_one :
    ((ByteWriter.mk []).writeU64 .big 1).2.buffer = [0, 0, 0, 1, 0, 0, 0, 0]
      ∧ (Item.u64 1).networkBytes = [0, 0, 0, 0, 0, 0, 0, 1]
      ∧ ¬ ∀ (host : ByteOrder) (w : ByteWriter) (item : Item),
        (w.write host item).2.buffer = w.buffer ++ item.networkBytes := by
  refine ⟨by decide, by decide, fun hall => ?_⟩
  exact absurd (hall .big (ByteWriter.mk []) (.u64 1)) (by decide)

end ByteWriter

import SapCore.SerializationBounds

/-!
# Writing and reading whole messages

The two directions of the codec, over sequences of any length and any mix of
types. Forwards, reading what was written returns it (`readAll_writeAll`): one
read takes exactly the block its write appended, whatever precedes and follows
(`read_of_encode`), and a message follows by induction. Backwards, writing what
was read reproduces the bytes (`canonical_iff`): one read that does not wrap
leaves the cursor just past the block of the value it returned
(`read_ok_cases`).

Backwards there is an exception to state. A view that lies inside the buffer
does not mean that the sum did not wrap: `read_bytes` with the count
`dynamic_extent` returns the rest of the buffer and moves the cursor back by
one. The bytes written and the bytes read then differ in number, so the
exception is exact.
-/

namespace ByteReader

open ByteWriter

/-! ## Reading what was written -/

/-- The bytes an item's block takes are those its read compares for. -/
theorem length_encode_of_ne {item : Item} (host : ByteOrder) (hop : item.op ≠ .string) :
    (item.encode host).length = item.op.need.toNat := by
  cases item with
  | string str => exact absurd rfl hop
  | bytes data => exact (ByteSpan.toNat_size data).symm
  | _ => first | rfl | exact ByteOrder.length_image _ _ _

/-- The value read from an item's block stands for the item. -/
theorem item_result {host : ByteOrder} {r : ByteReader} {item : Item} (hop : item.op ≠ .string)
    (hfit : r.offset.toNat + item.op.need.toNat ≤ r.buffer.bytes.length)
    (hblock : r.block item.op.need.toNat = item.encode host) :
    (item.op.result host r).item r.buffer = item := by
  cases item with
  | string str => exact absurd rfl hop
  | u8 val =>
    have henc : [r.buffer.bytes.getD r.offset.toNat 0] = [val] :=
      (encode_result host hop hfit).trans hblock
    exact congrArg Item.u8 (List.singleton_inj.mp henc)
  | u16 val =>
    have hblock' : r.block 2 = host.image 2 (htons host val).toNat := hblock
    show Item.u16 (ntohs host (UInt16.ofNat (host.value (r.block 2)))) = _
    rw [hblock', read_write_u16]
  | u32 val =>
    have hblock' : r.block 4 = host.image 4 (htonl host val).toNat := hblock
    show Item.u32 (ntohl host (UInt32.ofNat (host.value (r.block 4)))) = _
    rw [hblock', read_write_u32]
  | u64 val =>
    have hblock' : r.block 8 = host.image 8 (htonll host val).toNat := hblock
    show Item.u64 (ntohll host (UInt64.ofNat (host.value (r.block 8)))) = _
    rw [hblock', read_write_u64]
  | f32 bits =>
    have hblock' : r.block 4 = host.image 4 (htonl host bits).toNat := hblock
    show Item.f32 (ntohl host (UInt32.ofNat (host.value (r.block 4)))) = _
    rw [hblock', read_write_u32]
  | f64 bits =>
    have hblock' : r.block 8 = host.image 8 (htonll host bits).toNat := hblock
    show Item.f64 (ntohll host (UInt64.ofNat (host.value (r.block 8)))) = _
    rw [hblock', read_write_u64]
  | bytes data =>
    have hfit' : r.offset.toNat + data.size.toNat ≤ r.buffer.bytes.length := hfit
    show Item.bytes ((r.buffer.subspan r.offset data.size).deref r.buffer) = _
    rw [subspan_size hfit']
    exact congrArg Item.bytes (ByteSpan.ext hblock)

/-- **Reading an item where its block stands returns the item** and leaves the
cursor just past the block, whatever else is in the buffer. -/
theorem read_of_encode {host : ByteOrder} {r : ByteReader} {item : Item} {rest : List UInt8}
    (hhere : r.buffer.bytes.drop r.offset.toNat = item.encode host ++ rest) :
    ∃ v r', r.read host item.op = (.ok v, r') ∧ v.item r.buffer = item
      ∧ r'.buffer = r.buffer
      ∧ r'.offset.toNat = r.offset.toNat + (item.encode host).length := by
  have hsize := r.buffer.size_lt
  have hcount := congrArg List.length hhere
  rw [List.length_drop, List.length_append] at hcount
  have hoff := r.offset_toNat_le
  by_cases hop : item.op = .string
  · -- a string: its length is the block under the cursor, its characters what follows
    obtain ⟨str, rfl⟩ : ∃ str, item = .string str := by
      cases item with
      | string str => exact ⟨str, rfl⟩
      | _ => exact absurd hop (by intro h; cases h)
    have hlen : ((Item.string str).encode host).length = 8 + str.bytes.length := by
      rw [encode_string, List.length_append, ByteOrder.length_image]
    have hblock : r.block 8 = host.image 8 (htonll host str.size).toNat := by
      unfold block
      rw [hhere, encode_string, List.append_assoc]
      exact List.take_left' (ByteOrder.length_image _ _ _)
    have hstated : r.statedLength host = str.size := by
      unfold statedLength
      rw [hblock, read_write_u64]
    have hat : (r.offset + 8).toNat = r.offset.toNat + 8 := by
      rw [UInt64.toNat_add]
      show (r.offset.toNat + 8) % 2 ^ 64 = _
      omega
    obtain ⟨e, hpast, -, -⟩ | ⟨r₁, underflow, hbuf, hoff₁, -, hread⟩ := r.read_string_cases host
    · omega
    have hsz : str.size.toNat = str.bytes.length := ByteSpan.toNat_size str
    have hfit₁ : r₁.offset.toNat + str.size.toNat ≤ r.buffer.bytes.length := by
      rw [hoff₁, hat]
      omega
    rw [hstated] at hread
    obtain ⟨-, r₂, hok, hbuf₂, hoff₂⟩ | ⟨hpast, -, -⟩ | ⟨hwrap, -⟩ :=
      r₁.consume_cases str.size underflow (Op.string.result host r)
    · refine ⟨_, r₂, hread.trans hok, ?_, hbuf₂.trans hbuf, ?_⟩
      · show Item.string (View.deref r.buffer ⟨r.offset + 8, r.statedLength host⟩) = _
        refine congrArg Item.string (ByteSpan.ext ?_)
        show (r.buffer.bytes.drop (r.offset + 8).toNat).take (r.statedLength host).toNat = _
        rw [hat, ← List.drop_drop, hhere, hstated, hsz, encode_string, List.append_assoc,
          List.drop_left' (ByteOrder.length_image _ _ _), List.take_left' rfl]
      · rw [hoff₂, hoff₁, hat, hlen, hsz]
        omega
    · rw [hbuf] at hpast
      omega
    · omega
  · obtain ⟨underflow, hread⟩ := read_eq_consume host r hop
    have hlen := length_encode_of_ne host hop
    have hfit : r.offset.toNat + item.op.need.toNat ≤ r.buffer.bytes.length := by omega
    have hblock : r.block item.op.need.toNat = item.encode host := by
      unfold block
      rw [hhere]
      exact List.take_left' hlen
    obtain ⟨-, r₁, hok, hbuf, hoff₁⟩ | ⟨hpast, -, -⟩ | ⟨hwrap, -⟩ :=
      r.consume_cases item.op.need underflow (item.op.result host r)
    · exact ⟨_, r₁, hread.trans hok, item_result hop hfit hblock, hbuf, by rw [hoff₁, hlen]⟩
    · omega
    · omega

/-- **Reading a message where its blocks stand returns the message.** -/
theorem readAll_of_encode (host : ByteOrder) (items : List Item) (r : ByteReader)
    (rest : List UInt8)
    (hhere : r.buffer.bytes.drop r.offset.toNat = items.flatMap (Item.encode host) ++ rest) :
    ∃ (vals : List Value) (r' : ByteReader), r.readAll host (items.map Item.op) = (vals.map .ok, r')
      ∧ vals.map (Value.item r.buffer) = items ∧ r'.buffer = r.buffer
      ∧ r'.offset.toNat = r.offset.toNat + (items.flatMap (Item.encode host)).length := by
  -- the induction is on the message; the cursor after one item is where the next stands
  induction items generalizing r with
  | nil => exact ⟨[], r, rfl, rfl, rfl, rfl⟩
  | cons item items ih =>
    rw [List.flatMap_cons, List.append_assoc] at hhere
    obtain ⟨v, r₁, hread, hitem, hbuf, hoff⟩ := read_of_encode hhere
    have hnext : r₁.buffer.bytes.drop r₁.offset.toNat
        = items.flatMap (Item.encode host) ++ rest := by
      rw [hbuf, hoff, ← List.drop_drop, hhere]
      exact List.drop_left' rfl
    obtain ⟨vals, r₂, hreads, hitems, hbuf₂, hoff₂⟩ := ih r₁ hnext
    refine ⟨v :: vals, r₂, ?_, ?_, hbuf₂.trans hbuf, ?_⟩
    · rw [List.map_cons, readAll, hread]
      show (_ :: (r₁.readAll host _).1, (r₁.readAll host _).2) = _
      rw [hreads]
      rfl
    · rw [List.map_cons, hitem, ← hbuf, hitems]
    · rw [hoff₂, hoff, List.flatMap_cons, List.length_append]
      omega

/-- **The round trip over whole messages.** Whatever was in the writer before
the items and whatever is appended after them, the matching reads from the
position the items start at all succeed, return the items, and end where the
items end. -/
theorem readAll_writeAll (host : ByteOrder) (prior after : List UInt8) (items : List Item)
    (r : ByteReader)
    (hbuf : r.buffer.bytes = ((ByteWriter.mk prior).writeAll host items).buffer ++ after)
    (hpos : r.bytesRead.toNat = prior.length) :
    ∃ (vals : List Value) (r' : ByteReader), r.readAll host (items.map Item.op) = (vals.map .ok, r')
      ∧ vals.map (Value.item r.buffer) = items
      ∧ r'.bytesRead.toNat = ((ByteWriter.mk prior).writeAll host items).buffer.length := by
  have hpos' : r.offset.toNat = prior.length := hpos
  rw [writeAll_buffer] at hbuf
  have hhere : r.buffer.bytes.drop r.offset.toNat
      = items.flatMap (Item.encode host) ++ after := by
    rw [hbuf, hpos', List.append_assoc]
    exact List.drop_left' rfl
  obtain ⟨vals, r', hreads, hitems, -, hoff⟩ := readAll_of_encode host items r after hhere
  refine ⟨vals, r', hreads, hitems, ?_⟩
  rw [writeAll_buffer, List.length_append, ← hpos']
  exact hoff

/-- A writer that held one byte, two items, and one byte appended after. -/
def mixedBuffer : ByteSpan :=
  ⟨((ByteWriter.mk [7]).writeAll .little [.u16 0x0102, .string ⟨[104, 105], by decide⟩]).buffer
    ++ [9], by decide⟩

/-- The round trip on that buffer, from the reader that has read the first
byte. -/
theorem readAll_writeAll_mixedBuffer :
    ∃ (vals : List Value) (r' : ByteReader),
      ((ofSpan mixedBuffer).readBytes 1).2.readAll .little [.u16, .string] = (vals.map .ok, r')
        ∧ vals.map (Value.item ((ofSpan mixedBuffer).readBytes 1).2.buffer)
          = [.u16 0x0102, .string ⟨[104, 105], by decide⟩]
        ∧ r'.bytesRead.toNat = ((ByteWriter.mk [7]).writeAll .little
          [.u16 0x0102, .string ⟨[104, 105], by decide⟩]).buffer.length :=
  readAll_writeAll .little [7] [9] [.u16 0x0102, .string ⟨[104, 105], by decide⟩]
    ((ofSpan mixedBuffer).readBytes 1).2 (by decide) (by decide)

/-! ## Writing what was read -/

/-- The bytes read so far, after a read that consumed `k` more. -/
theorem take_add_block (r : ByteReader) (k : ℕ) :
    r.buffer.bytes.take (r.offset.toNat + k) = r.buffer.bytes.take r.offset.toNat ++ r.block k :=
  List.take_add

theorem length_deref {buf : ByteSpan} {v : View} (hin : v.Inside buf) :
    (v.deref buf).bytes.length = v.size.toNat := by
  have hin' : v.start.toNat + v.size.toNat ≤ buf.bytes.length := hin
  show ((buf.bytes.drop v.start.toNat).take v.size.toNat).length = _
  rw [List.length_take, List.length_drop]
  omega

/-- What a successful `read_string` whose view is inside can have done. -/
theorem read_string_ok_cases {host : ByteOrder} {r r' : ByteReader} {v : Value}
    (hok : r.read host .string = (.ok v, r')) (hin : v.Inside r.buffer) :
    r'.buffer = r.buffer
    ∧ ((¬ r.Wraps host .string ∧ r.buffer.bytes.take r'.offset.toNat
          = r.buffer.bytes.take r.offset.toNat ++ (v.item r.buffer).encode host)
      ∨ (r.Wraps host .string
        ∧ r'.offset.toNat < r.offset.toNat + ((v.item r.buffer).encode host).length)) := by
  have hsize := r.buffer.size_lt
  have hlt := r.offset.toNat_lt
  obtain ⟨e, -, -, herr⟩ | ⟨r₁, underflow, hbuf, hoff₁, hpre, hread⟩ := r.read_string_cases host
  · rw [herr] at hok
    cases hok
  have hat : r₁.offset.toNat = (r.offset.toNat + 8) % 2 ^ 64 := by
    rw [hoff₁, UInt64.toNat_add]
    rfl
  rw [hread] at hok
  -- whichever way the second step succeeds, it returned the view past the length
  have hv : v = Op.string.result host r := by
    obtain ⟨-, r₂, h, -, -⟩ | ⟨-, -, h⟩ | ⟨-, r₂, h, -, -⟩ :=
      r₁.consume_cases (r.statedLength host) underflow (Op.string.result host r)
    · exact (consume_ok_eq h hok).1
    · rw [h] at hok
      cases hok
    · exact (consume_ok_eq h hok).1
  subst hv
  have hin' : r₁.offset.toNat + (r.statedLength host).toNat ≤ r.buffer.bytes.length := by
    rw [hoff₁]
    exact hin
  have hderef : ((View.mk (r.offset + 8) (r.statedLength host)).deref r.buffer).bytes.length
      = (r.statedLength host).toNat := length_deref hin
  have henc : (((Op.string.result host r).item r.buffer).encode host).length
      = 8 + (r.statedLength host).toNat := by
    show (host.image 8 _ ++ _).length = _
    rw [List.length_append, ByteOrder.length_image, hderef]
  obtain ⟨-, r₂, h, hbuf₂, hoff₂⟩ | ⟨-, -, h⟩ | ⟨hwrap, -, -, -, -⟩ :=
    r₁.consume_cases (r.statedLength host) underflow (Op.string.result host r)
  · obtain ⟨-, rfl⟩ := consume_ok_eq h hok
    refine ⟨hbuf₂.trans hbuf, ?_⟩
    obtain hthere | hwrap₁ := hpre
    · refine Or.inl ⟨?_, ?_⟩
      · show ¬ (_ ∨ _)
        omega
      · have hsz : ((View.mk (r.offset + 8) (r.statedLength host)).deref r.buffer).size
            = r.statedLength host :=
          UInt64.toNat_inj.mp (by rw [ByteSpan.toNat_size, hderef])
        show _ = _ ++ (host.image 8 (htonll host (ByteSpan.size _)).toNat ++ _)
        rw [hsz, image_statedLength hthere, ← List.append_assoc, ← take_add_block]
        show _ = _ ++ (r.buffer.bytes.drop (r.offset + 8).toNat).take _
        rw [hoff₂, ← hoff₁, hat, Nat.mod_eq_of_lt (by omega)]
        exact List.take_add
    · refine Or.inr ⟨Or.inl hwrap₁, ?_⟩
      rw [henc, hoff₂]
      omega
  · rw [h] at hok
    cases hok
  · omega

/-- **What a successful read whose view is inside can have done.** Either its
sum did not wrap, and the cursor stands just past the block of the value; or it
did, and the block is longer than the cursor moved. -/
theorem read_ok_cases {host : ByteOrder} {r r' : ByteReader} {op : Op} {v : Value}
    (hok : r.read host op = (.ok v, r')) (hin : v.Inside r.buffer) :
    r'.buffer = r.buffer
    ∧ ((¬ r.Wraps host op ∧ r.buffer.bytes.take r'.offset.toNat
          = r.buffer.bytes.take r.offset.toNat ++ (v.item r.buffer).encode host)
      ∨ (r.Wraps host op
        ∧ r'.offset.toNat < r.offset.toNat + ((v.item r.buffer).encode host).length)) := by
  have hsize := r.buffer.size_lt
  by_cases hop : op = .string
  · subst hop
    exact read_string_ok_cases hok hin
  obtain ⟨underflow, hread⟩ := read_eq_consume host r hop
  rw [hread] at hok
  obtain ⟨hfit, r₁, h, hbuf, hoff⟩ | ⟨-, -, h⟩ | ⟨hwrap, r₁, h, hbuf, hoff⟩ :=
    r.consume_cases op.need underflow (op.result host r)
  · obtain ⟨rfl, rfl⟩ := consume_ok_eq h hok
    refine ⟨hbuf, Or.inl ⟨?_, ?_⟩⟩
    · rw [wraps_iff_of_ne hop]
      omega
    · rw [encode_result host hop hfit, hoff, take_add_block]
  · rw [h] at hok
    cases hok
  · obtain ⟨rfl, rfl⟩ := consume_ok_eq h hok
    have hneed := op.need.toNat_lt
    exact ⟨hbuf, Or.inr ⟨(wraps_iff_of_ne hop).mpr hwrap, by omega⟩⟩

/-- A property of every call of a sequence, read off its first call and the
rest. -/
theorem eachRead_cons {host : ByteOrder} {r : ByteReader} {op : Op} {ops : List Op}
    {P : ByteReader → Op → Prop} :
    r.EachRead host (op :: ops) P ↔ P r op ∧ (r.read host op).2.EachRead host ops P := by
  constructor
  · intro h
    refine ⟨h [] op ⟨ops, rfl⟩, fun pre op' hpre => ?_⟩
    exact h (op :: pre) op' (List.prefix_cons_inj op |>.mpr hpre)
  · rintro ⟨hhead, htail⟩ pre op' hpre
    cases pre with
    | nil =>
      obtain ⟨rfl, -⟩ := List.cons_prefix_cons.mp hpre
      exact hhead
    | cons a pre =>
      obtain ⟨rfl, hpre'⟩ := List.cons_prefix_cons.mp hpre
      exact htail pre op' hpre'

/-- A cursor that stands past some bytes has moved by their number. -/
theorem offset_eq_of_take {r r' : ByteReader} {bs : List UInt8} (hbuf : r'.buffer = r.buffer)
    (htake : r.buffer.bytes.take r'.offset.toNat = r.buffer.bytes.take r.offset.toNat ++ bs) :
    r'.offset.toNat = r.offset.toNat + bs.length := by
  have hlen := congrArg List.length htake
  have hle := r.offset_toNat_le
  have hle' := r'.offset_toNat_le
  rw [hbuf] at hle'
  rw [List.length_append, List.length_take, List.length_take, Nat.min_eq_left hle,
    Nat.min_eq_left hle'] at hlen
  exact hlen

/-- **What a sequence of successful reads can have done**, by the same
alternative: none of the sums wrapped and the cursor stands past the blocks of
the values, or one did and it stands before. -/
theorem readAll_ok_cases (host : ByteOrder) (ops : List Op) (r r' : ByteReader)
    (vals : List Value) (hok : r.readAll host ops = (vals.map .ok, r'))
    (hin : ∀ v ∈ vals, v.Inside r.buffer) :
    r'.buffer = r.buffer
    ∧ ((r.EachRead host ops (fun r op => ¬ r.Wraps host op)
        ∧ r.buffer.bytes.take r'.offset.toNat = r.buffer.bytes.take r.offset.toNat
          ++ (vals.map (Value.item r.buffer)).flatMap (Item.encode host))
      ∨ (¬ r.EachRead host ops (fun r op => ¬ r.Wraps host op)
        ∧ r'.offset.toNat < r.offset.toNat
          + ((vals.map (Value.item r.buffer)).flatMap (Item.encode host)).length)) := by
  induction ops generalizing r vals with
  | nil =>
    rw [readAll, Prod.mk.injEq] at hok
    obtain ⟨hvals, rfl⟩ := hok
    obtain rfl : vals = [] := List.map_eq_nil_iff.mp hvals.symm
    refine ⟨rfl, Or.inl ⟨fun pre op hpre => ?_, (List.append_nil _).symm⟩⟩
    exact absurd (List.prefix_nil.mp hpre) (List.append_ne_nil_of_right_ne_nil _ (by simp))
  | cons op ops ih =>
    rw [readAll, Prod.mk.injEq] at hok
    obtain ⟨hvals, hr'⟩ := hok
    cases vals with
    | nil => cases hvals
    | cons v vals =>
      rw [List.map_cons, List.cons.injEq] at hvals
      have hread : r.read host op = (.ok v, (r.read host op).2) := Prod.ext hvals.1 rfl
      obtain ⟨hbuf, hhead⟩ := read_ok_cases hread (hin v List.mem_cons_self)
      have hrest : ∀ w ∈ vals, w.Inside (r.read host op).2.buffer := by
        intro w hw
        rw [hbuf]
        exact hin w (List.mem_cons_of_mem v hw)
      obtain ⟨hbuf', htail⟩ := ih (r.read host op).2 vals (Prod.ext hvals.2 hr') hrest
      rw [hbuf] at hbuf' htail
      rw [eachRead_cons, List.map_cons, List.flatMap_cons, List.length_append]
      refine ⟨hbuf', ?_⟩
      -- a wrapped sum anywhere leaves the cursor behind, and nothing later catches up
      obtain ⟨hno, htake⟩ | ⟨hwrap, hlt⟩ := hhead
      · have hoff := offset_eq_of_take hbuf htake
        obtain ⟨hnos, htakes⟩ | ⟨hwraps, hlts⟩ := htail
        · refine Or.inl ⟨⟨hno, hnos⟩, ?_⟩
          rw [htakes, htake, List.append_assoc]
        · exact Or.inr ⟨fun h => hwraps h.2, by omega⟩
      · refine Or.inr ⟨fun h => h.1 hwrap, ?_⟩
        obtain ⟨hnos, htakes⟩ | ⟨hwraps, hlts⟩ := htail
        · rw [← hbuf] at hbuf' htakes
          have hoff := offset_eq_of_take hbuf' htakes
          rw [hbuf] at hoff
          omega
        · omega

/-- **The format is canonical.** Where all reads of a sequence succeed and
every view lies inside the buffer, writing the values back gives the bytes
read exactly when no sum wrapped; and two buffers read so, by the same
operations and to the same values, were read from the same bytes. -/
theorem canonical_iff (host : ByteOrder) (ops : List Op) :
    (∀ (buf : ByteSpan) (vals : List Value) (r' : ByteReader),
      (ofSpan buf).readAll host ops = (vals.map .ok, r') → (∀ v ∈ vals, v.Inside buf) →
      (((ByteWriter.mk []).writeAll host (vals.map (Value.item buf))).buffer
          = buf.bytes.take r'.bytesRead.toNat
        ↔ (ofSpan buf).EachRead host ops (fun r op => ¬ r.Wraps host op)))
    ∧ (∀ (buf₁ buf₂ : ByteSpan) (vals₁ vals₂ : List Value) (r₁ r₂ : ByteReader),
      (ofSpan buf₁).readAll host ops = (vals₁.map .ok, r₁) → (∀ v ∈ vals₁, v.Inside buf₁) →
      (ofSpan buf₁).EachRead host ops (fun r op => ¬ r.Wraps host op) →
      (ofSpan buf₂).readAll host ops = (vals₂.map .ok, r₂) → (∀ v ∈ vals₂, v.Inside buf₂) →
      (ofSpan buf₂).EachRead host ops (fun r op => ¬ r.Wraps host op) →
      vals₁.map (Value.item buf₁) = vals₂.map (Value.item buf₂) →
      buf₁.bytes.take r₁.bytesRead.toNat = buf₂.bytes.take r₂.bytesRead.toNat) := by
  have hone : ∀ (buf : ByteSpan) (vals : List Value) (r' : ByteReader),
      (ofSpan buf).readAll host ops = (vals.map .ok, r') → (∀ v ∈ vals, v.Inside buf) →
      (((ByteWriter.mk []).writeAll host (vals.map (Value.item buf))).buffer
          = buf.bytes.take r'.bytesRead.toNat
        ↔ (ofSpan buf).EachRead host ops (fun r op => ¬ r.Wraps host op)) := by
    intro buf vals r' hok hin
    rw [writeAll_buffer, List.nil_append]
    obtain ⟨hbuf, ⟨hno, htake⟩ | ⟨hwrap, hlt⟩⟩ :=
      readAll_ok_cases host ops (ofSpan buf) r' vals hok hin
    · exact iff_of_true htake.symm hno
    · refine iff_of_false (fun heq => ?_) hwrap
      have hlen := congrArg List.length heq
      rw [List.length_take] at hlen
      have hlt' : r'.bytesRead.toNat
          < 0 + ((vals.map (Value.item buf)).flatMap (Item.encode host)).length := hlt
      omega
  refine ⟨hone, ?_⟩
  intro buf₁ buf₂ vals₁ vals₂ r₁ r₂ hok₁ hin₁ hno₁ hok₂ hin₂ hno₂ hvals
  rw [← (hone buf₁ vals₁ r₁ hok₁ hin₁).mpr hno₁, ← (hone buf₂ vals₂ r₂ hok₂ hin₂).mpr hno₂, hvals]

/-- A byte and a string of two, and the same with a byte after them. -/
def record : ByteSpan := ⟨[7, 0, 0, 0, 0, 0, 0, 0, 2, 104, 105], by decide⟩

def recordAndMore : ByteSpan := ⟨[7, 0, 0, 0, 0, 0, 0, 0, 2, 104, 105, 9], by decide⟩

/-- What is read of both. -/
def recordValues : List Value := [.u8 7, .string ⟨9, 2⟩]

/-- No sum wraps, as the values are written back to the bytes read, and these are the same in
both. -/
theorem canonical_iff_record :
    ∃ r₁ r₂, (ofSpan record).readAll .little [.u8, .string] = (recordValues.map .ok, r₁)
      ∧ (ofSpan recordAndMore).readAll .little [.u8, .string] = (recordValues.map .ok, r₂)
      ∧ (ofSpan record).EachRead .little [.u8, .string] (fun r op => ¬ r.Wraps .little op)
      ∧ (ofSpan recordAndMore).EachRead .little [.u8, .string] (fun r op => ¬ r.Wraps .little op)
      ∧ record.bytes.take r₁.bytesRead.toNat = recordAndMore.bytes.take r₂.bytesRead.toNat := by
  obtain ⟨hone, htwo⟩ := canonical_iff .little [.u8, .string]
  have hinside : ∀ buf : ByteSpan, 11 ≤ buf.bytes.length → ∀ v ∈ recordValues, v.Inside buf := by
    intro buf hlength v hv
    rw [recordValues, List.mem_cons, List.mem_singleton] at hv
    obtain rfl | rfl := hv
    · exact trivial
    · exact hlength
  have hin₁ := hinside record (by decide)
  have hin₂ := hinside recordAndMore (by decide)
  have hread : ∀ buf ∈ [record, recordAndMore], (ofSpan buf).readAll .little [.u8, .string]
      = (recordValues.map .ok, ((ofSpan buf).readAll .little [.u8, .string]).2) := by
    intro buf hbuf
    rw [List.mem_cons, List.mem_singleton] at hbuf
    obtain rfl | rfl := hbuf
    · rfl
    · rfl
  have hread₁ := hread record (by simp)
  have hread₂ := hread recordAndMore (by simp)
  have hno₁ := (hone record recordValues _ hread₁ hin₁).mp (by decide)
  have hno₂ := (hone recordAndMore recordValues _ hread₂ hin₂).mp (by decide)
  exact ⟨_, _, hread₁, hread₂, hno₁, hno₂, htwo record recordAndMore recordValues recordValues _ _
    hread₁ hin₁ hno₁ hread₂ hin₂ hno₂ (by decide)⟩

/-- A buffer of one byte. -/
def oneByte : ByteSpan := ⟨[7], by decide⟩

/-- **Asking for `dynamic_extent` bytes reads nothing and goes back.** After
one byte of one, the sum `1 + (2 ^ 64 - 1)` is `0`: `read_bytes` returns the
empty rest, a view inside the buffer, and the cursor is at the start again
with one byte written back for none read. -/
theorem readBytes_dynamicExtent :
    (ofSpan oneByte).readAll .little [.u8, .bytes dynamicExtent]
        = ([.ok (.u8 7), .ok (.bytes ⟨1, 0⟩)], ofSpan oneByte)
      ∧ ¬ ∀ (host : ByteOrder) (buf : ByteSpan) (ops : List Op) (vals : List Value)
          (r' : ByteReader),
        (ofSpan buf).readAll host ops = (vals.map .ok, r') → (∀ v ∈ vals, v.Inside buf) →
        ((ByteWriter.mk []).writeAll host (vals.map (Value.item buf))).buffer
          = buf.bytes.take r'.bytesRead.toNat := by
  have hread : (ofSpan oneByte).readAll .little [.u8, .bytes dynamicExtent]
      = ([.ok (.u8 7), .ok (.bytes ⟨1, 0⟩)], ofSpan oneByte) := rfl
  refine ⟨hread, fun hall => ?_⟩
  have hin : ∀ v ∈ [Value.u8 7, .bytes ⟨1, 0⟩], v.Inside oneByte := by
    intro v hv
    rw [List.mem_cons, List.mem_singleton] at hv
    obtain rfl | rfl := hv
    · exact trivial
    · show (1 : ℕ) + 0 ≤ 1
      exact le_refl _
  have hcanon := hall .little oneByte [.u8, .bytes dynamicExtent]
    [.u8 7, .bytes ⟨1, 0⟩] (ofSpan oneByte) hread hin
  exact absurd hcanon (by decide)

end ByteReader

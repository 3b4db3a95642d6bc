import Mathlib.Logic.Function.Basic
import SapCore.Arena
import SapCore.Machine
import SapCore.Memory

/-!
# `fixed_string`

A `fixed_string<N>` keeps its characters in a `stack_arena<N + 1>` of its own: `buf_` is the one
block that was ever allocated from it, `size_` the number of characters, and a NUL stands after
them. The model has the strings at fixed places of one memory and does to the memory what the
source does, with `memcpy`, `memset` and single stores; sizes and pointers are 64-bit words. A
store beside the buffer of the string it belongs to is recorded as an overrun.

An assertion that fails ends the program, and an operation it stands in has no result. The
characters a `string_view` or a C string refers to are not in the buffer of the string that is
operated on; they are given with the operation.
-/

/-- **The characters that a view refers to**, or those of a C string before its NUL. -/
structure CharView where
  chars : List UInt8
  length_lt : chars.length < 2 ^ 64

/-- `size`, or `strlen`. -/
def CharView.size (v : CharView) : UInt64 := UInt64.ofNat v.chars.length

/-- **The memory the strings are in.** -/
structure CharStore where
  memory : Memory
  /-- Something was stored beside the buffer of a string. -/
  overrun : Bool

/-- **A `fixed_string<N>` object.** -/
structure FixedString (N : UInt64) where
  arena : StackArena (N + 1)
  buf : UInt64
  size : UInt64

namespace FixedString

variable {N M : UInt64}

/-- Store characters from an address on. -/
def put (s : FixedString N) (c : CharStore) (p : UInt64) (chars : List UInt8) : CharStore where
  memory := c.memory.write p.toNat chars
  overrun := c.overrun || !decide (s.arena.buf.toNat ≤ p.toNat
    ∧ p.toNat + chars.length ≤ s.arena.buf.toNat + (N.toNat + 1))

/-- `buf_[size_] = '\0'` -/
def terminate (s : FixedString N) (c : CharStore) : CharStore := s.put c (s.buf + s.size) [0]

/-- `view`. -/
def view (s : FixedString N) (c : CharStore) : CharView where
  chars := c.memory.bytesAt s.buf.toNat s.size.toNat
  length_lt := by
    rw [Memory.length_bytesAt]
    exact s.size.toNat_lt

/-- `allocate_buf`, in an object at an address whose size was initialised. Where the arena
refuses the block `bad_alloc` is thrown. -/
def allocateBuf (N address size : UInt64) : Option (FixedString N) :=
  let r := (StackArena.new address : StackArena (N + 1)).allocate (N + 1) 1
  if r.1 = 0 then none else some ⟨r.2, r.1, size⟩

/-! ## Constructors -/

/-- `fixed_string()`. -/
def new (N address : UInt64) (c : CharStore) : Option (FixedString N × CharStore) :=
  (allocateBuf N address 0).map (fun s => (s, s.put c s.buf [0]))

/-- Copy the characters into the buffer, after the check of the size, and terminate them. -/
def fill (s : FixedString N) (c : CharStore) (chars : List UInt8) :
    Option (FixedString N × CharStore) :=
  if s.size ≤ N then some (s, s.terminate (s.put c s.buf chars)) else none

/-- `fixed_string(const char*)`. -/
def ofCString (N address : UInt64) (c : CharStore) (str : Option CharView) :
    Option (FixedString N × CharStore) :=
  (allocateBuf N address 0).bind (fun s =>
    match str with
    | none => some (s, s.terminate c)
    | some v => fill { s with size := v.size } c v.chars)

/-- `fixed_string(const char*, size_t)` and `fixed_string(std::string_view)`. -/
def ofView (N address : UInt64) (c : CharStore) (v : CharView) :
    Option (FixedString N × CharStore) :=
  (allocateBuf N address v.size).bind (fun s => s.fill c v.chars)

/-- `fixed_string(size_t, char)`. -/
def ofCount (N address : UInt64) (c : CharStore) (count : UInt64) (ch : UInt8) :
    Option (FixedString N × CharStore) :=
  (allocateBuf N address count).bind (fun s => s.fill c (List.replicate count.toNat ch))

/-- `memcpy(buf_, other.buf_, size_ + 1)`, with the NUL. -/
def copyChars (s : FixedString N) (c : CharStore) (other : FixedString M) : CharStore :=
  s.put c s.buf (c.memory.bytesAt other.buf.toNat (s.size + 1).toNat)

/-- `fixed_string(const fixed_string&)`. -/
def copy (N address : UInt64) (c : CharStore) (other : FixedString M) :
    Option (FixedString N × CharStore) :=
  (allocateBuf N address other.size).map (fun s => (s, s.copyChars c other))

/-- `fixed_string(const fixed_string<M>&)`. -/
def convert (N address : UInt64) (c : CharStore) (other : FixedString M) :
    Option (FixedString N × CharStore) :=
  (allocateBuf N address other.size).bind (fun s =>
    if s.size ≤ N then some (s, s.copyChars c other) else none)

/-! ## Assignments -/

/-- `operator=(const fixed_string&)`, from another object. -/
def assign (s : FixedString N) (c : CharStore) (other : FixedString M) :
    FixedString N × CharStore :=
  let s := { s with size := other.size }
  (s, s.copyChars c other)

/-- `operator=(const char*)`. -/
def assignCString (s : FixedString N) (c : CharStore) (str : Option CharView) :
    Option (FixedString N × CharStore) :=
  match str with
  | none =>
    let s := { s with size := 0 }
    if s.size ≤ N then some (s, s.terminate c) else none
  | some v => fill { s with size := v.size } c v.chars

/-- `operator=(std::string_view)`. -/
def assignView (s : FixedString N) (c : CharStore) (v : CharView) :
    Option (FixedString N × CharStore) :=
  fill { s with size := v.size } c v.chars

/-! ## Modifiers -/

/-- `clear`. -/
def clear (s : FixedString N) (c : CharStore) : FixedString N × CharStore :=
  ({ s with size := 0 }, s.put c s.buf [0])

/-- `push_back`, and `operator+=(char)`. -/
def pushBack (s : FixedString N) (c : CharStore) (ch : UInt8) :
    Option (FixedString N × CharStore) :=
  if s.size < N then
    let c := s.put c (s.buf + s.size) [ch]
    let s := { s with size := s.size + 1 }
    some (s, s.terminate c)
  else none

/-- `pop_back`. -/
def popBack (s : FixedString N) (c : CharStore) : Option (FixedString N × CharStore) :=
  if s.size > 0 then
    let s := { s with size := s.size - 1 }
    some (s, s.terminate c)
  else none

/-- The body of the two functions `append`: as many characters as `count` says. -/
def appendChars (s : FixedString N) (c : CharStore) (count : UInt64) (chars : List UInt8) :
    Option (FixedString N × CharStore) :=
  if s.size + count ≤ N then
    let c := s.put c (s.buf + s.size) chars
    let s := { s with size := s.size + count }
    some (s, s.terminate c)
  else none

/-- `append(std::string_view)`, `append(const char*)` and `operator+=(std::string_view)`. -/
def append (s : FixedString N) (c : CharStore) (v : CharView) :
    Option (FixedString N × CharStore) :=
  s.appendChars c v.size v.chars

/-- `append(size_t, char)`. -/
def appendCount (s : FixedString N) (c : CharStore) (count : UInt64) (ch : UInt8) :
    Option (FixedString N × CharStore) :=
  s.appendChars c count (List.replicate count.toNat ch)

/-- `resize`. -/
def resize (s : FixedString N) (c : CharStore) (count : UInt64) (ch : UInt8) :
    Option (FixedString N × CharStore) :=
  if count ≤ N then
    let c := if count > s.size then
        s.put c (s.buf + s.size) (List.replicate (count - s.size).toNat ch)
      else c
    let s := { s with size := count }
    some (s, s.terminate c)
  else none

/-! ## Concatenation -/

/-- `operator+(const fixed_string<N>&, const fixed_string<M>&)`, in an object at an address. -/
def concat (address : UInt64) (c : CharStore) {K : UInt64} (lhs : FixedString N)
    (rhs : FixedString M) : Option (FixedString K × CharStore) :=
  (ofView K address c (lhs.view c)).bind (fun r => r.1.append r.2 (rhs.view r.2))

/-- `operator+(const fixed_string<N>&, std::string_view)`. -/
def concatView (address : UInt64) (c : CharStore) {K : UInt64} (lhs : FixedString N)
    (rhs : CharView) : Option (FixedString K × CharStore) :=
  (copy K address c lhs).bind (fun r => r.1.append r.2 rhs)

/-- `operator+(std::string_view, const fixed_string<N>&)`. -/
def viewConcat (address : UInt64) (c : CharStore) {K : UInt64} (lhs : CharView)
    (rhs : FixedString N) : Option (FixedString K × CharStore) :=
  (ofView K address c lhs).bind (fun r => r.1.append r.2 (rhs.view r.2))

end FixedString

/-! ## Runs -/

/-- **Where the strings are**: the capacity of each, and the address of its buffer. -/
structure StringSetup (ι : Type) where
  capacity : ι → UInt64
  address : ι → UInt64

/-- **The strings**, of which some exist. -/
structure FixedStrings {ι : Type} (setup : StringSetup ι) where
  object : (x : ι) → Option (FixedString (setup.capacity x))
  chars : CharStore

namespace FixedStrings

variable {ι : Type} {setup : StringSetup ι}

/-- No strings, in a memory that holds anything. -/
def new (m : Memory) : FixedStrings setup := ⟨fun _ => none, ⟨m, false⟩⟩

/-- What is done to the strings. -/
inductive Label (ι : Type) where
  | new (x : ι)
  | ofCString (x : ι) (str : Option CharView)
  | ofView (x : ι) (v : CharView)
  | ofCount (x : ι) (count : UInt64) (ch : UInt8)
  | copy (x y : ι)
  | convert (x y : ι)
  | assign (x y : ι)
  | assignCString (x : ι) (str : Option CharView)
  | assignView (x : ι) (v : CharView)
  | clear (x : ι)
  | pushBack (x : ι) (ch : UInt8)
  | popBack (x : ι)
  | append (x : ι) (v : CharView)
  | appendCount (x : ι) (count : UInt64) (ch : UInt8)
  | resize (x : ι) (count : UInt64) (ch : UInt8)
  | concat (x y z : ι)
  | concatView (x y : ι) (v : CharView)
  | viewConcat (x : ι) (v : CharView) (y : ι)
  | destroy (x : ι)

variable [DecidableEq ι]

/-- A string is written to the object `x`. -/
def set (s : FixedStrings setup) (x : ι) (r : FixedString (setup.capacity x) × CharStore) :
    FixedStrings setup :=
  ⟨Function.update s.object x (some r.1), r.2⟩

/-- A constructor, of an object that does not exist. -/
def construct (s : FixedStrings setup) (x : ι)
    (r : Option (FixedString (setup.capacity x) × CharStore)) : Option (FixedStrings setup) :=
  if (s.object x).isNone then r.map (s.set x) else none

/-- An operation on an object that exists. -/
def modify (s : FixedStrings setup) (x : ι)
    (op : FixedString (setup.capacity x) → CharStore →
      Option (FixedString (setup.capacity x) × CharStore)) : Option (FixedStrings setup) :=
  (s.object x).bind (fun f => (op f s.chars).map (s.set x))

/-- **One operation.** Copies and assignments are between strings of one capacity, and so is the
concatenation with a view; that of two strings has the sum of their capacities. -/
def step (s : FixedStrings setup) : Label ι → Option (FixedStrings setup)
  | .new x => s.construct x (FixedString.new _ (setup.address x) s.chars)
  | .ofCString x str => s.construct x (FixedString.ofCString _ (setup.address x) s.chars str)
  | .ofView x v => s.construct x (FixedString.ofView _ (setup.address x) s.chars v)
  | .ofCount x count ch => s.construct x (FixedString.ofCount _ (setup.address x) s.chars count ch)
  | .copy x y =>
    if setup.capacity x = setup.capacity y then
      (s.object y).bind (fun g => s.construct x (FixedString.copy _ (setup.address x) s.chars g))
    else none
  | .convert x y =>
    (s.object y).bind (fun g => s.construct x (FixedString.convert _ (setup.address x) s.chars g))
  | .assign x y =>
    if setup.capacity x = setup.capacity y then
      (s.object y).bind (fun g => s.modify x (fun f c =>
        if x = y then some (f, c) else some (f.assign c g)))
    else none
  | .assignCString x str => s.modify x (fun f c => f.assignCString c str)
  | .assignView x v => s.modify x (fun f c => f.assignView c v)
  | .clear x => s.modify x (fun f c => some (f.clear c))
  | .pushBack x ch => s.modify x (fun f c => f.pushBack c ch)
  | .popBack x => s.modify x FixedString.popBack
  | .append x v => s.modify x (fun f c => f.append c v)
  | .appendCount x count ch => s.modify x (fun f c => f.appendCount c count ch)
  | .resize x count ch => s.modify x (fun f c => f.resize c count ch)
  | .concat x y z =>
    if setup.capacity x = setup.capacity y + setup.capacity z then
      (s.object y).bind (fun f => (s.object z).bind (fun g =>
        s.construct x (FixedString.concat (setup.address x) s.chars f g)))
    else none
  | .concatView x y v =>
    if setup.capacity x = setup.capacity y then
      (s.object y).bind (fun f => s.construct x (FixedString.concatView (setup.address x) s.chars f v))
    else none
  | .viewConcat x v y =>
    if setup.capacity x = setup.capacity y then
      (s.object y).bind (fun g => s.construct x (FixedString.viewConcat (setup.address x) s.chars v g))
    else none
  | .destroy x => (s.object x).map (fun _ => { s with object := Function.update s.object x none })

/-- The strings as a machine. -/
def machine (setup : StringSetup ι) (m : Memory) : Machine (FixedStrings setup) (Label ι) :=
  ⟨new m, step⟩

end FixedStrings

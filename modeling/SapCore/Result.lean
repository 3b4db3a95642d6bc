import Mathlib.Logic.Function.Basic
import SapCore.Machine

/-!
# `stl::result`

A `result<T, Et>` keeps a `T` or an `Et` in a union, and beside the union the flag
`m_has_value`, which says which of the two is alive. Nothing but the code of the class ties
the flag to the union: the members are constructed by placement `new` and destroyed by explicit
calls of their destructors.

The model has both. A `Result` is the flag and the member of the union that is alive, if any is;
a member is known by its place in the sequence of all the `T` and `Et` objects constructed.
What a member holds is a value (`υ`, for `T`) or an error (`ε`, for `Et`). Every operation is
the sequence of what the source does – it destroys the member the flag names, writes the flag,
constructs a member – and each construction and assignment of a `T` or an `Et` may throw, as
the label of the step says. To destroy, read or assign a member that is not alive is a fault.

An argument of a constructor or of `emplace_value` may be a reference to a member of a result,
also of the one that is emplaced.
-/

/-- Whether an object is the source of a copy or of a move. -/
inductive TransferMode where
  | copy
  | move
  deriving DecidableEq, Repr

/-- **A member that is alive**: which of all the objects constructed it is, and what it holds. -/
structure Member (υ ε : Type) where
  id : ℕ
  payload : υ ⊕ ε

/-- **A result object.** -/
structure Result (υ ε : Type) where
  /-- `m_has_value`. -/
  hasValue : Bool
  /-- The member of the union that is alive. -/
  member : Option (Member υ ε)

/-- The member that `m_has_value` names, if it is alive. -/
def Result.named {υ ε : Type} (a : Result υ ε) : Option (Member υ ε) :=
  a.member.filter (fun m => m.payload.isLeft == a.hasValue)

/-- **What a type leaves behind**: in the source of a move that returns, in the source of one
that throws, and in the target of an assignment that throws. -/
structure MoveSemantics (α : Type) where
  moved : α → α
  halfMoved : α → α
  halfAssigned : α → α → α

/-- The two types of a result. -/
structure ResultSetup (υ ε : Type) where
  value : MoveSemantics υ
  error : MoveSemantics ε

namespace ResultSetup

variable {υ ε : Type} (setup : ResultSetup υ ε)

/-- What the source of a construction or assignment holds afterwards. -/
def source : TransferMode → Bool → υ ⊕ ε → υ ⊕ ε
  | .copy, _ => id
  | .move, false => Sum.map setup.value.moved setup.error.moved
  | .move, true => Sum.map setup.value.halfMoved setup.error.halfMoved

/-- What the target of an assignment holds after it has thrown. -/
def halfAssigned : υ ⊕ ε → υ ⊕ ε → υ ⊕ ε
  | .inl v, .inl w => .inl (setup.value.halfAssigned v w)
  | .inr e, .inr f => .inr (setup.error.halfAssigned e f)
  | p, _ => p

end ResultSetup

/-- **The arguments of a constructor** of `α`: something given, or a reference to the member of
a result, from which the constructor makes the new object. -/
inductive ResultArg (ι υ ε α : Type) where
  | given (p : α)
  | member (y : ι) (mode : TransferMode) (make : υ ⊕ ε → α)

namespace ResultArg

variable {ι υ ε α β : Type}

def map (f : α → β) : ResultArg ι υ ε α → ResultArg ι υ ε β
  | .given p => .given (f p)
  | .member y mode make => .member y mode (f ∘ make)

/-- The argument refers to a member of `y`. -/
def RefersTo (y : ι) : ResultArg ι υ ε α → Prop
  | .given _ => False
  | .member z _ _ => z = y

end ResultArg

/-- **The results**, with the history of their members: how many were constructed, which were
destroyed, and whether one was used that was not alive. -/
structure Results (ι υ ε : Type) where
  object : ι → Option (Result υ ε)
  constructed : ℕ
  destroyed : List ℕ
  fault : Bool

namespace Results

variable {ι υ ε : Type}

/-- No results. -/
def new : Results ι υ ε := ⟨fun _ => none, 0, [], false⟩

/-- The member of `x` that its flag names, if it is alive. -/
def named (s : Results ι υ ε) (x : ι) : Option (Member υ ε) := (s.object x).bind Result.named

/-- A member that is not alive is used. -/
def faulty (s : Results ι υ ε) : Results ι υ ε := { s with fault := true }

variable [DecidableEq ι]

/-- A result object comes to exist, or ceases to. -/
def set (s : Results ι υ ε) (x : ι) (a : Option (Result υ ε)) : Results ι υ ε :=
  { s with object := Function.update s.object x a }

/-- Write to a result object. -/
def modify (s : Results ι υ ε) (x : ι) (f : Result υ ε → Result υ ε) : Results ι υ ε :=
  s.set x ((s.object x).map f)

/-- Write to `m_has_value`. -/
def setHasValue (s : Results ι υ ε) (x : ι) (b : Bool) : Results ι υ ε :=
  s.modify x (fun a => { a with hasValue := b })

/-- Write to the member that is alive. -/
def setPayload (s : Results ι υ ε) (x : ι) (p : υ ⊕ ε) : Results ι υ ε :=
  s.modify x (fun a => { a with member := a.member.map (fun m => { m with payload := p }) })

/-- `if (m_has_value) m_value.~T(); else m_error.~Et();` -/
def destroyMember (s : Results ι υ ε) (x : ι) : Results ι υ ε :=
  match s.named x with
  | none => s.faulty
  | some m => { s.modify x (fun a => { a with member := none }) with
      destroyed := m.id :: s.destroyed }

/-- A member is there. -/
def addMember (s : Results ι υ ε) (x : ι) (p : υ ⊕ ε) : Results ι υ ε :=
  { s.modify x (fun a => { a with member := some ⟨s.constructed, p⟩ }) with
    constructed := s.constructed + 1 }

variable (setup : ResultSetup υ ε)

/-- `new (&m_value) T(args...)`, or `new (&m_error) Et(args...)`. -/
def construct (s : Results ι υ ε) (x : ι) (arg : ResultArg ι υ ε (υ ⊕ ε)) (throws : Bool) :
    Results ι υ ε :=
  match arg with
  | .given p => if throws then s else s.addMember x p
  | .member y mode make =>
    match s.named y with
    | none => s.faulty
    | some m =>
      let s' := s.setPayload y (setup.source mode throws m.payload)
      if throws then s' else s'.addMember x (make m.payload)

/-- `m_value = other.m_value`, or `m_error = other.m_error`. -/
def assignMember (s : Results ι υ ε) (x y : ι) (mode : TransferMode) (throws : Bool) :
    Results ι υ ε :=
  match s.named x, s.named y with
  | some m, some n =>
    (s.setPayload x (if throws then setup.halfAssigned m.payload n.payload else n.payload)).setPayload
      y (setup.source mode throws n.payload)
  | _, _ => s.faulty

/-- **A constructor**: the flag is initialised, and the member constructed. Where that throws the
object does not come to exist. -/
def initWith (s : Results ι υ ε) (x : ι) (hasValue : Bool) (arg : ResultArg ι υ ε (υ ⊕ ε))
    (throws : Bool) : Results ι υ ε :=
  let s' := (s.set x (some ⟨hasValue, none⟩)).construct setup x arg throws
  if throws then s'.set x none else s'

/-- `result(success, args...)`, and the constructors `result()`, `result(const T&)` and
`result(T&&)`, which do the same with their arguments. -/
def initSuccess (s : Results ι υ ε) (x : ι) (arg : ResultArg ι υ ε υ) (throws : Bool) :
    Results ι υ ε :=
  s.initWith setup x true (arg.map Sum.inl) throws

/-- `result(error, args...)`. -/
def initError (s : Results ι υ ε) (x : ι) (arg : ResultArg ι υ ε ε) (throws : Bool) :
    Results ι υ ε :=
  s.initWith setup x false (arg.map Sum.inr) throws

/-- `result(const result&)` and `result(result&&)`, from an object `y` whose state is `b`. -/
def initFrom (s : Results ι υ ε) (x y : ι) (b : Result υ ε) (mode : TransferMode) (throws : Bool) :
    Results ι υ ε :=
  s.initWith setup x b.hasValue (.member y mode id) throws

/-- `operator=(const result&)` and `operator=(result&&)`, for objects whose states are `a` and
`b`. -/
def assign (s : Results ι υ ε) (x y : ι) (a b : Result υ ε) (mode : TransferMode)
    (throws : Bool) : Results ι υ ε :=
  if x = y then s
  else if a.hasValue = b.hasValue then s.assignMember setup x y mode throws
  else ((s.destroyMember x).setHasValue x b.hasValue).construct setup x (.member y mode id) throws

/-- The body of `emplace_value` and `emplace_error`. -/
def emplace (s : Results ι υ ε) (x : ι) (hasValue : Bool) (arg : ResultArg ι υ ε (υ ⊕ ε))
    (throws : Bool) : Results ι υ ε :=
  ((s.destroyMember x).setHasValue x hasValue).construct setup x arg throws

/-- `emplace_value`. -/
def emplaceValue (s : Results ι υ ε) (x : ι) (arg : ResultArg ι υ ε υ) (throws : Bool) :
    Results ι υ ε :=
  s.emplace setup x true (arg.map Sum.inl) throws

/-- `emplace_error`. -/
def emplaceError (s : Results ι υ ε) (x : ι) (arg : ResultArg ι υ ε ε) (throws : Bool) :
    Results ι υ ε :=
  s.emplace setup x false (arg.map Sum.inr) throws

/-- `~result`. -/
def destroy (s : Results ι υ ε) (x : ι) : Results ι υ ε := (s.destroyMember x).set x none

/-- What is done to the results, and whether the construction or assignment of the `T` or `Et`
that belongs to it throws. -/
inductive Label (ι υ ε : Type) where
  | initSuccess (x : ι) (arg : ResultArg ι υ ε υ) (throws : Bool)
  | initError (x : ι) (arg : ResultArg ι υ ε ε) (throws : Bool)
  | initFrom (x y : ι) (mode : TransferMode) (throws : Bool)
  | assign (x y : ι) (mode : TransferMode) (throws : Bool)
  | emplaceValue (x : ι) (arg : ResultArg ι υ ε υ) (throws : Bool)
  | emplaceError (x : ι) (arg : ResultArg ι υ ε ε) (throws : Bool)
  | destroy (x : ι)

/-- An argument refers to an object that exists. -/
def hasArg (s : Results ι υ ε) {α : Type} : ResultArg ι υ ε α → Bool
  | .given _ => true
  | .member y _ _ => (s.object y).isSome

/-- **One operation**, on objects that exist, or for a constructor on one that does not. -/
def step (s : Results ι υ ε) : Label ι υ ε → Option (Results ι υ ε)
  | .initSuccess x arg throws =>
    if (s.object x).isNone && s.hasArg arg then some (s.initSuccess setup x arg throws) else none
  | .initError x arg throws =>
    if (s.object x).isNone && s.hasArg arg then some (s.initError setup x arg throws) else none
  | .initFrom x y mode throws =>
    match s.object x, s.object y with
    | none, some b => some (s.initFrom setup x y b mode throws)
    | _, _ => none
  | .assign x y mode throws =>
    match s.object x, s.object y with
    | some a, some b => some (s.assign setup x y a b mode throws)
    | _, _ => none
  | .emplaceValue x arg throws =>
    if (s.object x).isSome && s.hasArg arg then some (s.emplaceValue setup x arg throws) else none
  | .emplaceError x arg throws =>
    if (s.object x).isSome && s.hasArg arg then some (s.emplaceError setup x arg throws) else none
  | .destroy x => if (s.object x).isSome then some (s.destroy x) else none

/-- The results as a machine. -/
def machine : Machine (Results ι υ ε) (Label ι υ ε) := ⟨new, step setup⟩

end Results

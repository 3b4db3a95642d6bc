import Mathlib.Data.List.Nodup
import Mathlib.Data.List.Perm.Basic
import SapCore.Result

/-!
# The flag and the union of a `result`

A `result` is in step if its flag names the member that is alive. The operations that destroy
one member and construct another leave the union empty in between, and the flag then names a
member that is not there: a `Hole`. If the construction returns, the hole is filled; if it
throws, the constructors of `result` still get rid of it, because the object never comes to
exist, but an assignment between different alternatives and the two `emplace` functions leave
it behind. These are exactly the steps after which the results are no longer in step, together
with an `emplace` whose arguments refer to the member that it destroys
(`Results.inStep_iff_safe`).
-/

/-! ## Who holds which object -/

/-- **Objects with a single holder.** Of the objects constructed so far, numbered from `0` on,
each was destroyed once or is held in exactly one place. -/
structure Lifetimes {ι : Type} (live : ι → Option ℕ) (constructed : ℕ) (destroyed : List ℕ) :
    Prop where
  nodup : destroyed.Nodup
  mem : ∀ id, id < constructed ↔ id ∈ destroyed ∨ ∃ x, live x = some id
  apart : ∀ x id, live x = some id → id ∉ destroyed
  owner : ∀ x y id, live x = some id → live y = some id → x = y

namespace Lifetimes

variable {ι : Type} {live : ι → Option ℕ} {constructed : ℕ} {destroyed : List ℕ}

/-- **Once nothing is held**, every object was destroyed exactly once. -/
theorem perm_range (h : Lifetimes live constructed destroyed) (hnone : ∀ x, live x = none) :
    destroyed.Perm (List.range constructed) := by
  refine (List.perm_ext_iff_of_nodup h.nodup List.nodup_range).mpr (fun id => ?_)
  rw [List.mem_range, h.mem id]
  simp [hnone]

variable [DecidableEq ι] {x : ι}

/-- An object is constructed, where nothing was held. -/
theorem construct (h : Lifetimes live constructed destroyed) (hx : live x = none) :
    Lifetimes (Function.update live x (some constructed)) (constructed + 1) destroyed := by
  have hlt : ∀ y id, live y = some id → id < constructed := fun y id hy =>
    (h.mem id).mpr (Or.inr ⟨y, hy⟩)
  have hcases : ∀ y id, Function.update live x (some constructed) y = some id →
      (y = x ∧ id = constructed) ∨ (y ≠ x ∧ live y = some id) := by
    intro y id hy
    by_cases hyx : y = x
    · subst hyx
      rw [Function.update_self] at hy
      exact Or.inl ⟨rfl, (Option.some.inj hy).symm⟩
    · rw [Function.update_of_ne hyx] at hy
      exact Or.inr ⟨hyx, hy⟩
  refine ⟨h.nodup, fun id => ⟨fun hid => ?_, ?_⟩, fun y id hy => ?_, fun y z id hy hz => ?_⟩
  · obtain hid | rfl := Nat.lt_succ_iff_lt_or_eq.mp hid
    · obtain hmem | ⟨y, hy⟩ := (h.mem id).mp hid
      · exact Or.inl hmem
      · have hyx : y ≠ x := fun hyx => by
          rw [hyx, hx] at hy
          cases hy
        exact Or.inr ⟨y, by rwa [Function.update_of_ne hyx]⟩
    · exact Or.inr ⟨x, Function.update_self x _ live⟩
  · rintro (hmem | ⟨y, hy⟩)
    · exact Nat.lt_succ_of_lt ((h.mem id).mpr (Or.inl hmem))
    · obtain ⟨-, rfl⟩ | ⟨-, hy⟩ := hcases y id hy
      · exact Nat.lt_succ_self _
      · exact Nat.lt_succ_of_lt (hlt y id hy)
  · obtain ⟨-, rfl⟩ | ⟨-, hy⟩ := hcases y id hy
    · exact fun hmem => absurd ((h.mem id).mpr (Or.inl hmem)) (Nat.lt_irrefl id)
    · exact h.apart y id hy
  · obtain ⟨rfl, hid⟩ | ⟨-, hy⟩ := hcases y id hy
    · obtain ⟨hz, -⟩ | ⟨-, hz⟩ := hcases z id hz
      · exact hz.symm
      · exact absurd (hlt z id hz) (by omega)
    · obtain ⟨-, hid⟩ | ⟨-, hz⟩ := hcases z id hz
      · exact absurd (hlt y id hy) (by omega)
      · exact h.owner y z id hy hz

/-- The object held at `x` is destroyed. -/
theorem destroy (h : Lifetimes live constructed destroyed) {id : ℕ} (hx : live x = some id) :
    Lifetimes (Function.update live x none) constructed (id :: destroyed) := by
  have hcases : ∀ y i, Function.update live x none y = some i → y ≠ x ∧ live y = some i := by
    intro y i hy
    have hyx : y ≠ x := fun hyx => by
      rw [hyx, Function.update_self] at hy
      cases hy
    exact ⟨hyx, by rwa [Function.update_of_ne hyx] at hy⟩
  refine ⟨List.nodup_cons.mpr ⟨h.apart x id hx, h.nodup⟩, fun i => ⟨fun hi => ?_, ?_⟩,
    fun y i hy => ?_, fun y z i hy hz => ?_⟩
  · obtain hmem | ⟨y, hy⟩ := (h.mem i).mp hi
    · exact Or.inl (List.mem_cons_of_mem id hmem)
    · by_cases hyx : y = x
      · rw [hyx, hx] at hy
        cases hy
        exact Or.inl List.mem_cons_self
      · exact Or.inr ⟨y, by rwa [Function.update_of_ne hyx]⟩
  · rintro (hmem | ⟨y, hy⟩)
    · obtain rfl | hmem := List.mem_cons.mp hmem
      · exact (h.mem i).mpr (Or.inr ⟨x, hx⟩)
      · exact (h.mem i).mpr (Or.inl hmem)
    · exact (h.mem i).mpr (Or.inr ⟨y, (hcases y i hy).2⟩)
  · obtain ⟨hyx, hy⟩ := hcases y i hy
    intro hmem
    obtain rfl | hmem := List.mem_cons.mp hmem
    · exact hyx (h.owner y x i hy hx)
    · exact h.apart y i hy hmem
  · exact h.owner y z i (hcases y i hy).2 (hcases z i hz).2

end Lifetimes

/-! ## In step -/

variable {ι υ ε : Type}

/-- **A result is in step**: its flag names the member that is alive. -/
def Result.InStep (a : Result υ ε) : Prop := ∃ m, a.member = some m ∧ m.payload.isLeft = a.hasValue

theorem Result.named_eq {a : Result υ ε} {m : Member υ ε} (hm : a.member = some m)
    (hside : m.payload.isLeft = a.hasValue) : a.named = some m := by
  rw [Result.named, hm]
  exact Option.filter_some_pos (beq_iff_eq.mpr hside)

/-- What the source of an operation holds afterwards is of the same alternative. -/
theorem ResultSetup.isLeft_source (setup : ResultSetup υ ε) (mode : TransferMode) (throws : Bool)
    (p : υ ⊕ ε) : (setup.source mode throws p).isLeft = p.isLeft := by
  cases mode with
  | copy => rfl
  | move => cases throws <;> exact Sum.isLeft_map _ _ p

theorem ResultSetup.isLeft_halfAssigned (setup : ResultSetup υ ε) (p q : υ ⊕ ε) :
    (setup.halfAssigned p q).isLeft = p.isLeft := by
  cases p <;> cases q <;> rfl

namespace Results

/-- Which object is held in the union of `x`. -/
def live (s : Results ι υ ε) (x : ι) : Option ℕ :=
  ((s.object x).bind Result.member).map Member.id

/-- **The results are in step**: each flag names the member that is alive; every `T` and every
`Et` constructed was destroyed once or is the member of exactly one result; and no member was
used that was not alive. -/
structure InStep (s : Results ι υ ε) : Prop where
  fault : s.fault = false
  lifetimes : Lifetimes s.live s.constructed s.destroyed
  object : ∀ x a, s.object x = some a → a.InStep

/-- **All but `x` are in step**, and the union of `x` is empty. -/
structure Hole (s : Results ι υ ε) (x : ι) (hasValue : Bool) : Prop where
  fault : s.fault = false
  lifetimes : Lifetimes s.live s.constructed s.destroyed
  hole : s.object x = some ⟨hasValue, none⟩
  others : ∀ y b, y ≠ x → s.object y = some b → b.InStep

theorem inStep_new : InStep (new : Results ι υ ε) where
  fault := rfl
  lifetimes := ⟨List.nodup_nil, fun id => by simp [new, live],
    fun _ _ hx => (nomatch hx), fun _ _ _ hx => (nomatch hx)⟩
  object _ _ hx := by cases hx

theorem Hole.not_inStep {s : Results ι υ ε} {x : ι} {hasValue : Bool} (h : s.Hole x hasValue) :
    ¬ s.InStep := by
  intro hs
  obtain ⟨m, hm, -⟩ := hs.object x _ h.hole
  cases hm

theorem not_inStep_faulty (s : Results ι υ ε) : ¬ s.faulty.InStep := fun h => by
  cases h.fault

variable {s : Results ι υ ε} {x y : ι} {a b : Result υ ε} {hasValue : Bool}

/-- The member of a result that is in step can be read. -/
theorem named_of_inStep (hx : s.object x = some a) (ha : a.InStep) :
    ∃ m, s.named x = some m ∧ a.member = some m ∧ m.payload.isLeft = a.hasValue := by
  obtain ⟨m, hm, hside⟩ := ha
  refine ⟨m, ?_, hm, hside⟩
  rw [named, hx, Option.bind_some, Result.named_eq hm hside]

theorem Hole.live_eq (hs : s.Hole x hasValue) : s.live x = none := by
  rw [live, hs.hole]
  rfl

variable [DecidableEq ι]

theorem object_set_self (s : Results ι υ ε) (x : ι) (a : Option (Result υ ε)) :
    (s.set x a).object x = a :=
  Function.update_self ..

theorem object_set_of_ne (s : Results ι υ ε) (a : Option (Result υ ε)) (hyx : y ≠ x) :
    (s.set x a).object y = s.object y :=
  Function.update_of_ne hyx _ _

theorem live_set (s : Results ι υ ε) (x : ι) (a : Option (Result υ ε)) :
    (s.set x a).live = Function.update s.live x ((a.bind Result.member).map Member.id) := by
  funext y
  by_cases hyx : y = x
  · subst hyx
    simp [live, set]
  · simp [live, set, hyx]

/-- A write that keeps the member in its place keeps who holds what. -/
theorem live_modify (s : Results ι υ ε) (x : ι) {f : Result υ ε → Result υ ε}
    (hf : ∀ a, (f a).member.map Member.id = a.member.map Member.id) :
    (s.modify x f).live = s.live := by
  rw [modify, live_set]
  refine Function.update_eq_self_iff.mpr ?_
  cases hx : s.object x with
  | none => simp [live, hx]
  | some a =>
    simp only [Option.map_some, Option.bind_some, live, hx]
    exact hf a

@[simp]
theorem live_setPayload (s : Results ι υ ε) (x : ι) (p : υ ⊕ ε) : (s.setPayload x p).live = s.live :=
  s.live_modify x (fun a => by cases a.member <;> rfl)

@[simp]
theorem live_setHasValue (s : Results ι υ ε) (x : ι) (b : Bool) :
    (s.setHasValue x b).live = s.live :=
  s.live_modify x (fun _ => rfl)

theorem object_modify_self (s : Results ι υ ε) (f : Result υ ε → Result υ ε)
    (hx : s.object x = some a) : (s.modify x f).object x = some (f a) := by
  rw [modify, hx, object_set_self, Option.map_some]

theorem object_modify_of_ne (s : Results ι υ ε) (f : Result υ ε → Result υ ε) (hyx : y ≠ x) :
    (s.modify x f).object y = s.object y :=
  s.object_set_of_ne _ hyx

theorem object_setPayload_of_ne (s : Results ι υ ε) (p : υ ⊕ ε) (hyx : y ≠ x) :
    (s.setPayload x p).object y = s.object y :=
  s.object_modify_of_ne _ hyx

/-- A value of the same alternative keeps a result in step. -/
theorem InStep.object_setPayload (hy : s.object y = some b) (hb : b.InStep) {p : υ ⊕ ε}
    (hp : p.isLeft = b.hasValue) :
    ∃ b', (s.setPayload y p).object y = some b' ∧ b'.InStep ∧ b'.hasValue = b.hasValue
      ∧ (s.setPayload y p).named y = b.member.map (fun m => { m with payload := p }) := by
  obtain ⟨m, hm, -⟩ := hb
  have hobject := s.object_modify_self (fun a =>
    { a with member := a.member.map (fun m => { m with payload := p }) }) hy
  have hstep : Result.InStep (Result.mk b.hasValue (b.member.map (fun m => { m with payload := p }))) :=
    ⟨{ m with payload := p }, by rw [hm]; rfl, hp⟩
  refine ⟨_, hobject, hstep, rfl, ?_⟩
  rw [named, setPayload, hobject, Option.bind_some, hm]
  exact Result.named_eq rfl hp

theorem InStep.setPayload (hs : s.InStep) (hy : s.object y = some b) {p : υ ⊕ ε}
    (hp : p.isLeft = b.hasValue) : (s.setPayload y p).InStep where
  fault := hs.fault
  lifetimes := by
    rw [live_setPayload]
    exact hs.lifetimes
  object z c hz := by
    by_cases hzy : z = y
    · subst hzy
      obtain ⟨b', hb', hstep, -⟩ := InStep.object_setPayload hy (hs.object _ b hy) hp
      rw [hb'] at hz
      cases hz
      exact hstep
    · rw [object_setPayload_of_ne s p hzy] at hz
      exact hs.object z c hz

theorem Hole.setPayload (hs : s.Hole x hasValue) (hyx : y ≠ x) (hy : s.object y = some b)
    {p : υ ⊕ ε} (hp : p.isLeft = b.hasValue) : (s.setPayload y p).Hole x hasValue where
  fault := hs.fault
  lifetimes := by
    rw [live_setPayload]
    exact hs.lifetimes
  hole := (object_modify_of_ne s _ (Ne.symm hyx)).trans hs.hole
  others z c hzx hz := by
    by_cases hzy : z = y
    · subst hzy
      obtain ⟨b', hb', hstep, -⟩ := InStep.object_setPayload hy (hs.others _ b hyx hy) hp
      rw [hb'] at hz
      cases hz
      exact hstep
    · rw [object_setPayload_of_ne s p hzy] at hz
      exact hs.others z c hzx hz

/-! ## Making and filling a hole -/

/-- The member of a result is destroyed. -/
theorem InStep.destroyMember (hs : s.InStep) (hx : s.object x = some a) :
    (s.destroyMember x).Hole x a.hasValue := by
  obtain ⟨m, hnamed, hm, -⟩ := named_of_inStep hx (hs.object x a hx)
  have hlive : s.live x = some m.id := by
    rw [live, hx, Option.bind_some, hm]
    rfl
  have hobject := s.object_modify_self (fun a => { a with member := none }) hx
  simp only [Results.destroyMember, hnamed]
  refine ⟨hs.fault, ?_, hobject, fun y b hyx hy => ?_⟩
  · have hafter : (s.modify x (fun a => { a with member := none })).live
        = Function.update s.live x none := by
      rw [modify, live_set, hx]
      rfl
    have hdestroyed := hs.lifetimes.destroy hlive
    rw [← hafter] at hdestroyed
    exact hdestroyed
  · exact hs.object y b ((object_modify_of_ne s _ hyx).symm.trans hy)

/-- A member that is not the one named cannot be read. -/
theorem named_destroyMember (hs : s.InStep) (hx : s.object x = some a) (b : Bool) :
    ((s.destroyMember x).setHasValue x b).named x = none := by
  rw [named, setHasValue, object_modify_self _ _ (hs.destroyMember hx).hole]
  rfl

/-- The flag of an empty union is written. -/
theorem Hole.setHasValue (hs : s.Hole x hasValue) (b : Bool) : (s.setHasValue x b).Hole x b where
  fault := hs.fault
  lifetimes := by
    rw [live_setHasValue]
    exact hs.lifetimes
  hole := s.object_modify_self _ hs.hole
  others y c hyx hy := hs.others y c hyx ((object_modify_of_ne s _ hyx).symm.trans hy)

/-- A result object with an empty union comes to exist. -/
theorem InStep.set_some (hs : s.InStep) (hx : s.object x = none) (b : Bool) :
    (s.set x (some ⟨b, none⟩)).Hole x b where
  fault := hs.fault
  lifetimes := by
    have hlive : Function.update s.live x none = s.live :=
      Function.update_eq_self_iff.mpr (by rw [live, hx]; rfl)
    rw [live_set, Option.bind_some, Option.map_none, hlive]
    exact hs.lifetimes
  hole := s.object_set_self x _
  others y c hyx hy := hs.object y c ((s.object_set_of_ne _ hyx).symm.trans hy)

/-- A result object with an empty union ceases to exist. -/
theorem Hole.set_none (hs : s.Hole x hasValue) : (s.set x none).InStep where
  fault := hs.fault
  lifetimes := by
    have hlive : Function.update s.live x none = s.live :=
      Function.update_eq_self_iff.mpr hs.live_eq.symm
    rw [live_set, Option.bind_none, Option.map_none, hlive]
    exact hs.lifetimes
  object y b hy := by
    have hyx : y ≠ x := fun hyx => by
      subst hyx
      cases (s.object_set_self y none).symm.trans hy
    exact hs.others y b hyx ((s.object_set_of_ne _ hyx).symm.trans hy)

/-- The union is filled. -/
theorem Hole.addMember (hs : s.Hole x hasValue) {p : υ ⊕ ε} (hp : p.isLeft = hasValue) :
    (s.addMember x p).InStep
      ∧ (s.addMember x p).object x = some ⟨hasValue, some ⟨s.constructed, p⟩⟩ := by
  have hobject := s.object_modify_self
    (fun a => { a with member := some ⟨s.constructed, p⟩ }) hs.hole
  refine ⟨⟨hs.fault, ?_, fun y b hy => ?_⟩, hobject⟩
  · have hafter : (s.modify x (fun a => { a with member := some ⟨s.constructed, p⟩ })).live
        = Function.update s.live x (some s.constructed) := by
      rw [modify, live_set, hs.hole]
      rfl
    have hconstructed := hs.lifetimes.construct hs.live_eq
    rw [← hafter] at hconstructed
    exact hconstructed
  · by_cases hyx : y = x
    · subst hyx
      cases hobject.symm.trans hy
      exact ⟨_, rfl, hp⟩
    · exact hs.others y b hyx ((object_modify_of_ne s _ hyx).symm.trans hy)

/-- What is made of an argument. -/
def argValue (s : Results ι υ ε) : ResultArg ι υ ε (υ ⊕ ε) → Option (υ ⊕ ε)
  | .given p => some p
  | .member y _ make => (s.named y).map (fun m => make m.payload)

variable {setup : ResultSetup υ ε} {arg : ResultArg ι υ ε (υ ⊕ ε)}

/-- **What a construction in an empty union does**: apart from the new member it changes only
what the argument refers to. -/
theorem Hole.construct_eq (setup : ResultSetup υ ε) (throws : Bool) (hs : s.Hole x hasValue)
    (hother : ¬ arg.RefersTo x) (harg : s.hasArg arg = true) :
    ∃ s₁ p, s₁.Hole x hasValue ∧ s.argValue arg = some p
      ∧ s.construct setup x arg throws = if throws then s₁ else s₁.addMember x p := by
  cases arg with
  | given p => exact ⟨s, p, hs, rfl, rfl⟩
  | member y mode make =>
    obtain ⟨b, hy⟩ := Option.isSome_iff_exists.mp harg
    obtain ⟨m, hnamed, -, hside⟩ := named_of_inStep hy (hs.others y b hother hy)
    refine ⟨_, make m.payload, hs.setPayload hother hy
      ((setup.isLeft_source mode throws m.payload).trans hside), ?_, ?_⟩
    · rw [argValue, hnamed]
      rfl
    · simp only [Results.construct, hnamed]

/-- A construction that returns fills the union. -/
theorem Hole.construct_returns (hs : s.Hole x hasValue) (hother : ¬ arg.RefersTo x)
    (harg : s.hasArg arg = true) (hside : ∀ p, s.argValue arg = some p → p.isLeft = hasValue) :
    (s.construct setup x arg false).InStep
      ∧ ∃ m, (s.construct setup x arg false).object x = some ⟨hasValue, some m⟩
        ∧ s.argValue arg = some m.payload := by
  obtain ⟨s₁, p, hhole, hvalue, heq⟩ := hs.construct_eq setup false hother harg
  rw [if_neg Bool.false_ne_true] at heq
  obtain ⟨hstep, hobject⟩ := hhole.addMember (hside p hvalue)
  rw [heq]
  exact ⟨hstep, _, hobject, hvalue⟩

/-- A construction that throws leaves the union empty. -/
theorem Hole.construct_throws (hs : s.Hole x hasValue) (hother : ¬ arg.RefersTo x)
    (harg : s.hasArg arg = true) : (s.construct setup x arg true).Hole x hasValue := by
  obtain ⟨s₁, p, hhole, -, heq⟩ := hs.construct_eq setup true hother harg
  rw [heq, if_pos rfl]
  exact hhole

/-! ## The operations -/

omit [DecidableEq ι] in
/-- What can be made of an argument depends only on the objects it refers to. -/
theorem arg_congr (arg : ResultArg ι υ ε (υ ⊕ ε)) {s s' : Results ι υ ε}
    (h : ∀ y, arg.RefersTo y → s'.object y = s.object y) :
    s'.hasArg arg = s.hasArg arg ∧ s'.argValue arg = s.argValue arg := by
  cases arg with
  | given p => exact ⟨rfl, rfl⟩
  | member y mode make =>
    have hy := h y rfl
    simp only [hasArg, argValue, named, hy, and_self]

omit [DecidableEq ι] in
/-- An argument that is made into something of one alternative. -/
theorem isLeft_of_argValue {α : Type} {f : α → υ ⊕ ε} (hf : ∀ c, (f c).isLeft = hasValue)
    (arg : ResultArg ι υ ε α) {p : υ ⊕ ε} (hp : s.argValue (arg.map f) = some p) :
    p.isLeft = hasValue := by
  cases arg with
  | given c =>
    obtain rfl := Option.some.inj hp
    exact hf c
  | member y mode make =>
    obtain ⟨m, -, rfl⟩ := Option.map_eq_some_iff.mp hp
    exact hf (make m.payload)

omit [DecidableEq ι] in
theorem hasArg_member (hy : s.object y = some b) (mode : TransferMode) :
    s.hasArg (.member y mode (id : υ ⊕ ε → υ ⊕ ε)) = true :=
  Option.isSome_iff_exists.mpr ⟨b, hy⟩

omit [DecidableEq ι] in
/-- A member that is copied or moved is of the alternative that the flag of its result says. -/
theorem InStep.isLeft_member (hs : s.InStep) (hy : s.object y = some b) (mode : TransferMode)
    (p : υ ⊕ ε) (hp : s.argValue (.member y mode id) = some p) : p.isLeft = b.hasValue := by
  obtain ⟨m, hm, -, hside⟩ := named_of_inStep hy (hs.object y b hy)
  rw [argValue, hm] at hp
  obtain rfl := Option.some.inj hp
  exact hside

/-- **A constructor** leaves the results in step, whether it throws or not. -/
theorem InStep.initWith (hs : s.InStep) (hx : s.object x = none) (harg : s.hasArg arg = true)
    (hside : ∀ p, s.argValue arg = some p → p.isLeft = hasValue) (throws : Bool) :
    (s.initWith setup x hasValue arg throws).InStep := by
  have hother : ¬ arg.RefersTo x := fun hrefers => by
    cases arg with
    | given p => exact hrefers
    | member y mode make =>
      obtain rfl : y = x := hrefers
      rw [hasArg, hx] at harg
      cases harg
  obtain ⟨harg', hvalue⟩ := arg_congr arg (fun y hy =>
    s.object_set_of_ne (x := x) (some ⟨hasValue, none⟩) (fun hyx => hother (hyx ▸ hy)))
  have hhole := hs.set_some hx hasValue
  rw [← harg'] at harg
  simp only [← hvalue] at hside
  cases throws with
  | false => exact (hhole.construct_returns hother harg hside).1
  | true => exact (hhole.construct_throws hother harg).set_none

/-- The member of a result is destroyed, and its flag is written. -/
theorem InStep.reopen (hs : s.InStep) (hx : s.object x = some a) (b : Bool) :
    ((s.destroyMember x).setHasValue x b).Hole x b
      ∧ ∀ y, y ≠ x → ((s.destroyMember x).setHasValue x b).object y = s.object y := by
  refine ⟨(hs.destroyMember hx).setHasValue b, fun y hyx => ?_⟩
  obtain ⟨m, hnamed, -⟩ := named_of_inStep hx (hs.object x a hx)
  rw [setHasValue, object_modify_of_ne _ _ hyx]
  simp only [Results.destroyMember, hnamed]
  exact object_modify_of_ne s _ hyx

/-- **An `emplace` that returns**, with arguments that do not refer to the member it destroys. -/
theorem InStep.emplace_returns (setup : ResultSetup υ ε) (hs : s.InStep)
    (hx : s.object x = some a) (hother : ¬ arg.RefersTo x) (harg : s.hasArg arg = true)
    (hside : ∀ p, s.argValue arg = some p → p.isLeft = hasValue) :
    (s.emplace setup x hasValue arg false).InStep
      ∧ ∃ m, (s.emplace setup x hasValue arg false).object x = some ⟨hasValue, some m⟩
        ∧ s.argValue arg = some m.payload := by
  obtain ⟨hhole, hkept⟩ := hs.reopen hx hasValue
  obtain ⟨harg', hvalue⟩ := arg_congr arg (fun y hy =>
    hkept y (fun hyx => hother (hyx ▸ hy)))
  rw [← hvalue]
  rw [← harg'] at harg
  simp only [← hvalue] at hside
  exact hhole.construct_returns hother harg hside

/-- **When an `emplace` leaves the results in step.** -/
theorem InStep.emplace_iff (setup : ResultSetup υ ε) (hs : s.InStep) (hx : s.object x = some a)
    (harg : s.hasArg arg = true)
    (hside : ∀ p, s.argValue arg = some p → p.isLeft = hasValue) (throws : Bool) :
    (s.emplace setup x hasValue arg throws).InStep ↔ throws = false ∧ ¬ arg.RefersTo x := by
  obtain ⟨hhole, hkept⟩ := hs.reopen hx hasValue
  by_cases hrefers : arg.RefersTo x
  · refine ⟨fun h => absurd h ?_, fun h => absurd hrefers h.2⟩
    cases arg with
    | given p => exact hrefers.elim
    | member y mode make =>
      obtain rfl : y = x := hrefers
      -- the member to be read is the one that was destroyed
      simp only [emplace, construct, named_destroyMember hs hx]
      exact not_inStep_faulty _
  · cases throws with
    | false =>
      exact ⟨fun _ => ⟨rfl, hrefers⟩, fun _ => (hs.emplace_returns setup hx hrefers harg hside).1⟩
    | true =>
      have harg' := (arg_congr arg (fun y hy =>
        hkept y (fun hyx => hrefers (hyx ▸ hy)))).1
      refine ⟨fun h => absurd h ?_, fun h => absurd h.1 (by decide)⟩
      exact (hhole.construct_throws hrefers (harg'.trans harg)).not_inStep

/-- **An assignment between results of one alternative.** -/
theorem InStep.assignMember (hs : s.InStep) (hx : s.object x = some a) (hy : s.object y = some b)
    (hxy : x ≠ y) (hsame : a.hasValue = b.hasValue) (mode : TransferMode) (throws : Bool) :
    (s.assignMember setup x y mode throws).InStep
      ∧ (throws = false → ∃ a', (s.assignMember setup x y mode throws).object x = some a'
        ∧ a'.hasValue = b.hasValue
        ∧ ((s.assignMember setup x y mode throws).named x).map Member.payload
          = (s.named y).map Member.payload) := by
  obtain ⟨m, hm, hmember, hmside⟩ := named_of_inStep hx (hs.object x a hx)
  obtain ⟨n, hn, -, hnside⟩ := named_of_inStep hy (hs.object y b hy)
  have hp : (if throws then setup.halfAssigned m.payload n.payload else n.payload).isLeft
      = a.hasValue := by
    split
    · rw [setup.isLeft_halfAssigned, hmside]
    · rw [hnside, hsame]
  have hq : (setup.source mode throws n.payload).isLeft = b.hasValue := by
    rw [setup.isLeft_source, hnside]
  simp only [Results.assignMember, hm, hn]
  have htarget := hs.setPayload hx hp
  have hy' := (s.object_setPayload_of_ne
    (if throws then setup.halfAssigned m.payload n.payload else n.payload) hxy.symm).trans hy
  refine ⟨htarget.setPayload hy' hq, fun hthrows => ?_⟩
  obtain ⟨a', ha', -, hvalue, hnamed⟩ := InStep.object_setPayload hx (hs.object x a hx) hp
  have hx' := (object_setPayload_of_ne _ (setup.source mode throws n.payload) hxy).trans ha'
  refine ⟨a', hx', hvalue.trans hsame, ?_⟩
  rw [named, hx', Option.bind_some]
  rw [named, ha', Option.bind_some, hmember] at hnamed
  rw [hnamed, if_neg (by rw [hthrows]; decide)]
  rfl

/-- **When an assignment leaves the results in step.** -/
theorem InStep.assign_iff (hs : s.InStep) (hx : s.object x = some a) (hy : s.object y = some b)
    (mode : TransferMode) (throws : Bool) :
    (s.assign setup x y a b mode throws).InStep
      ↔ (throws = true → x = y ∨ a.hasValue = b.hasValue) := by
  unfold assign
  split
  · rename_i hxy
    exact ⟨fun _ _ => Or.inl hxy, fun _ => hs⟩
  · rename_i hxy
    split
    · rename_i hsame
      exact ⟨fun _ _ => Or.inr hsame, fun _ => (hs.assignMember hx hy hxy hsame mode throws).1⟩
    · rename_i hdiffer
      -- the code is that of `emplace`, with the source's member for argument
      have hiff := hs.emplace_iff setup hx (hasArg_member hy mode)
        (hs.isLeft_member hy mode) throws
      refine hiff.trans ⟨fun h hthrows => ?_, fun h => ⟨?_, fun hyx => hxy (Eq.symm hyx)⟩⟩
      · rw [h.1] at hthrows
        cases hthrows
      · cases throws with
        | false => rfl
        | true =>
          obtain h | h := h rfl
          · exact absurd h hxy
          · exact absurd h hdiffer

/-! ## Runs -/

/-- **The condition on a step**: an assignment between different alternatives does not throw, nor
does an `emplace`, and the arguments of an `emplace` do not refer to the member it destroys. -/
def Safe (s : Results ι υ ε) : Label ι υ ε → Prop
  | .assign x y _ throws => throws = true → ∀ a b, s.object x = some a → s.object y = some b →
      x = y ∨ a.hasValue = b.hasValue
  | .emplaceValue x arg throws => s.object x ≠ none → s.hasArg arg = true →
      throws = false ∧ ¬ arg.RefersTo x
  | .emplaceError x arg throws => s.object x ≠ none → s.hasArg arg = true →
      throws = false ∧ ¬ arg.RefersTo x
  | _ => True

omit [DecidableEq ι] in
theorem refersTo_map {α β : Type} (f : α → β) (arg : ResultArg ι υ ε α) :
    (arg.map f).RefersTo x ↔ arg.RefersTo x := by
  cases arg <;> rfl

omit [DecidableEq ι] in
theorem hasArg_map {α β : Type} (f : α → β) (arg : ResultArg ι υ ε α) :
    s.hasArg (arg.map f) = s.hasArg arg := by
  cases arg <;> rfl

/-- **When `emplace_value` and `emplace_error` leave the results in step.** -/
theorem InStep.emplace_map_iff (setup : ResultSetup υ ε) (hs : s.InStep) {α : Type}
    {f : α → υ ⊕ ε} (hf : ∀ c, (f c).isLeft = hasValue) (arg : ResultArg ι υ ε α) (throws : Bool) :
    (∀ s', (if (s.object x).isSome && s.hasArg arg then
        some (s.emplace setup x hasValue (arg.map f) throws) else none) = some s' → s'.InStep)
      ↔ (s.object x ≠ none → s.hasArg arg = true → throws = false ∧ ¬ arg.RefersTo x) := by
  have hiff : s.object x ≠ none → s.hasArg arg = true →
      ((s.emplace setup x hasValue (arg.map f) throws).InStep
        ↔ throws = false ∧ ¬ arg.RefersTo x) := by
    intro hx harg
    obtain ⟨a, ha⟩ := Option.ne_none_iff_exists'.mp hx
    rw [← refersTo_map f arg]
    exact hs.emplace_iff setup ha ((hasArg_map f arg).trans harg)
      (fun p hp => isLeft_of_argValue hf arg hp) throws
  simp only [Option.ite_none_right_eq_some, Option.some.injEq, Bool.and_eq_true,
    Option.isSome_iff_ne_none]
  refine ⟨fun h hx harg => (hiff hx harg).mp (h _ ⟨⟨hx, harg⟩, rfl⟩), ?_⟩
  rintro h s' ⟨⟨hx, harg⟩, rfl⟩
  exact (hiff hx harg).mpr (h hx harg)

/-- **A tagged constructor** leaves the results in step. -/
theorem InStep.initWith_map (setup : ResultSetup υ ε) (hs : s.InStep) {α : Type}
    {f : α → υ ⊕ ε} (hf : ∀ c, (f c).isLeft = hasValue) (arg : ResultArg ι υ ε α) (throws : Bool)
    {s' : Results ι υ ε} (h : (if (s.object x).isNone && s.hasArg arg then
      some (s.initWith setup x hasValue (arg.map f) throws) else none) = some s') : s'.InStep := by
  rw [Option.ite_none_right_eq_some, Bool.and_eq_true, Option.isNone_iff_eq_none] at h
  obtain ⟨⟨hx, harg⟩, hs'⟩ := h
  cases hs'
  exact hs.initWith hx ((hasArg_map f arg).trans harg)
    (fun p hp => isLeft_of_argValue hf arg hp) throws

/-- **One step.** It leaves the results in step exactly if it meets the condition. -/
theorem InStep.step_iff (setup : ResultSetup υ ε) (hs : s.InStep) (label : Label ι υ ε) :
    (∀ s', step setup s label = some s' → s'.InStep) ↔ s.Safe label := by
  cases label with
  | initSuccess x arg throws =>
    refine iff_of_true (fun s' h => ?_) trivial
    exact hs.initWith_map setup (fun _ => Sum.isLeft_inl) arg throws h
  | initError x arg throws =>
    refine iff_of_true (fun s' h => ?_) trivial
    exact hs.initWith_map setup (fun _ => Sum.isLeft_inr) arg throws h
  | initFrom x y mode throws =>
    simp only [step, Safe, iff_true]
    intro s' h
    split at h
    · rename_i b hx hy
      cases h
      exact hs.initWith hx (hasArg_member hy mode) (hs.isLeft_member hy mode) throws
    · cases h
  | assign x y mode throws =>
    simp only [step, Safe]
    refine ⟨fun h hthrows a b hx hy => ?_, fun h s' hstep => ?_⟩
    · rw [hx, hy] at h
      exact (hs.assign_iff hx hy mode throws).mp (h _ rfl) hthrows
    · split at hstep
      · rename_i a b hx hy
        cases hstep
        exact (hs.assign_iff hx hy mode throws).mpr (fun hthrows => h hthrows a b hx hy)
      · cases hstep
  | emplaceValue x arg throws =>
    exact hs.emplace_map_iff setup (fun _ => Sum.isLeft_inl) arg throws
  | emplaceError x arg throws =>
    exact hs.emplace_map_iff setup (fun _ => Sum.isLeft_inr) arg throws
  | destroy x =>
    simp only [step, Safe, Option.ite_none_right_eq_some, Option.some.injEq, and_imp, iff_true]
    rintro s' h rfl
    obtain ⟨a, hx⟩ := Option.isSome_iff_exists.mp h
    exact (hs.destroyMember hx).set_none

/-- **An assignment that returns** makes the target hold what the source held. -/
theorem InStep.assign_returns (setup : ResultSetup υ ε) (hs : s.InStep) (hx : s.object x = some a)
    (hy : s.object y = some b) (mode : TransferMode) :
    ∃ a', (s.assign setup x y a b mode false).object x = some a'
      ∧ a'.hasValue = b.hasValue
      ∧ ((s.assign setup x y a b mode false).named x).map Member.payload
        = (s.named y).map Member.payload := by
  unfold assign
  split
  · rename_i hxy
    subst hxy
    exact ⟨a, hx, by rw [Option.some.inj (hx.symm.trans hy)], rfl⟩
  · rename_i hxy
    split
    · rename_i hsame
      exact (hs.assignMember hx hy hxy hsame mode false).2 rfl
    · have hother : ¬ (ResultArg.member y mode (id : υ ⊕ ε → υ ⊕ ε)).RefersTo x :=
        fun hyx => hxy (Eq.symm hyx)
      obtain ⟨hstep, m, hobject, hvalue⟩ := hs.emplace_returns setup hx hother
        (hasArg_member hy mode) (hs.isLeft_member hy mode)
      refine ⟨_, hobject, rfl, ?_⟩
      obtain ⟨m', hm', hmember, -⟩ := named_of_inStep hobject (hstep.object x _ hobject)
      obtain rfl := Option.some.inj hmember
      exact (congrArg _ hm').trans hvalue.symm

/-- **When the flag and the union stay in step.** In every run, the results are in step after
every operation exactly if every operation meets the condition. In a run whose operations do,
all that was constructed has been destroyed exactly once when no result is left, and an
assignment that returns makes the target hold the alternative and the value of the source. -/
theorem inStep_iff_safe (setup : ResultSetup υ ε) (labels : List (Label ι υ ε)) :
    ((machine setup).Along (fun s label => ∀ s', step setup s label = some s' → s'.InStep)
        new labels
      ↔ (machine setup).Along Safe new labels)
    ∧ ∀ s, (machine setup).Along Safe new labels → (machine setup).run new labels = some s →
      ((∀ x, s.object x = none) → s.destroyed.Perm (List.range s.constructed))
      ∧ ∀ x y a b mode, s.object x = some a → s.object y = some b →
        ∃ s' a', step setup s (.assign x y mode false) = some s' ∧ s'.object x = some a'
          ∧ a'.hasValue = b.hasValue
          ∧ (s'.named x).map Member.payload = (s.named y).map Member.payload := by
  refine ⟨Machine.along_iff (P := fun _ _ s' => s'.InStep) (fun _ _ _ h => h)
    (fun s label hs => hs.step_iff setup label) inStep_new, fun s hsafe hrun => ?_⟩
  have hs : s.InStep := by
    have hreachable := Machine.ReachableBy.init.run_along hsafe hrun
    refine hreachable.invariant inStep_new (fun s label s' _ hs hC hstep => ?_)
    exact (hs.step_iff setup label).mpr hC s' hstep
  refine ⟨fun hnone => hs.lifetimes.perm_range (fun x => ?_), fun x y a b mode hx hy => ?_⟩
  · rw [live, hnone x]
    rfl
  · obtain ⟨a', hassign⟩ := hs.assign_returns setup hx hy mode
    refine ⟨_, a', ?_, hassign⟩
    simp only [step, hx, hy]

/-- Values and errors that are numbers. -/
def numbers : ResultSetup ℕ ℕ := ⟨⟨id, id, fun v _ => v⟩, ⟨id, id, fun e _ => e⟩⟩

/-- A value and an error. -/
def valueAndError : List (Label ℕ ℕ ℕ) :=
  [.initSuccess 0 (.given 1) false, .initError 1 (.given 2) false]

/-- The error is assigned to the result that has the value. -/
theorem inStep_iff_safe_assignError :
    ∃ s, (machine numbers).run new valueAndError = some s
      ∧ ∃ s' a', step numbers s (.assign 0 1 .copy false) = some s' ∧ s'.object 0 = some a'
        ∧ a'.hasValue = false ∧ (s'.named 0).map Member.payload = some (.inr 2) := by
  have hsafe : (machine numbers).Along Safe new valueAndError := by
    refine Machine.along_of_forall (fun label hlabel s => ?_)
    obtain rfl | rfl : label = .initSuccess 0 (.given 1) false ∨
      label = .initError 1 (.given 2) false := by simpa [valueAndError] using hlabel
    · trivial
    · trivial
  exact ⟨_, rfl, ((inStep_iff_safe numbers valueAndError).2 _ hsafe rfl).2 0 1 _ _ .copy rfl rfl⟩

/-- **A constructor that throws leaves the union empty.** The error is assigned to the result
that has the value, and the copy constructor of the error throws; or the value is replaced by
`emplace_value`, and its constructor throws. Neither is in step, and the destructors of the
results then destroy a member that is not alive. -/
theorem throwing_leaves_hole :
    ¬ (machine numbers).Along (fun s label => ∀ s', step numbers s label = some s' → s'.InStep)
        new (valueAndError ++ [.assign 0 1 .copy true])
      ∧ ¬ (machine numbers).Along (fun s label => ∀ s', step numbers s label = some s' → s'.InStep)
        new (valueAndError ++ [.emplaceValue 0 (.given 3) true])
      ∧ ((machine numbers).run new (valueAndError ++ [.assign 0 1 .copy true, .destroy 0])).map
        Results.fault = some true
      ∧ ((machine numbers).run new
        (valueAndError ++ [.emplaceValue 0 (.given 3) true, .destroy 0])).map Results.fault
          = some true := by
  refine ⟨fun h => ?_, fun h => ?_, rfl, rfl⟩
  · obtain ⟨m, hm, -⟩ := ((h.2 _ rfl).2 _ rfl |>.1 _ rfl).object 0 _ rfl
    cases hm
  · obtain ⟨m, hm, -⟩ := ((h.2 _ rfl).2 _ rfl |>.1 _ rfl).object 0 _ rfl
    cases hm

end Results

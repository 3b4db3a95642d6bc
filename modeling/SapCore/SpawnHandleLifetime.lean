import SapCore.SpawnHandle

/-!
# The lifetime of a runner's frame

A frame has one owner at a time: the handle that holds it, or – once that is released
before the runner is done – the runner itself. The flag `handle_dropped` says which,
and the two sides never both destroy the frame nor both leave it (`SpawnFrame.Ok`).
What a runner resumes at its end is the continuation in its promise, the last one an
awaiter recorded, and only where a handle still holds the frame.
-/

/-- **A frame and its owner agree**; `held` says that a handle holds the frame. -/
structure SpawnFrame.Ok {κ ρ : Type} (f : SpawnFrame κ ρ) (held : Prop) : Prop where
  unborn : f.body = .unborn → ¬ held ∧ f.handleDropped = false
  pending : f.body ≠ .final → f.destroyed = 0 ∧ f.resumed = []
  owned : held → f.destroyed = 0 ∧ f.handleDropped = false
  orphan : f.body ≠ .unborn → f.body ≠ .final → ¬ held → f.handleDropped = true
  gone : f.body = .final → ¬ held → f.destroyed = 1
  continuation : f.continuation = f.recorded.getLast?
  resumed : f.body = .final →
    f.resumed = if f.handleDropped then [] else f.recorded.getLast?.toList

/-- **What a step leaves of a frame** whose runner it does not end: nothing is resumed, the
continuations `ks` are recorded, and a runner that has ended stays ended. -/
structure SpawnFrame.Keeps {κ ρ : Type} (f f' : SpawnFrame κ ρ) (ks : List κ) : Prop where
  resumed : f'.resumed = f.resumed
  recorded : f'.recorded = f.recorded ++ ks
  final : f.body = .final → f'.body = .final

theorem SpawnFrame.Keeps.refl {κ ρ : Type} (f : SpawnFrame κ ρ) : f.Keeps f [] :=
  ⟨rfl, (List.append_nil _).symm, id⟩

namespace Spawned

variable {ι ν κ ρ : Type}

/-- A handle holds the frame. -/
def Owned (s : Spawned ι ν κ ρ) (r : ι) : Prop := ∃ x, s.handle x = some (some r)

/-- **What holds in every state.** -/
structure Inv (s : Spawned ι ν κ ρ) : Prop where
  frames : ∀ r, (s.frame r).Ok (s.Owned r)
  unique : ∀ x y r, s.handle x = some (some r) → s.handle y = some (some r) → x = y
  fault : s.fault = false

theorem inv_new : Inv (new : Spawned ι ν κ ρ) where
  frames r := {
    unborn := fun _ => ⟨fun ⟨_, hx⟩ => absurd hx (by simp [new]), rfl⟩
    pending := fun _ => ⟨rfl, rfl⟩
    owned := fun _ => ⟨rfl, rfl⟩
    orphan := fun hbody => absurd rfl hbody
    gone := fun hbody => by cases hbody
    continuation := rfl
    resumed := fun hbody => by cases hbody }
  unique _ _ _ hx := by cases hx
  fault := rfl

variable {s s' : Spawned ι ν κ ρ} {r : ι} {x y : ν}

/-- The frame that a handle holds is not destroyed. -/
theorem Inv.destroyed_of_handle (hs : Inv s) (hx : s.handle x = some (some r)) :
    (s.frame r).destroyed = 0 :=
  ((hs.frames r).owned ⟨x, hx⟩).1

theorem Inv.touch (hs : Inv s) (hdestroyed : (s.frame r).destroyed = 0) : Inv (s.touch r) :=
  { hs with
    frames := hs.frames
    fault := by
      show (s.fault || decide _) = false
      rw [hs.fault, hdestroyed]
      rfl }

theorem Inv.useHandle (hs : Inv s) (x : ν) : Inv (s.useHandle x) := by
  unfold Spawned.useHandle
  split
  · rename_i r hx
    exact hs.touch (hs.destroyed_of_handle hx)
  · exact hs

@[simp] theorem touch_frame (s : Spawned ι ν κ ρ) (r : ι) : (s.touch r).frame = s.frame := rfl

@[simp] theorem useHandle_frame (s : Spawned ι ν κ ρ) (x : ν) :
    (s.useHandle x).frame = s.frame := by
  unfold useHandle
  split
  · rfl
  · rfl

theorem useHandle_awaits (s : Spawned ι ν κ ρ) (x : ν) : (s.useHandle x).awaits = s.awaits := by
  unfold useHandle
  split
  · rfl
  · rfl

/-- Where the same frames are held. -/
theorem Inv.handles (hs : Inv s) (hframe : s'.frame = s.frame) (hfault : s'.fault = s.fault)
    (howned : ∀ r, s'.Owned r ↔ s.Owned r)
    (hunique : ∀ x y r, s'.handle x = some (some r) → s'.handle y = some (some r) → x = y) :
    Inv s' where
  frames r := by
    rw [hframe, propext (howned r)]
    exact hs.frames r
  unique := hunique
  fault := hfault.trans hs.fault

section

variable [DecidableEq κ]

theorem Inv.setAwaits (hs : Inv s) (k : κ) (x : Option ν) : Inv (s.setAwaits k x) :=
  hs.handles rfl rfl (fun _ => Iff.rfl) hs.unique

theorem Inv.wake (hs : Inv s) (k : κ) : Inv (s.wake k) := by
  unfold Spawned.wake
  split
  · exact (hs.useHandle _).setAwaits k none
  · exact hs

@[simp] theorem setAwaits_frame (s : Spawned ι ν κ ρ) (k : κ) (x : Option ν) :
    (s.setAwaits k x).frame = s.frame := rfl

@[simp] theorem wake_frame (s : Spawned ι ν κ ρ) (k : κ) : (s.wake k).frame = s.frame := by
  unfold wake
  split
  · exact useHandle_frame s _
  · rfl

/-- A coroutine that goes on is suspended in no `co_await`, and the others are where they
were. -/
theorem wake_awaits (s : Spawned ι ν κ ρ) (k k' : κ) :
    (s.wake k).awaits k' = if k = k' then none else s.awaits k' := by
  unfold wake
  split
  · show Function.update (s.useHandle _).awaits k none k' = _
    rw [useHandle_awaits, Function.update_apply]
    exact if_congr eq_comm rfl rfl
  · rename_i hnone
    split
    · rename_i hk
      rw [← hk, hnone]
    · rfl

end

/-! ## Handles -/

section

variable [DecidableEq ν]

@[simp] theorem setHandle_frame (s : Spawned ι ν κ ρ) (x : ν) (h : Option (Option ι)) :
    (s.setHandle x h).frame = s.frame := rfl

@[simp] theorem setHandle_handle (s : Spawned ι ν κ ρ) (x y : ν) (h : Option (Option ι)) :
    (s.setHandle x h).handle y = if y = x then h else s.handle y :=
  Function.update_apply _ _ _ _

theorem take_handle (s : Spawned ι ν κ ρ) (x y z : ν) :
    (s.take x y).handle z
      = if z = y then some none else if z = x then s.handle y else s.handle z := by
  unfold take
  rw [setHandle_handle, setHandle_handle]

/-- A handle that holds no frame is constructed or destroyed. -/
theorem Inv.setHandle (hs : Inv s) (hx : ∀ r, s.handle x ≠ some (some r)) {h : Option (Option ι)}
    (hh : ∀ r, h ≠ some (some r)) : Inv (s.setHandle x h) := by
  have hiff : ∀ z r, (s.setHandle x h).handle z = some (some r) ↔ s.handle z = some (some r) := by
    intro z r
    rw [setHandle_handle]
    split
    · rename_i hz
      rw [hz]
      exact ⟨fun heq => absurd heq (hh r), fun heq => absurd heq (hx r)⟩
    · exact Iff.rfl
  refine hs.handles rfl rfl (fun r => exists_congr (fun z => hiff z r)) (fun z z' r hz hz' => ?_)
  exact hs.unique z z' r ((hiff z r).mp hz) ((hiff z' r).mp hz')

/-- A handle that holds no frame takes the frame of another. -/
theorem Inv.take (hs : Inv s) (hxy : x ≠ y) (hx : ∀ r, s.handle x ≠ some (some r)) :
    Inv (s.take x y) := by
  have hiff : ∀ z r, (s.take x y).handle z = some (some r)
      ↔ (z = x ∧ s.handle y = some (some r)) ∨ (z ≠ x ∧ z ≠ y ∧ s.handle z = some (some r)) := by
    intro z r
    rw [take_handle]
    split
    · rename_i hz
      subst hz
      simp [Ne.symm hxy]
    · rename_i hz
      split
      · rename_i hz'
        simp [hz']
      · rename_i hz'
        simp [hz, hz']
  refine hs.handles rfl rfl (fun r => ⟨?_, ?_⟩) (fun z z' r hz hz' => ?_)
  · rintro ⟨z, hz⟩
    obtain ⟨-, hy⟩ | ⟨-, -, hz⟩ := (hiff z r).mp hz
    · exact ⟨y, hy⟩
    · exact ⟨z, hz⟩
  · rintro ⟨z, hz⟩
    by_cases hzy : z = y
    · subst hzy
      exact ⟨x, (hiff x r).mpr (Or.inl ⟨rfl, hz⟩)⟩
    · have hzx : z ≠ x := fun heq => hx r (heq ▸ hz)
      exact ⟨z, (hiff z r).mpr (Or.inr ⟨hzx, hzy, hz⟩)⟩
  · obtain ⟨hzx, hy⟩ | ⟨hzx, hzy, hz⟩ := (hiff z r).mp hz
    · obtain ⟨hzx', -⟩ | ⟨-, hzy', hz'⟩ := (hiff z' r).mp hz'
      · rw [hzx, hzx']
      · exact absurd (hs.unique z' y r hz' hy) hzy'
    · obtain ⟨-, hy⟩ | ⟨-, -, hz'⟩ := (hiff z' r).mp hz'
      · exact absurd (hs.unique z y r hz hy) hzy
      · exact hs.unique z z' r hz hz'

end

/-! ## The operations -/

variable [DecidableEq ι]

/-- **A write to a frame that is not destroyed.** -/
theorem Inv.modify (hs : Inv s) (hdestroyed : (s.frame r).destroyed = 0)
    {f : SpawnFrame κ ρ → SpawnFrame κ ρ} (hok : (f (s.frame r)).Ok (s.Owned r)) :
    Inv (s.modify r f) :=
  { hs.touch hdestroyed with
    frames := fun r' => by
      show (Function.update s.frame r _ r').Ok (s.Owned r')
      by_cases hr : r' = r
      · subst hr
        rw [Function.update_self]
        exact hok
      · rw [Function.update_of_ne hr]
        exact hs.frames r' }

@[simp] theorem modify_frame_self (f : SpawnFrame κ ρ → SpawnFrame κ ρ) :
    (s.modify r f).frame r = f (s.frame r) :=
  Function.update_self _ _ _

theorem modify_frame_of_ne {r' : ι} (hr : r' ≠ r) (f : SpawnFrame κ ρ → SpawnFrame κ ρ) :
    (s.modify r f).frame r' = s.frame r' :=
  Function.update_of_ne hr _ _

/-- A write that keeps its frame keeps every one. -/
theorem modify_keeps {f : SpawnFrame κ ρ → SpawnFrame κ ρ}
    (hf : (s.frame r).Keeps (f (s.frame r)) []) (r' : ι) :
    (s.frame r').Keeps ((s.modify r f).frame r') [] := by
  by_cases hr : r' = r
  · rw [hr, modify_frame_self]
    exact hf
  · rw [modify_frame_of_ne hr]
    exact .refl _

/-- Two writes to a frame, of which the first does not destroy it, are one. -/
theorem modify_modify {f g : SpawnFrame κ ρ → SpawnFrame κ ρ}
    (hf : (f (s.frame r)).destroyed = (s.frame r).destroyed) :
    (s.modify r f).modify r g = s.modify r (fun frame => g (f frame)) := by
  unfold Spawned.modify
  simp [hf]

/-- A runner is suspended, or resumed. -/
theorem Inv.setBody (hs : Inv s) (hunborn : (s.frame r).body ≠ .unborn)
    (hfinal : (s.frame r).body ≠ .final) {body : Body} (hunborn' : body ≠ .unborn)
    (hfinal' : body ≠ .final) : Inv (s.modify r (fun f => { f with body := body })) := by
  have hf := hs.frames r
  refine hs.modify (hf.pending hfinal).1 ?_
  exact {
    unborn := fun hb => absurd hb hunborn'
    pending := fun _ => hf.pending hfinal
    owned := hf.owned
    orphan := fun _ _ => hf.orphan hunborn hfinal
    gone := fun hb => absurd hb hfinal'
    continuation := hf.continuation
    resumed := fun hb => absurd hb hfinal' }

section

variable [DecidableEq κ] {k : κ}

theorem Inv.coAwait (hs : Inv s) (hx : s.handle x = some (some r)) (k : κ) :
    Inv (s.coAwait x r k) := by
  unfold Spawned.coAwait
  split
  · exact hs.useHandle x
  · rename_i hbody
    have hf := hs.frames r
    refine (hs.modify (hs.destroyed_of_handle hx) ?_).setAwaits k (some x)
    exact { hf with
      continuation := List.getLast?_concat.symm
      resumed := fun hb => absurd hb hbody }

theorem complete_of_dropped (hdropped : (s.frame r).handleDropped = true) (result : ρ) :
    s.complete r result = s.modify r (fun f =>
      { f with body := .final, result := some result, destroyed := f.destroyed + 1 }) := by
  unfold complete finalSuspend
  rw [modify_frame_self, if_pos hdropped]
  exact modify_modify rfl

theorem complete_of_continuation (hdropped : (s.frame r).handleDropped = false)
    (hk : (s.frame r).continuation = some k) (result : ρ) :
    s.complete r result = (s.modify r (fun f =>
      { f with body := .final, result := some result, resumed := f.resumed ++ [k] })).wake k := by
  unfold complete finalSuspend
  rw [modify_frame_self, if_neg (by simp [hdropped])]
  dsimp only
  rw [hk]
  exact congrArg (Spawned.wake · k) (modify_modify rfl)

theorem complete_of_none (hdropped : (s.frame r).handleDropped = false)
    (hk : (s.frame r).continuation = none) (result : ρ) :
    s.complete r result
      = (s.modify r (fun f => { f with body := .final, result := some result })).touch r := by
  unfold complete finalSuspend
  rw [modify_frame_self, if_neg (by simp [hdropped])]
  dsimp only
  rw [hk]

/-- **The end of a runner**: its frame is destroyed where its handle was released, and
the recorded continuation is resumed where it was not. -/
theorem Inv.complete (hs : Inv s) (hbody : (s.frame r).body = .running) (result : ρ) :
    Inv (s.complete r result) := by
  have hf := hs.frames r
  obtain ⟨hdestroyed, hresumed⟩ := hf.pending (by simp [hbody])
  cases hdropped : (s.frame r).handleDropped with
  | true =>
    have hheld : ¬ s.Owned r := fun hheld => by
      rw [(hf.owned hheld).2] at hdropped
      cases hdropped
    rw [complete_of_dropped hdropped]
    refine hs.modify hdestroyed ?_
    exact {
      unborn := fun hb => by cases hb
      pending := fun hb => absurd rfl hb
      owned := fun hheld' => absurd hheld' hheld
      orphan := fun _ hb => absurd rfl hb
      gone := fun _ _ => congrArg (· + 1) hdestroyed
      continuation := hf.continuation
      resumed := fun _ => hresumed.trans (if_pos hdropped).symm }
  | false =>
    have hheld : s.Owned r := by
      by_contra hheld
      have hdropped' := hf.orphan (by simp [hbody]) (by simp [hbody]) hheld
      rw [hdropped] at hdropped'
      cases hdropped'
    have hok : ∀ resumed, resumed = (s.frame r).recorded.getLast?.toList →
        SpawnFrame.Ok { s.frame r with body := .final, result := some result, resumed := resumed }
          (s.Owned r) := by
      intro resumed heq
      exact {
        unborn := fun hb => by cases hb
        pending := fun hb => absurd rfl hb
        owned := fun _ => ⟨hdestroyed, hdropped⟩
        orphan := fun _ hb => absurd rfl hb
        gone := fun _ hheld' => absurd hheld hheld'
        continuation := hf.continuation
        resumed := fun _ => heq.trans (if_neg (by simp [hdropped])).symm }
    cases hk : (s.frame r).continuation with
    | some k =>
      rw [complete_of_continuation hdropped hk]
      refine (hs.modify hdestroyed (hok _ ?_)).wake k
      rw [hresumed, ← hf.continuation, hk]
      rfl
    | none =>
      rw [complete_of_none hdropped hk]
      refine (hs.modify hdestroyed (hok _ ?_)).touch ?_
      · rw [hresumed, ← hf.continuation, hk]
        rfl
      · rw [modify_frame_self]
        exact hdestroyed

/-- **The end of a runner**, as the continuations see it. -/
theorem complete_resumed (s : Spawned ι ν κ ρ) (r : ι) (result : ρ) :
    ((s.complete r result).frame r).resumed
      = if (s.frame r).handleDropped then (s.frame r).resumed
        else (s.frame r).resumed ++ (s.frame r).continuation.toList := by
  cases hdropped : (s.frame r).handleDropped with
  | true =>
    rw [complete_of_dropped hdropped, modify_frame_self]
    rfl
  | false =>
    cases hk : (s.frame r).continuation with
    | some k =>
      rw [complete_of_continuation hdropped hk, wake_frame, modify_frame_self]
      rfl
    | none =>
      rw [complete_of_none hdropped hk, touch_frame, modify_frame_self]
      exact (List.append_nil _).symm

theorem complete_recorded (s : Spawned ι ν κ ρ) (r : ι) (result : ρ) :
    ((s.complete r result).frame r).recorded = (s.frame r).recorded := by
  cases hdropped : (s.frame r).handleDropped with
  | true => rw [complete_of_dropped hdropped, modify_frame_self]
  | false =>
    cases hk : (s.frame r).continuation with
    | some k => rw [complete_of_continuation hdropped hk, wake_frame, modify_frame_self]
    | none => rw [complete_of_none hdropped hk, touch_frame, modify_frame_self]

theorem complete_frame_of_ne {r' : ι} (hr : r' ≠ r) (result : ρ) :
    (s.complete r result).frame r' = s.frame r' := by
  cases hdropped : (s.frame r).handleDropped with
  | true =>
    rw [complete_of_dropped hdropped]
    exact modify_frame_of_ne hr _
  | false =>
    cases hk : (s.frame r).continuation with
    | some k =>
      rw [complete_of_continuation hdropped hk, wake_frame]
      exact modify_frame_of_ne hr _
    | none =>
      rw [complete_of_none hdropped hk, touch_frame]
      exact modify_frame_of_ne hr _

/-- **The end of a runner**, as the coroutines that await it see it. -/
theorem complete_awaits (s : Spawned ι ν κ ρ) (r : ι) (result : ρ) (k : κ) :
    (s.complete r result).awaits k
      = if (s.frame r).handleDropped = false ∧ (s.frame r).continuation = some k then none
        else s.awaits k := by
  cases hdropped : (s.frame r).handleDropped with
  | true =>
    rw [complete_of_dropped hdropped, if_neg (by simp)]
    rfl
  | false =>
    cases hk : (s.frame r).continuation with
    | some k' =>
      rw [complete_of_continuation hdropped hk, wake_awaits]
      simp [Spawned.modify]
    | none =>
      rw [complete_of_none hdropped hk, if_neg (by simp)]
      rfl

end

variable [DecidableEq ν]

/-- **A handle gets a frame or lets it go**, and the frame is written to. -/
theorem Inv.modify_setHandle (hs : Inv s) (hdestroyed : (s.frame r).destroyed = 0)
    {f : SpawnFrame κ ρ → SpawnFrame κ ρ} {h : Option (Option ι)}
    (hok : (f (s.frame r)).Ok (h = some (some r)))
    (hx : ∀ r', r' ≠ r → s.handle x ≠ some (some r')) (hh : ∀ r', r' ≠ r → h ≠ some (some r'))
    (hothers : ∀ y, y ≠ x → s.handle y ≠ some (some r)) :
    Inv ((s.modify r f).setHandle x h) := by
  have hiff : ∀ z r', ((s.modify r f).setHandle x h).handle z = some (some r')
      ↔ (z = x ∧ h = some (some r')) ∨ (z ≠ x ∧ s.handle z = some (some r')) := by
    intro z r'
    rw [setHandle_handle]
    split
    · rename_i hz
      simp [hz]
    · rename_i hz
      simp [hz, Spawned.modify]
  have hself : ((s.modify r f).setHandle x h).Owned r ↔ h = some (some r) := by
    constructor
    · rintro ⟨z, hz⟩
      obtain ⟨-, hheq⟩ | ⟨hzx, hz⟩ := (hiff z r).mp hz
      · exact hheq
      · exact absurd hz (hothers z hzx)
    · exact fun hheq => ⟨x, (hiff x r).mpr (Or.inl ⟨rfl, hheq⟩)⟩
  have hother : ∀ r', r' ≠ r → (((s.modify r f).setHandle x h).Owned r' ↔ s.Owned r') := by
    intro r' hr
    constructor
    · rintro ⟨z, hz⟩
      obtain ⟨-, hheq⟩ | ⟨-, hz⟩ := (hiff z r').mp hz
      · exact absurd hheq (hh r' hr)
      · exact ⟨z, hz⟩
    · rintro ⟨z, hz⟩
      have hzx : z ≠ x := fun heq => hx r' hr (heq ▸ hz)
      exact ⟨z, (hiff z r').mpr (Or.inr ⟨hzx, hz⟩)⟩
  refine ⟨fun r' => ?_, fun z z' r' hz hz' => ?_, (hs.touch hdestroyed).fault⟩
  · show (Function.update s.frame r _ r').Ok (((s.modify r f).setHandle x h).Owned r')
    by_cases hr : r' = r
    · subst hr
      rw [Function.update_self, propext hself]
      exact hok
    · rw [Function.update_of_ne hr, propext (hother r' hr)]
      exact hs.frames r'
  · -- the frame `r` is held by `x` alone, the others by whom they were held
    by_cases hr : r' = r
    · subst hr
      obtain ⟨hzx, -⟩ | ⟨hzx, hz⟩ := (hiff z r').mp hz
      · obtain ⟨hzx', -⟩ | ⟨hzx', hz'⟩ := (hiff z' r').mp hz'
        · rw [hzx, hzx']
        · exact absurd hz' (hothers z' hzx')
      · exact absurd hz (hothers z hzx)
    · obtain ⟨-, hheq⟩ | ⟨-, hz⟩ := (hiff z r').mp hz
      · exact absurd hheq (hh r' hr)
      · obtain ⟨-, hheq⟩ | ⟨-, hz'⟩ := (hiff z' r').mp hz'
        · exact absurd hheq (hh r' hr)
        · exact hs.unique z z' r' hz hz'

theorem Inv.spawn (hs : Inv s) (hbody : (s.frame r).body = .unborn) (hnone : s.handle x = none) :
    Inv (s.spawn r x) := by
  have hf := hs.frames r
  obtain ⟨hdestroyed, hresumed⟩ := hf.pending (by simp [hbody])
  obtain ⟨hheld, hdropped⟩ := hf.unborn hbody
  refine hs.modify_setHandle hdestroyed ?_ (fun r' _ => by simp [hnone])
    (fun r' hr => by simp [Ne.symm hr]) (fun y _ hy => hheld ⟨y, hy⟩)
  exact {
    unborn := fun hb => by cases hb
    pending := fun _ => ⟨hdestroyed, hresumed⟩
    owned := fun _ => ⟨hdestroyed, hdropped⟩
    orphan := fun _ _ hnot => absurd rfl hnot
    gone := fun hb => by cases hb
    continuation := hf.continuation
    resumed := fun hb => by cases hb }

/-- **`release`** hands the frame to the runner, or destroys it. -/
theorem Inv.release (hs : Inv s) (x : ν) :
    Inv (s.release x) ∧ ∀ r, (s.release x).handle x ≠ some (some r) := by
  unfold Spawned.release
  split
  · rename_i r hx
    have hf := hs.frames r
    obtain ⟨hdestroyed, hdropped⟩ := hf.owned ⟨x, hx⟩
    have hunborn : (s.frame r).body ≠ .unborn := fun hb => (hf.unborn hb).1 ⟨x, hx⟩
    have hletGo : ∀ f : SpawnFrame κ ρ → SpawnFrame κ ρ, (f (s.frame r)).Ok False →
        Inv ((s.modify r f).setHandle x (some none)) := by
      intro f hok
      refine hs.modify_setHandle hdestroyed (by simpa using hok) (fun r' hr => ?_) (by simp)
        (fun y hy hy' => hy (hs.unique y x r hy' hx))
      rw [hx]
      simp [Ne.symm hr]
    split
    · rename_i hbody
      refine ⟨hletGo _ ?_, by simp⟩
      exact {
        unborn := fun hb => absurd hb hunborn
        pending := fun hb => absurd hbody hb
        owned := False.elim
        orphan := fun _ hb => absurd hbody hb
        gone := fun _ _ => by
          show (s.frame r).destroyed + 1 = 1
          rw [hdestroyed]
        continuation := hf.continuation
        resumed := hf.resumed }
    · rename_i hbody
      refine ⟨hletGo _ ?_, by simp⟩
      exact {
        unborn := fun hb => absurd hb hunborn
        pending := hf.pending
        owned := False.elim
        orphan := fun _ _ _ => rfl
        gone := fun hb => absurd hb hbody
        continuation := hf.continuation
        resumed := fun hb => absurd hb hbody }
  · rename_i hx
    exact ⟨hs, fun r heq => hx r heq⟩

theorem Inv.moveAssign (hs : Inv s) (x y : ν) : Inv (s.moveAssign x y) := by
  unfold Spawned.moveAssign
  split
  · exact hs
  · rename_i hxy
    obtain ⟨hrelease, hx⟩ := hs.release x
    exact hrelease.take hxy hx

theorem Inv.drop (hs : Inv s) (x : ν) : Inv (s.drop x) := by
  obtain ⟨hrelease, hx⟩ := hs.release x
  exact hrelease.setHandle hx (by simp)

theorem release_keeps (s : Spawned ι ν κ ρ) (x : ν) (r : ι) :
    (s.frame r).Keeps ((s.release x).frame r) [] := by
  unfold release destroy
  split
  · rw [setHandle_frame]
    split
    · exact modify_keeps ⟨rfl, (List.append_nil _).symm, id⟩ r
    · exact modify_keeps ⟨rfl, (List.append_nil _).symm, id⟩ r
  · exact .refl _

variable [DecidableEq κ]

/-! ## Every run -/

/-- **Every step keeps the invariant.** -/
theorem inv_step (hs : Inv s) {label : Label ι ν κ ρ} (hstep : s.step label = some s') :
    Inv s' := by
  cases step_cases hstep with
  | spawn hbody hnone => exact hs.spawn hbody hnone
  | construct hnone => exact hs.setHandle (by simp [hnone]) (by simp)
  | moveConstruct hnone hsome =>
    exact hs.take (fun heq => hsome (heq ▸ hnone)) (by simp [hnone])
  | moveAssign => exact hs.moveAssign _ _
  | drop => exact hs.drop _
  | done => exact hs.useHandle _
  | coAwait hhandle => exact hs.coAwait hhandle _
  | suspend hbody => exact hs.setBody (by simp [hbody]) (by simp [hbody]) (by simp) (by simp)
  | resume hbody => exact hs.setBody (by simp [hbody]) (by simp [hbody]) (by simp) (by simp)
  | complete hbody => exact hs.complete hbody _

theorem inv_of_reachable (hs : machine.Reachable s) : Inv s :=
  hs.invariant (I := Inv) inv_new (fun _ _ _ _ hi _ hstep => inv_step hi hstep)

/-! ## What a runner resumes, and who awaits -/

/-- The continuation that a step records with a runner: that of a coroutine that awaits its
handle before it has ended. -/
def recording (s : Spawned ι ν κ ρ) (r : ι) : Label ι ν κ ρ → List κ
  | .coAwait x k =>
    if s.handle x = some (some r) ∧ (s.frame r).body ≠ .final then [k] else []
  | _ => []

omit [DecidableEq ν] in
theorem coAwait_keeps (hx : s.handle x = some (some r)) (k : κ) (r' : ι) :
    (s.frame r').Keeps ((s.coAwait x r k).frame r')
      (s.recording r' (.coAwait x k : Label ι ν κ ρ)) := by
  unfold coAwait recording
  dsimp only
  rw [hx]
  split
  · rename_i hbody
    have hnot : ¬ (some (some r) = some (some r') ∧ (s.frame r').body ≠ .final) := by
      rintro ⟨⟨⟩, hnot⟩
      exact hnot hbody
    rw [useHandle_frame, if_neg hnot]
    exact .refl _
  · rename_i hbody
    rw [setAwaits_frame]
    by_cases hr : r' = r
    · subst hr
      rw [modify_frame_self, if_pos ⟨rfl, hbody⟩]
      exact ⟨rfl, rfl, id⟩
    · have hnot : ¬ (some (some r) = some (some r') ∧ (s.frame r').body ≠ .final) := by
        rintro ⟨⟨⟩, -⟩
        exact hr rfl
      rw [if_neg hnot, modify_frame_of_ne hr]
      exact .refl _

/-- **Nothing but the end of its runner makes a frame resume a continuation, and nothing but
a `co_await` of its handle records one with it.** -/
theorem keeps_of_step {label : Label ι ν κ ρ} (hstep : s.step label = some s')
    (hlabel : ∀ result, label ≠ .complete r result) :
    (s.frame r).Keeps (s'.frame r) (s.recording r label) := by
  -- a runner that is spawned, suspended or resumed has not ended
  have hbody : ∀ {r' : ι} {body body' : Body}, (s.frame r').body = body' → body' ≠ .final →
      (s.frame r).Keeps ((s.modify r' (fun f => { f with body := body })).frame r) [] :=
    fun hb hb' => modify_keeps
      ⟨rfl, (List.append_nil _).symm, fun hfinal => absurd (hb.symm.trans hfinal) hb'⟩ r
  cases step_cases hstep with
  | spawn hunborn hnone => exact hbody hunborn (by simp)
  | construct hnone => exact .refl _
  | moveConstruct hnone hsome => exact .refl _
  | @moveAssign x y =>
    unfold moveAssign
    split
    · exact .refl _
    · exact release_keeps s x r
  | @drop x => exact release_keeps s x r
  | done =>
    rw [useHandle_frame]
    exact .refl _
  | coAwait hhandle => exact coAwait_keeps hhandle _ r
  | suspend hrunning => exact hbody hrunning (by simp)
  | resume hsuspended => exact hbody hsuspended (by simp)
  | @complete r' result hrunning =>
    have hr : r ≠ r' := fun heq => hlabel result (by rw [heq])
    rw [complete_frame_of_ne hr]
    exact .refl _

theorem recorded_step {label : Label ι ν κ ρ} (hstep : s.step label = some s') (r : ι) :
    (s'.frame r).recorded = (s.frame r).recorded ++ s.recording r label := by
  by_cases hlabel : ∀ result, label ≠ .complete r result
  · exact (keeps_of_step hstep hlabel).recorded
  · obtain ⟨result, hresult⟩ := not_forall.mp hlabel
    obtain rfl := not_not.mp hresult
    cases step_cases hstep with
    | complete hrunning => exact (complete_recorded s r result).trans (List.append_nil _).symm

/-- **The lifetime of a runner's frame.** In every run, in whatever order runners are
spawned, suspended, resumed and end, and handles are moved, awaited and released:

* no frame is used after it was destroyed;
* a frame is destroyed at most once, not before the runner has come to its end, and it
  is destroyed once the runner has ended and no handle holds it;
* a continuation is recorded by the `co_await` of a handle that holds a runner which has not
  ended, whose coroutine is then suspended, and by nothing else;
* a runner resumes nothing before its end; at its end it resumes the continuation that
  was recorded last, if a handle still holds the frame, and nothing if none does; the
  coroutine resumed goes on, and every other one stays where it is; and
  no other step makes it resume anything. -/
theorem frame_lifetime (s : Spawned ι ν κ ρ) (hs : machine.Reachable s) :
    s.fault = false
      ∧ (∀ r, (s.frame r).destroyed ≤ 1
        ∧ ((s.frame r).body ≠ .final → (s.frame r).destroyed = 0 ∧ (s.frame r).resumed = [])
        ∧ ((s.frame r).body = .final → (∀ x, s.handle x ≠ some (some r)) →
          (s.frame r).destroyed = 1))
      ∧ ∀ label s' r, s.step label = some s' →
        (s'.frame r).recorded = (s.frame r).recorded ++ s.recording r label
          ∧ (∀ x k, label = .coAwait x k → s.recording r label = [k] → s'.awaits k = some x)
          ∧ (∀ result, label = .complete r result →
            ((∃ x, s.handle x = some (some r)) →
                (s'.frame r).resumed = (s.frame r).recorded.getLast?.toList
                  ∧ ∀ k, s'.awaits k
                    = if (s.frame r).recorded.getLast? = some k then none else s.awaits k)
              ∧ ((∀ x, s.handle x ≠ some (some r)) →
                (s'.frame r).resumed = [] ∧ s'.awaits = s.awaits))
          ∧ ((∀ result, label ≠ .complete r result) →
            (s'.frame r).resumed = (s.frame r).resumed) := by
  have hi := inv_of_reachable hs
  refine ⟨hi.fault, fun r => ⟨?_, (hi.frames r).pending, fun hbody hheld => ?_⟩,
    fun label s' r hstep => ⟨recorded_step hstep r, ?_, ?_,
      fun hlabel => (keeps_of_step hstep hlabel).resumed⟩⟩
  · by_cases hheld : s.Owned r
    · rw [((hi.frames r).owned hheld).1]
      exact Nat.zero_le 1
    · by_cases hbody : (s.frame r).body = .final
      · exact Nat.le_of_eq ((hi.frames r).gone hbody hheld)
      · rw [((hi.frames r).pending hbody).1]
        exact Nat.zero_le 1
  · exact (hi.frames r).gone hbody (fun ⟨x, hx⟩ => hheld x hx)
  · rintro x k rfl hrecording
    cases step_cases hstep with
    | @coAwait _ r' _ hhandle =>
      have hbody : (s.frame r').body ≠ .final := by
        intro hbody
        have hnot : ¬ (s.handle x = some (some r) ∧ (s.frame r).body ≠ .final) := by
          rintro ⟨hx, hnot⟩
          cases hhandle.symm.trans hx
          exact hnot hbody
        rw [recording, if_neg hnot] at hrecording
        cases hrecording
      rw [coAwait, if_neg hbody]
      exact Function.update_self _ _ _
  · rintro result rfl
    cases step_cases hstep with
    | complete hbody =>
      have hf := hi.frames r
      obtain ⟨-, hresumed⟩ := hf.pending (by simp [hbody])
      rw [complete_resumed, hresumed, ← hf.continuation]
      refine ⟨fun hheld => ?_, fun hheld => ?_⟩
      · have hdropped := (hf.owned hheld).2
        rw [if_neg (by simp [hdropped])]
        refine ⟨rfl, fun k => ?_⟩
        rw [complete_awaits]
        exact if_congr (and_iff_right hdropped) rfl rfl
      · have hdropped := hf.orphan (by simp [hbody]) (by simp [hbody]) (fun ⟨x, hx⟩ => hheld x hx)
        rw [if_pos hdropped]
        refine ⟨rfl, funext fun k => ?_⟩
        rw [complete_awaits, if_neg (by simp [hdropped])]

/-- Two runners, both suspended. The coroutine 7 awaits the first, whose handle is moved and
then awaited by 8; the coroutine 9 awaits the second, whose handle is dropped. Both are
resumed, and the second ends. -/
def awaited : List (Label ℕ ℕ ℕ ℕ) :=
  [.spawn 0 0, .suspend 0, .spawn 1 1, .suspend 1, .coAwait 0 7, .moveConstruct 2 0, .coAwait 2 8,
    .coAwait 1 9, .drop 1, .resume 1, .complete 1 6, .resume 0]

/-- The second has resumed nothing and its frame is destroyed. At its end the first resumes the
coroutine that awaited it last. -/
theorem frame_lifetime_awaited :
    ∃ s s' : Spawned ℕ ℕ ℕ ℕ, machine.run new awaited = some s
      ∧ s.step (.complete 0 5) = some s' ∧ s.fault = false
      ∧ (s.frame 1).resumed = [] ∧ (s.frame 1).destroyed = 1
      ∧ (s'.frame 0).resumed = [8] ∧ s'.awaits 8 = none ∧ s'.awaits 7 = some 0 := by
  have hreach : ∀ s : Spawned ℕ ℕ ℕ ℕ, machine.run new awaited = some s → machine.Reachable s :=
    fun s hrun => Machine.ReachableBy.run_of_forall .init (fun _ _ _ => trivial) hrun
  obtain ⟨hfault, -, hstep⟩ := frame_lifetime _ (hreach _ rfl)
  obtain ⟨hresumed, hawaits⟩ := ((hstep _ _ 0 rfl).2.2.1 5 rfl).1 ⟨2, rfl⟩
  exact ⟨_, _, rfl, rfl, hfault, rfl, rfl, hresumed, hawaits 8, hawaits 7⟩

/-! ## Two awaits of one handle -/

/-- **What a runner has not resumed when it has ended is never resumed.** -/
theorem resumed_run {labels : List (Label ι ν κ ρ)} (hbody : (s.frame r).body = .final)
    (hrun : machine.run s labels = some s') : (s'.frame r).resumed = (s.frame r).resumed := by
  induction labels generalizing s with
  | nil =>
    cases hrun
    rfl
  | cons label labels ih =>
    rw [Machine.run, Option.bind_eq_some_iff] at hrun
    obtain ⟨s₁, hstep, hrest⟩ := hrun
    replace hstep : s.step label = some s₁ := hstep
    have hkeeps := keeps_of_step hstep (r := r) (by
      rintro result rfl
      cases step_cases hstep with
      | complete hrunning =>
        rw [hbody] at hrunning
        cases hrunning)
    rw [ih (hkeeps.final hbody) hrest, hkeeps.resumed]

/-- The coroutines 7 and 8 await the same handle before its runner ends. -/
def awaitedTwice : List (Label ℕ ℕ ℕ ℕ) :=
  [.spawn 0 0, .suspend 0, .coAwait 0 7, .coAwait 0 8, .resume 0, .complete 0 5]

/-- **The second await overwrites the first.** The handle still holds the frame and the runner
has ended, but of the two continuations recorded only that of 8 is resumed. The coroutine 7
stays suspended in its `co_await`, and nothing that happens later makes the runner resume it. -/
theorem overwritten_not_resumed :
    ∃ s : Spawned ℕ ℕ ℕ ℕ, machine.run new awaitedTwice = some s
      ∧ s.handle 0 = some (some 0) ∧ (s.frame 0).body = .final
      ∧ (s.frame 0).recorded = [7, 8] ∧ s.awaits 7 = some 0
      ∧ ∀ labels s', machine.run s labels = some s' → (s'.frame 0).resumed = [8] :=
  ⟨_, rfl, rfl, rfl, rfl, rfl, fun _ _ hrun => resumed_run rfl hrun⟩

end Spawned

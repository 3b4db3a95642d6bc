import Mathlib.Data.Set.Insert
import SapCore.CoroutineRuntime

/-!
# The frames of a thread

A thread of the program is a chain of frames in the runtime: the frame it began with, the
frame that the coroutine of that awaits, and so on, to the one that is running or waits
for the outside. The frames refer to each other in both directions, from the awaiting
coroutine to the task by its code, from the task to the awaiting coroutine by the
continuation in its promise, and that these agree is what makes the transfer of control
at the end of a task a return.

A `Layout` says which frames are whose, what is left to do in the thread after each, and
which is the last of the chain. `Tree` says that the frames are as laid out. It is kept
when the last frame of a chain is changed, when that frame calls another and when it
returns, when a new chain is begun and when one that is down to its first frame is taken
out; and it does not depend on the frames that belong to no thread.
-/

namespace Coroutines

/-- **Which frames belong to which thread** (`home`), the calls to return to after each
(`cont`), and the last frame of each thread (`leaf`). A thread has the number of its first
frame. -/
structure Layout (σ υ ξ : Type) where
  home : ℕ → Option ℕ
  cont : ℕ → List (Outcome υ ξ → σ)
  leaf : ℕ → ℕ

namespace Layout

variable {σ υ ξ : Type}

/-- No threads. -/
def new : Layout σ υ ξ := ⟨fun _ => none, fun _ => [], fun t => t⟩

/-- A frame becomes the last of a thread. -/
def push (L : Layout σ υ ξ) (t x : ℕ) (stack : List (Outcome υ ξ → σ)) : Layout σ υ ξ where
  home := Function.update L.home x (some t)
  cont := Function.update L.cont x stack
  leaf := Function.update L.leaf t x

/-- The last frame of a thread returns to another. -/
def pop (L : Layout σ υ ξ) (t x p : ℕ) : Layout σ υ ξ where
  home := Function.update L.home x none
  cont := L.cont
  leaf := Function.update L.leaf t p

/-- A thread has no frames any more. -/
def uproot (L : Layout σ υ ξ) (t : ℕ) : Layout σ υ ξ :=
  { L with home := Function.update L.home t none }

variable {L : Layout σ υ ξ} {t u x y p : ℕ} {stack : List (Outcome υ ξ → σ)}

@[simp] theorem push_home_self : (L.push t x stack).home x = some t := Function.update_self _ _ _

theorem push_home_of_ne (hy : y ≠ x) : (L.push t x stack).home y = L.home y :=
  Function.update_of_ne hy _ _

@[simp] theorem push_cont_self : (L.push t x stack).cont x = stack := Function.update_self _ _ _

theorem push_cont_of_ne (hy : y ≠ x) : (L.push t x stack).cont y = L.cont y :=
  Function.update_of_ne hy _ _

@[simp] theorem push_leaf_self : (L.push t x stack).leaf t = x := Function.update_self _ _ _

theorem push_leaf_of_ne (hu : u ≠ t) : (L.push t x stack).leaf u = L.leaf u :=
  Function.update_of_ne hu _ _

@[simp] theorem pop_home_self : (L.pop t x p).home x = none := Function.update_self _ _ _

theorem pop_home_of_ne (hy : y ≠ x) : (L.pop t x p).home y = L.home y :=
  Function.update_of_ne hy _ _

@[simp] theorem pop_leaf_self : (L.pop t x p).leaf t = p := Function.update_self _ _ _

theorem pop_leaf_of_ne (hu : u ≠ t) : (L.pop t x p).leaf u = L.leaf u :=
  Function.update_of_ne hu _ _

@[simp] theorem uproot_home_self : (L.uproot t).home t = none := Function.update_self _ _ _

theorem uproot_home_of_ne (hy : y ≠ t) : (L.uproot t).home y = L.home y :=
  Function.update_of_ne hy _ _

end Layout

variable {σ α υ ξ : Type}

/-- **What holds of every frame by itself**: only a runner has a parameter, and before the
body ended the promise is empty. -/
structure Frame.Ok (f : Frame σ α υ ξ) : Prop where
  start : ∀ {s}, f.code = .start s → f.param = none
  startRunner : ∀ {task}, f.code = .startRunner task → f.param = some task
  running : f.code = .running → f.param = none
  statement : ∀ {task next}, f.code = .awaiting task (.statement next) → f.param = none
  runner : ∀ {task}, f.code = .awaiting task .runner → f.param = some task
  awaitingSpawn : ∀ {h next}, f.code = .awaitingSpawn h next → f.param = none
  awaitingIo : ∀ {a next}, f.code = .awaitingIo a next → f.param = none
  blank : f.code.done = false →
    f.promise.exc = none ∧ f.promise.value = none ∧ f.taken = false

/-- What is left to do in a thread after a task, if there was something left to do after
the coroutine that awaits it. -/
def After.cont (stack : List (Outcome υ ξ → σ)) : After σ υ ξ → List (Outcome υ ξ → σ)
  | .statement next => next :: stack
  | .runner => stack

/-- **The place of a frame in its thread**: it is the first, or the coroutine of another
awaits it. -/
inductive Placed (H : ℕ → Option (Frame σ α υ ξ)) (L : Layout σ υ ξ) (t x : ℕ)
    (f : Frame σ α υ ξ) : Prop
  | root (hroot : x = t) (hcont : L.cont x = [])
  | called {p : ℕ} {g : Frame σ α υ ξ} {after : After σ υ ξ} (hne : x ≠ t)
      (hcontinuation : f.promise.continuation = some p) (hheld : f.promise.detached = false)
      (hparent : H p = some g) (hhome : L.home p = some t) (hinner : p ≠ L.leaf t)
      (hcode : g.code = .awaiting x after) (hcont : L.cont x = after.cont (L.cont p))
      (hrunner : after = .runner → p = t)

/-- **The frames are as laid out.** -/
structure Tree (H : ℕ → Option (Frame σ α υ ξ)) (L : Layout σ υ ξ) : Prop where
  placed : ∀ {x t}, L.home x = some t → ∃ f, H x = some f ∧ Placed H L t x f
  root : ∀ {x t}, L.home x = some t → L.home t = some t
  leaf : ∀ {t}, L.home t = some t → L.home (L.leaf t) = some t
  /-- The coroutines before the last one await tasks. -/
  inner : ∀ {x t f}, L.home x = some t → x ≠ L.leaf t → H x = some f →
    ∃ task after, f.code = .awaiting task after
  /-- A task that is the first of its thread was detached. -/
  detached : ∀ {t f}, L.home t = some t → H t = some f → f.param = none →
    f.promise.detached = true

variable {H H' : ℕ → Option (Frame σ α υ ξ)} {L : Layout σ υ ξ} {t r x p : ℕ}
  {f f' g : Frame σ α υ ξ}

theorem tree_new : Tree (fun _ => none : ℕ → Option (Frame σ α υ ξ)) Layout.new where
  placed hhome := by cases hhome
  root hhome := by cases hhome
  leaf hhome := by cases hhome
  inner hhome := by cases hhome
  detached hhome := by cases hhome

namespace Tree

theorem frame (hT : Tree H L) (hhome : L.home x = some t) : ∃ f, H x = some f :=
  let ⟨f, hf, _⟩ := hT.placed hhome
  ⟨f, hf⟩

theorem home_of_none (hT : Tree H L) (hx : H x = none) : L.home x = none := by
  cases hhome : L.home x with
  | none => rfl
  | some t =>
    obtain ⟨f, hf⟩ := hT.frame hhome
    rw [hx] at hf
    cases hf

theorem cont_root (hT : Tree H L) (hhome : L.home t = some t) : L.cont t = [] := by
  obtain ⟨f, -, hplaced⟩ := hT.placed hhome
  cases hplaced with
  | root _ hcont => exact hcont
  | called hne => exact absurd rfl hne

/-- A thread whose first frame is its last has no other. -/
theorem eq_of_leaf (hT : Tree H L) (hleaf : L.leaf t = t) (hhome : L.home x = some t) : x = t := by
  -- what is left to do gets less from a frame to the one that awaits it
  induction hn : (L.cont x).length generalizing x with
  | zero =>
    obtain ⟨f, -, hplaced⟩ := hT.placed hhome
    cases hplaced with
    | root hroot => exact hroot
    | @called p g after _ _ _ _ hp hinner hcode hcont hrunner =>
      cases after with
      | statement next => simp [hcont, After.cont] at hn
      | runner => exact absurd ((hrunner rfl).trans hleaf.symm) hinner
  | succ n ih =>
    obtain ⟨f, -, hplaced⟩ := hT.placed hhome
    cases hplaced with
    | root hroot => exact hroot
    | @called p g after _ _ _ _ hp hinner hcode hcont hrunner =>
      cases after with
      | statement next =>
        have hlength : (L.cont p).length = n := by
          simpa [hcont, After.cont] using hn
        exact absurd ((ih hp hlength).trans hleaf.symm) hinner
      | runner => exact absurd ((hrunner rfl).trans hleaf.symm) hinner

/-- **The frames that belong to no thread do not matter.** -/
theorem congr (hT : Tree H L) (hsame : ∀ x t, L.home x = some t → H' x = H x) : Tree H' L where
  placed hhome := by
    obtain ⟨f, hf, hplaced⟩ := hT.placed hhome
    refine ⟨f, (hsame _ _ hhome).trans hf, ?_⟩
    cases hplaced with
    | root hroot hcont => exact .root hroot hcont
    | called hne hcontinuation hheld hparent hp hinner hcode hcont hrunner =>
      exact .called hne hcontinuation hheld ((hsame _ _ hp).trans hparent) hp hinner hcode hcont
        hrunner
  root := hT.root
  leaf := hT.leaf
  inner hhome hne hf := hT.inner hhome hne ((hsame _ _ hhome).symm.trans hf)
  detached hhome hf := hT.detached hhome ((hsame _ _ hhome).symm.trans hf)

/-- A frame that belongs to no thread is written. -/
theorem set_of_none (hT : Tree H L) (hhome : L.home x = none) (f : Frame σ α υ ξ) :
    Tree (Function.update H x (some f)) L := by
  refine hT.congr (fun y t hy => Function.update_of_ne ?_ _ _)
  rintro rfl
  rw [hhome] at hy
  cases hy

/-- **The last frame of a thread is written**; its promise keeps the continuation and the
flag. -/
theorem set_leaf (hT : Tree H L) (hf : H r = some f) (hhome : L.home r = some t)
    (hleaf : L.leaf t = r) (hparam : f'.param = f.param)
    (hcontinuation : f'.promise.continuation = f.promise.continuation)
    (hdetached : f'.promise.detached = f.promise.detached) :
    Tree (Function.update H r (some f')) L where
  placed {x u} hx := by
    obtain ⟨g, hg, hplaced⟩ := hT.placed hx
    -- the frame of the coroutine that awaits another is not the last of its thread
    have hparent : ∀ {p g}, H p = some g → L.home p = some u → p ≠ L.leaf u →
        Function.update H r (some f') p = some g := by
      intro p g hp hu hinner
      refine (Function.update_of_ne ?_ _ _).trans hp
      rintro rfl
      rw [hhome] at hu
      cases hu
      exact hinner hleaf.symm
    by_cases hxr : x = r
    · subst hxr
      rw [hf] at hg
      cases hg
      refine ⟨f', Function.update_self _ _ _, ?_⟩
      cases hplaced with
      | root hroot hcont => exact .root hroot hcont
      | called hne hc hheld hp hu hinner hcode hcont hrunner =>
        exact .called hne (hcontinuation.trans hc) (hdetached.trans hheld) (hparent hp hu hinner) hu
          hinner hcode hcont hrunner
    · refine ⟨g, (Function.update_of_ne hxr _ _).trans hg, ?_⟩
      cases hplaced with
      | root hroot hcont => exact .root hroot hcont
      | called hne hc hheld hp hu hinner hcode hcont hrunner =>
        exact .called hne hc hheld (hparent hp hu hinner) hu hinner hcode hcont hrunner
  root := hT.root
  leaf := hT.leaf
  inner {x u g} hx hne hg := by
    have hxr : x ≠ r := by
      rintro rfl
      rw [hhome] at hx
      cases hx
      exact hne hleaf.symm
    rw [Function.update_of_ne hxr] at hg
    exact hT.inner hx hne hg
  detached {u g} hu hg hnone := by
    by_cases hur : u = r
    · subst hur
      rw [Function.update_self] at hg
      cases hg
      exact hdetached.trans (hT.detached hu hf (hparam.symm.trans hnone))
    · rw [Function.update_of_ne hur] at hg
      exact hT.detached hu hg hnone

/-- **The promise of a runner is written.** -/
theorem set_runner (hT : Tree H L) (hf : H r = some f) (hhome : L.home r = some r)
    (hrunner : f.param ≠ none) (hcode : f'.code = f.code)
    (hparam : f'.param = f.param) : Tree (Function.update H r (some f')) L where
  placed {x u} hx := by
    obtain ⟨g, hg, hplaced⟩ := hT.placed hx
    have hparent : ∀ {p g}, H p = some g →
        ∃ g', Function.update H r (some f') p = some g' ∧ g'.code = g.code := by
      intro p g hp
      by_cases hpr : p = r
      · subst hpr
        rw [hf] at hp
        cases hp
        exact ⟨f', Function.update_self _ _ _, hcode⟩
      · exact ⟨g, (Function.update_of_ne hpr _ _).trans hp, rfl⟩
    by_cases hxr : x = r
    · subst hxr
      rw [hhome] at hx
      cases hx
      exact ⟨f', Function.update_self _ _ _, .root rfl (hT.cont_root hhome)⟩
    · refine ⟨g, (Function.update_of_ne hxr _ _).trans hg, ?_⟩
      cases hplaced with
      | root hroot hcont => exact .root hroot hcont
      | called hne hc hheld hp hu hinner hcode' hcont hrunner' =>
        obtain ⟨g', hg', hcodes⟩ := hparent hp
        exact .called hne hc hheld hg' hu hinner (hcodes.trans hcode') hcont hrunner'
  root := hT.root
  leaf := hT.leaf
  inner {x u g} hx hne hg := by
    by_cases hxr : x = r
    · subst hxr
      rw [Function.update_self] at hg
      cases hg
      rw [hcode]
      exact hT.inner hx hne hf
    · rw [Function.update_of_ne hxr] at hg
      exact hT.inner hx hne hg
  detached {u g} hu hg hnone := by
    by_cases hur : u = r
    · subst hur
      rw [Function.update_self] at hg
      cases hg
      exact absurd (hparam.symm.trans hnone) hrunner
    · rw [Function.update_of_ne hur] at hg
      exact hT.detached hu hg hnone

/-- A frame that belonged to no thread becomes the last of one. -/
theorem push (hT : Tree H L) {stack : List (Outcome υ ξ → σ)} (hx : L.home x = none)
    (hf : H x = some f) (hplaced : Placed H (L.push t x stack) t x f)
    (hroot : (L.push t x stack).home t = some t)
    (hinner : L.home t = some t → ∀ g, H (L.leaf t) = some g →
      ∃ task after, g.code = .awaiting task after)
    (hdetached : x = t → f.param = none → f.promise.detached = true) :
    Tree H (L.push t x stack) := by
  have hne : ∀ {y u}, L.home y = some u → y ≠ x := by
    rintro y u hy rfl
    rw [hx] at hy
    cases hy
  have hkeep : ∀ {y u}, L.home y = some u → (L.push t x stack).home y = some u :=
    fun hy => (Layout.push_home_of_ne (hne hy)).trans hy
  refine {
    placed := fun {y u} hy => ?_
    root := fun {y u} hy => ?_
    leaf := fun {u} hu => ?_
    inner := fun {y u g} hy hin hg => ?_
    detached := fun {u g} hu hg hnone => ?_ }
  · by_cases hyx : y = x
    · subst hyx
      rw [Layout.push_home_self] at hy
      cases hy
      exact ⟨f, hf, hplaced⟩
    · rw [Layout.push_home_of_ne hyx] at hy
      obtain ⟨g, hg, hplaced⟩ := hT.placed hy
      refine ⟨g, hg, ?_⟩
      cases hplaced with
      | root hroot hc => exact .root hroot ((Layout.push_cont_of_ne hyx).trans hc)
      | @called p _ _ hney hc hh hp hu hin hcode hc' hrunner =>
        refine .called hney hc hh hp (hkeep hu) (fun hleaf => ?_) hcode ?_ hrunner
        · by_cases hut : u = t
          · subst hut
            exact hne hu (hleaf.trans Layout.push_leaf_self)
          · exact hin (hleaf.trans (Layout.push_leaf_of_ne hut))
        · rw [Layout.push_cont_of_ne hyx, Layout.push_cont_of_ne (hne hu)]
          exact hc'
  · by_cases hyx : y = x
    · subst hyx
      rw [Layout.push_home_self] at hy
      cases hy
      exact hroot
    · rw [Layout.push_home_of_ne hyx] at hy
      exact hkeep (hT.root hy)
  · by_cases hut : u = t
    · subst hut
      rw [Layout.push_leaf_self, Layout.push_home_self]
    · rw [Layout.push_leaf_of_ne hut]
      have hux : u ≠ x := by
        rintro rfl
        rw [Layout.push_home_self] at hu
        exact hut (Option.some.inj hu).symm
      rw [Layout.push_home_of_ne hux] at hu
      exact hkeep (hT.leaf hu)
  · have hyx : y ≠ x := by
      rintro rfl
      rw [Layout.push_home_self] at hy
      cases hy
      exact hin Layout.push_leaf_self.symm
    rw [Layout.push_home_of_ne hyx] at hy
    by_cases hleaf : y = L.leaf u
    · by_cases hut : u = t
      · subst hut hleaf
        exact hinner (hT.root hy) g hg
      · exact absurd (hleaf.trans (Layout.push_leaf_of_ne hut).symm) hin
    · exact hT.inner hy hleaf hg
  · by_cases hux : u = x
    · subst hux
      rw [hf] at hg
      cases hg
      rw [Layout.push_home_self] at hu
      exact hdetached (Option.some.inj hu).symm hnone
    · rw [Layout.push_home_of_ne hux] at hu
      exact hT.detached hu hg hnone

/-- **The last frame of a thread calls another.** -/
theorem call (hT : Tree H L) {after : After σ υ ξ} (hhome : L.home r = some t)
    (hleaf : L.leaf t = r) (hx : L.home x = none) (hr : H r = some g) (hf : H x = some f)
    (hcode : g.code = .awaiting x after) (hcontinuation : f.promise.continuation = some r)
    (hheld : f.promise.detached = false) (hrunner : after = .runner → r = t) :
    Tree H (L.push t x (after.cont (L.cont r))) := by
  have hne : ∀ {y u}, L.home y = some u → y ≠ x := by
    rintro y u hy rfl
    rw [hx] at hy
    cases hy
  have hroot := hT.root hhome
  refine hT.push hx hf ?_ ((Layout.push_home_of_ne (hne hroot)).trans hroot)
    (fun _ g' hg' => ?_) (fun hxt => absurd hxt.symm (hne hroot))
  · refine .called (hne hroot).symm hcontinuation hheld hr
      ((Layout.push_home_of_ne (hne hhome)).trans hhome) ?_ hcode ?_ hrunner
    · rw [Layout.push_leaf_self]
      exact hne hhome
    · rw [Layout.push_cont_self, Layout.push_cont_of_ne (hne hhome)]
  · rw [hleaf, hr] at hg'
    cases hg'
    exact ⟨_, _, hcode⟩

/-- **A frame begins a thread.** -/
theorem plant (hT : Tree H L) (hx : L.home x = none) (hf : H x = some f)
    (hdetached : f.param = none → f.promise.detached = true) : Tree H (L.push x x []) :=
  hT.push hx hf (.root rfl Layout.push_cont_self) Layout.push_home_self
    (fun hhome => absurd (hx.symm.trans hhome) (by simp)) (fun _ => hdetached)

/-- **The last frame of a thread returns** to the one whose coroutine awaits it. -/
theorem pop (hT : Tree H L) (hhome : L.home x = some t) (hleaf : L.leaf t = x) (hne : x ≠ t)
    (hp : L.home p = some t) (hparent : H p = some g) {after : After σ υ ξ}
    (hcode : g.code = .awaiting x after) (hpx : p ≠ x) : Tree H (L.pop t x p) := by
  have hkeep : ∀ {y u}, L.home y = some u → y ≠ x → (L.pop t x p).home y = some u :=
    fun hy hyx => (Layout.pop_home_of_ne hyx).trans hy
  have hof : ∀ {y u}, (L.pop t x p).home y = some u → y ≠ x ∧ L.home y = some u := by
    intro y u hy
    by_cases hyx : y = x
    · subst hyx
      rw [Layout.pop_home_self] at hy
      cases hy
    · rw [Layout.pop_home_of_ne hyx] at hy
      exact ⟨hyx, hy⟩
  -- no first frame of a thread returns
  have hroot_ne : ∀ {u}, L.home u = some u → u ≠ x := by
    rintro u hu rfl
    rw [hhome] at hu
    exact hne (Option.some.inj hu).symm
  refine {
    placed := fun {y u} hy => ?_
    root := fun {y u} hy => ?_
    leaf := fun {u} hu => ?_
    inner := fun {y u g} hy hin hg => ?_
    detached := fun {u g} hu hg hnone => hT.detached (hof hu).2 hg hnone }
  · obtain ⟨hyx, hy⟩ := hof hy
    obtain ⟨f, hf, hplaced⟩ := hT.placed hy
    refine ⟨f, hf, ?_⟩
    cases hplaced with
    | root hroot hc => exact .root hroot hc
    | @called q g' after' hney hc hh hq hu hin hcode' hc' hrunner =>
      have hqx : q ≠ x := by
        rintro rfl
        rw [hhome] at hu
        cases hu
        exact hin hleaf.symm
      refine .called hney hc hh hq (hkeep hu hqx) ?_ hcode' hc' hrunner
      by_cases hut : u = t
      · subst hut
        rw [Layout.pop_leaf_self]
        -- the coroutine of `p` awaits `x` and nobody else
        rintro rfl
        rw [hparent] at hq
        cases hq
        rw [hcode] at hcode'
        cases hcode'
        exact hyx rfl
      · rw [Layout.pop_leaf_of_ne hut]
        exact hin
  · obtain ⟨-, hy⟩ := hof hy
    exact hkeep (hT.root hy) (hroot_ne (hT.root hy))
  · obtain ⟨-, hu⟩ := hof hu
    by_cases hut : u = t
    · subst hut
      rw [Layout.pop_leaf_self]
      exact hkeep hp hpx
    · rw [Layout.pop_leaf_of_ne hut]
      refine hkeep (hT.leaf hu) ?_
      intro hleaf'
      have hu' := hT.leaf hu
      rw [hleaf', hhome] at hu'
      exact hut (Option.some.inj hu').symm
  · obtain ⟨hyx, hy⟩ := hof hy
    refine hT.inner hy ?_ hg
    by_cases hut : u = t
    · subst hut
      rw [hleaf]
      exact hyx
    · rw [Layout.pop_leaf_of_ne hut] at hin
      exact hin

/-- **A thread that is down to its first frame is taken out.** -/
theorem uproot (hT : Tree H L) (hhome : L.home t = some t) (hleaf : L.leaf t = t) :
    Tree H (L.uproot t) := by
  have hof : ∀ {y u}, (L.uproot t).home y = some u → u ≠ t ∧ L.home y = some u := by
    intro y u hy
    by_cases hyt : y = t
    · subst hyt
      rw [Layout.uproot_home_self] at hy
      cases hy
    · rw [Layout.uproot_home_of_ne hyt] at hy
      refine ⟨?_, hy⟩
      rintro rfl
      exact hyt (hT.eq_of_leaf hleaf hy)
  have hkeep : ∀ {y u}, L.home y = some u → u ≠ t → (L.uproot t).home y = some u := by
    intro y u hy hut
    refine (Layout.uproot_home_of_ne ?_).trans hy
    rintro rfl
    rw [hhome] at hy
    exact hut (Option.some.inj hy).symm
  refine {
    placed := fun {y u} hy => ?_
    root := fun hy => hkeep (hT.root (hof hy).2) (hof hy).1
    leaf := fun hu => hkeep (hT.leaf (hof hu).2) (hof hu).1
    inner := fun hy => hT.inner (hof hy).2
    detached := fun hu => hT.detached (hof hu).2 }
  obtain ⟨hut, hy⟩ := hof hy
  obtain ⟨f, hf, hplaced⟩ := hT.placed hy
  refine ⟨f, hf, ?_⟩
  cases hplaced with
  | root hroot hc => exact .root hroot hc
  | called hne hc hh hq hu hin hcode hc' hrunner =>
    exact .called hne hc hh hq (hkeep hu hut) hin hcode hc' hrunner

end Tree

/-! ## All frames -/

/-- **The frames are kept**: they are as laid out, and each belongs to a thread or to the
runner whose parameter it is, but for a few that are spare, since they were just created or
are about to be destroyed. -/
structure Kept (H : ℕ → Option (Frame σ α υ ξ)) (next : ℕ) (L : Layout σ υ ξ) (spare : Set ℕ) :
    Prop where
  tree : Tree H L
  ok : ∀ {r f}, H r = some f → f.Ok
  fresh : ∀ {x}, next ≤ x → H x = none
  param : ∀ {p g x}, H p = some g → g.param = some x → (p ∈ spare ∨ L.home p = some p)
    ∧ x ≠ p ∧ x < next ∧ (L.home x = none ∨ L.home x = some p)
  owned : ∀ {x f}, H x = some f →
    x ∈ spare ∨ (∃ t, L.home x = some t) ∨ ∃ p g, H p = some g ∧ g.param = some x

variable {next : ℕ} {spare spare' : Set ℕ}

theorem kept_new : Kept (fun _ => none : ℕ → Option (Frame σ α υ ξ)) 0 Layout.new ∅ where
  tree := tree_new
  ok hf := by cases hf
  fresh _ := rfl
  param hg := by cases hg
  owned hf := by cases hf

namespace Kept

theorem lt (hK : Kept H next L spare) (hf : H x = some f) : x < next := by
  by_contra hle
  rw [hK.fresh (Nat.le_of_not_lt hle)] at hf
  cases hf

/-- A runner is the first of its thread. -/
theorem home_runner (hK : Kept H next L ∅) (hf : H r = some f) (hrunner : f.param ≠ none) :
    L.home r = some r := by
  obtain ⟨x, hx⟩ := Option.ne_none_iff_exists'.mp hrunner
  exact (hK.param hf hx).1.resolve_left (Set.notMem_empty r)

/-- A frame is written. -/
theorem set (hK : Kept H next L spare) (hf : H r = some f) (hparam : f'.param = f.param)
    (hok : f'.Ok) (htree : Tree (Function.update H r (some f')) L) :
    Kept (Function.update H r (some f')) next L spare := by
  have hold : ∀ {x g}, Function.update H r (some f') x = some g →
      ∃ g', H x = some g' ∧ g'.param = g.param := by
    intro x g hg
    by_cases hxr : x = r
    · subst hxr
      rw [Function.update_self] at hg
      cases hg
      exact ⟨f, hf, hparam.symm⟩
    · exact ⟨g, (Function.update_of_ne hxr _ _).symm.trans hg, rfl⟩
  have hnew : ∀ {x g}, H x = some g →
      ∃ g', Function.update H r (some f') x = some g' ∧ g'.param = g.param := by
    intro x g hg
    by_cases hxr : x = r
    · subst hxr
      rw [hf] at hg
      cases hg
      exact ⟨f', Function.update_self _ _ _, hparam⟩
    · exact ⟨g, (Function.update_of_ne hxr _ _).trans hg, rfl⟩
  refine {
    tree := htree
    ok := fun {x g} hg => ?_
    fresh := fun {x} hx => ?_
    param := fun {p g x} hg hx => ?_
    owned := fun {x g} hg => ?_ }
  · by_cases hxr : x = r
    · subst hxr
      rw [Function.update_self] at hg
      cases hg
      exact hok
    · exact hK.ok ((Function.update_of_ne hxr _ _).symm.trans hg)
  · rw [Function.update_of_ne (ne_of_gt (lt_of_lt_of_le (hK.lt hf) hx))]
    exact hK.fresh hx
  · obtain ⟨g', hg', hparam'⟩ := hold hg
    exact hK.param hg' (hparam'.trans hx)
  · obtain ⟨g', hg', -⟩ := hold hg
    refine (hK.owned hg').imp_right (Or.imp_right ?_)
    rintro ⟨p, q, hq, hx⟩
    obtain ⟨q', hq', hparam'⟩ := hnew hq
    exact ⟨p, q', hq', hparam'.trans hx⟩

/-- A frame is created, and is spare for the moment. -/
theorem create (hK : Kept H next L spare) (hok : f.Ok)
    (hparam : ∀ x, f.param = some x → x < next ∧ L.home x = none) :
    Kept (Function.update H next (some f)) (next + 1) L (insert next spare) := by
  have hhome := hK.tree.home_of_none (hK.fresh (Nat.le_refl next))
  refine {
    tree := hK.tree.set_of_none hhome f
    ok := fun {x g} hg => ?_
    fresh := fun {x} hx => ?_
    param := fun {p g x} hg hx => ?_
    owned := fun {x g} hg => ?_ }
  · by_cases hxn : x = next
    · subst hxn
      rw [Function.update_self] at hg
      cases hg
      exact hok
    · exact hK.ok ((Function.update_of_ne hxn _ _).symm.trans hg)
  · rw [Function.update_of_ne (ne_of_gt hx)]
    exact hK.fresh (Nat.le_of_lt hx)
  · by_cases hpn : p = next
    · subst hpn
      rw [Function.update_self] at hg
      cases hg
      obtain ⟨hlt, hx'⟩ := hparam x hx
      exact ⟨.inl (Set.mem_insert _ _), ne_of_lt hlt, Nat.lt_succ_of_lt hlt, .inl hx'⟩
    · obtain ⟨hp, hne, hlt, hx'⟩ := hK.param ((Function.update_of_ne hpn _ _).symm.trans hg) hx
      exact ⟨hp.imp_left (Set.mem_insert_of_mem _), hne, Nat.lt_succ_of_lt hlt, hx'⟩
  · by_cases hxn : x = next
    · subst hxn
      exact .inl (Set.mem_insert _ _)
    · have hg' := (Function.update_of_ne hxn _ _).symm.trans hg
      refine (hK.owned hg').imp (Set.mem_insert_of_mem _) (Or.imp_right ?_)
      rintro ⟨p, q, hq, hx⟩
      exact ⟨p, q, (Function.update_of_ne (ne_of_lt (hK.lt hq)) _ _).trans hq, hx⟩

/-- A spare frame becomes the last of a thread. -/
theorem push (hK : Kept H next L spare) {stack : List (Outcome υ ξ → σ)}
    (hx : L.home x = none) (hf : H x = some f) (htree : Tree H (L.push t x stack))
    (hroot : f.param ≠ none → x = t)
    (hparam : ∀ p g, H p = some g → g.param = some x → p = t) :
    Kept H next (L.push t x stack) (spare \ {x}) where
  tree := htree
  ok := hK.ok
  fresh := hK.fresh
  param {p g y} hg hy := by
    obtain ⟨hp, hne, hlt, hy'⟩ := hK.param hg hy
    refine ⟨?_, hne, hlt, ?_⟩
    · by_cases hpx : p = x
      · subst hpx
        rw [hf] at hg
        cases hg
        have hpt := hroot (by rw [hy]; simp)
        subst hpt
        exact .inr Layout.push_home_self
      · rw [Layout.push_home_of_ne hpx]
        exact hp.imp_left (fun hp => ⟨hp, hpx⟩)
    · by_cases hyx : y = x
      · subst hyx
        rw [Layout.push_home_self, hparam p g hg hy]
        exact .inr rfl
      · rw [Layout.push_home_of_ne hyx]
        exact hy'
  owned {y g} hg := by
    by_cases hyx : y = x
    · subst hyx
      exact .inr (.inl ⟨t, Layout.push_home_self⟩)
    · rw [Layout.push_home_of_ne hyx]
      exact (hK.owned hg).imp_left (fun hy => ⟨hy, hyx⟩)

/-- The last frame of a thread returns, and is spare. -/
theorem pop (hK : Kept H next L spare) (hhome : L.home x = some t) (hne : x ≠ t)
    (htree : Tree H (L.pop t x p)) : Kept H next (L.pop t x p) (insert x spare) where
  tree := htree
  ok := hK.ok
  fresh := hK.fresh
  param {q g y} hg hy := by
    obtain ⟨hq, hne', hlt, hy'⟩ := hK.param hg hy
    refine ⟨?_, hne', hlt, ?_⟩
    · by_cases hqx : q = x
      · subst hqx
        exact .inl (Set.mem_insert _ _)
      · rw [Layout.pop_home_of_ne hqx]
        exact hq.imp_left (Set.mem_insert_of_mem _)
    · by_cases hyx : y = x
      · subst hyx
        exact .inl Layout.pop_home_self
      · rw [Layout.pop_home_of_ne hyx]
        exact hy'
  owned {y g} hg := by
    by_cases hyx : y = x
    · subst hyx
      exact .inl (Set.mem_insert _ _)
    · rw [Layout.pop_home_of_ne hyx]
      exact (hK.owned hg).imp_left (Set.mem_insert_of_mem _)

/-- The frame of a thread that ended is spare. -/
theorem uproot (hK : Kept H next L spare) (htree : Tree H (L.uproot t)) :
    Kept H next (L.uproot t) (insert t spare) where
  tree := htree
  ok := hK.ok
  fresh := hK.fresh
  param {q g y} hg hy := by
    obtain ⟨hq, hne', hlt, hy'⟩ := hK.param hg hy
    refine ⟨?_, hne', hlt, ?_⟩
    · by_cases hqt : q = t
      · subst hqt
        exact .inl (Set.mem_insert _ _)
      · rw [Layout.uproot_home_of_ne hqt]
        exact hq.imp_left (Set.mem_insert_of_mem _)
    · by_cases hyt : y = t
      · subst hyt
        exact .inl Layout.uproot_home_self
      · rw [Layout.uproot_home_of_ne hyt]
        exact hy'
  owned {y g} hg := by
    by_cases hyt : y = t
    · subst hyt
      exact .inl (Set.mem_insert _ _)
    · rw [Layout.uproot_home_of_ne hyt]
      exact (hK.owned hg).imp_left (Set.mem_insert_of_mem _)

/-- **A frame that belongs to no thread is destroyed**, with its parameter. -/
theorem erase (hK : Kept H next L spare) (hf : H r = some f) (hr : L.home r = none)
    (hparam : ∀ x, f.param = some x → L.home x = none ∧ x ∉ spare) :
    Kept (fun i => if i = r ∨ f.param = some i then none else H i) next L spare := by
  have hold : ∀ {x g}, (if x = r ∨ f.param = some x then none else H x) = some g →
      ¬ (x = r ∨ f.param = some x) ∧ H x = some g := by
    intro x g hg
    split at hg
    · cases hg
    · rename_i hnot
      exact ⟨hnot, hg⟩
  refine {
    tree := hK.tree.congr (fun y t hy => if_neg ?_)
    ok := fun hg => hK.ok (hold hg).2
    fresh := fun {x} hx => ?_
    param := fun hg => hK.param (hold hg).2
    owned := fun {x g} hg => ?_ }
  · rintro (rfl | hy')
    · rw [hr] at hy
      cases hy
    · rw [(hparam y hy').1] at hy
      cases hy
  · show (if x = r ∨ f.param = some x then none else H x) = none
    split
    · rfl
    · exact hK.fresh hx
  · obtain ⟨hnot, hg'⟩ := hold hg
    refine (hK.owned hg').imp_right (Or.imp_right ?_)
    rintro ⟨p, q, hq, hx⟩
    refine ⟨p, q, (if_neg ?_).trans hq, hx⟩
    rintro (rfl | hp)
    · -- the frame is not the parameter of the one that is destroyed
      rw [hf] at hq
      cases hq
      exact hnot (.inr hx)
    · -- the parameter is a task, and has none
      obtain ⟨hhome, hspare⟩ := hparam p hp
      obtain ⟨hp', -⟩ := hK.param hq hx
      obtain hmem | hroot := hp'
      · exact hspare hmem
      · rw [hhome] at hroot
        cases hroot

/-- Frames that are not there, or that a runner owns, are not spare. -/
theorem shrink (hK : Kept H next L spare)
    (hspare : ∀ x f, H x = some f → x ∈ spare → x ∉ spare' →
      f.param = none ∧ ∃ p g, H p = some g ∧ g.param = some x) : Kept H next L spare' where
  tree := hK.tree
  ok := hK.ok
  fresh := hK.fresh
  param {p g x} hg hx := by
    obtain ⟨hp, hrest⟩ := hK.param hg hx
    refine ⟨hp.imp_left (fun hp => ?_), hrest⟩
    by_contra hnot
    rw [(hspare p g hg hp hnot).1] at hx
    cases hx
  owned {x g} hg := by
    obtain hx | hx := hK.owned hg
    · by_cases hx' : x ∈ spare'
      · exact .inl hx'
      · exact .inr (.inr (hspare x g hg hx hx').2)
    · exact .inr hx

end Kept

end Coroutines

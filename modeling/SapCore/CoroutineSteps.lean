import SapCore.CoroutineWaiting

/-!
# What the steps do to the frames and the threads

`Rel` puts together what holds of the frames (`Kept`) and of the threads that are not busy
(`Others`). The rules for the two are put together with it, each for one thing that the
runtime does: a frame is created, the coroutine that has control writes to its own frame, it
calls another or returns, a thread begins or ends.
-/

namespace Coroutines

variable {σ ω τ η α υ ξ : Type}

/-- **The frames and the threads agree.** -/
structure Rel (setup : Setup α τ η) (prog : σ → Instr σ ω τ η υ ξ)
    (H : ℕ → Option (Frame σ α υ ξ)) (next : ℕ) (callers : List (Caller σ))
    (suspendedIn : ℕ → Option α) (thread : ℕ → Option (Thread σ υ ξ)) (L : Layout σ υ ξ)
    (busy spare : Set ℕ) : Prop where
  kept : Kept H next L spare
  others : Others setup prog H callers suspendedIn thread L busy
  numbers : ∀ {t th}, thread t = some th → t < next

variable {setup : Setup α τ η} {prog : σ → Instr σ ω τ η υ ξ} {H : ℕ → Option (Frame σ α υ ξ)}
  {next : ℕ} {callers : List (Caller σ)} {suspendedIn : ℕ → Option α}
  {thread : ℕ → Option (Thread σ υ ξ)} {L : Layout σ υ ξ} {busy spare : Set ℕ}
  {t u r h x p : ℕ} {f f' g g' : Frame σ α υ ξ} {s : σ} {a : α} {o : Outcome υ ξ}

/-! ## Frames -/

namespace Frame

theorem ok_task (s : σ) : (task s : Frame σ α υ ξ).Ok where
  start _ := rfl
  startRunner hcode := by cases hcode
  running hcode := by cases hcode
  statement hcode := by cases hcode
  runner hcode := by cases hcode
  awaitingSpawn hcode := by cases hcode
  awaitingIo hcode := by cases hcode
  blank _ := ⟨rfl, rfl, rfl⟩

theorem ok_runner (task : ℕ) : (runner task : Frame σ α υ ξ).Ok where
  start hcode := by cases hcode
  startRunner hcode := by cases hcode; rfl
  running hcode := by cases hcode
  statement hcode := by cases hcode
  runner hcode := by cases hcode
  awaitingSpawn hcode := by cases hcode
  awaitingIo hcode := by cases hcode
  blank _ := ⟨rfl, rfl, rfl⟩

/-- A promise that is empty and gets a result has it. -/
theorem outcome_finish (hok : f.Ok) (hcode : f.code.done = false) (o : Outcome υ ξ) :
    (f.finish o).promise.outcome = some o := by
  obtain ⟨hexc, hvalue, -⟩ := hok.blank hcode
  cases o with
  | value v => simp [finish, Async.Promise.store, Async.Promise.outcome, hexc]
  | exception e => simp [finish, Async.Promise.store, Async.Promise.outcome]

/-- A result that was not moved out is taken. -/
theorem result_eq (htaken : f.taken = false) : f.result = f.promise.outcome := by
  unfold result Async.Promise.outcome
  rw [htaken]
  cases f.promise.exc with
  | some e => rfl
  | none =>
    cases f.promise.value with
    | some v => rfl
    | none => rfl

theorem ok_finish (f : Frame σ α υ ξ) (o : Outcome υ ξ) : (f.finish o).Ok where
  start hcode := by cases hcode
  startRunner hcode := by cases hcode
  running hcode := by cases hcode
  statement hcode := by cases hcode
  runner hcode := by cases hcode
  awaitingSpawn hcode := by cases hcode
  awaitingIo hcode := by cases hcode
  blank hdone := by cases hdone

/-- The promise of a frame is written, but for its result. -/
theorem Ok.congr (hok : f.Ok) (hcode : f'.code = f.code) (hparam : f'.param = f.param)
    (hblank : f.code.done = false → f'.promise.exc = f.promise.exc
      ∧ f'.promise.value = f.promise.value ∧ f'.taken = f.taken) : f'.Ok where
  start hc := hparam.trans (hok.start (hcode.symm.trans hc))
  startRunner hc := hparam.trans (hok.startRunner (hcode.symm.trans hc))
  running hc := hparam.trans (hok.running (hcode.symm.trans hc))
  statement hc := hparam.trans (hok.statement (hcode.symm.trans hc))
  runner hc := hparam.trans (hok.runner (hcode.symm.trans hc))
  awaitingSpawn hc := hparam.trans (hok.awaitingSpawn (hcode.symm.trans hc))
  awaitingIo hc := hparam.trans (hok.awaitingIo (hcode.symm.trans hc))
  blank hdone := by
    rw [hcode] at hdone
    obtain ⟨hexc, hvalue, htaken⟩ := hblank hdone
    obtain ⟨hexc', hvalue', htaken'⟩ := hok.blank hdone
    exact ⟨hexc.trans hexc', hvalue.trans hvalue', htaken.trans htaken'⟩

/-- A task is suspended, or goes on. -/
theorem Ok.goTo (hok : f.Ok) (hdone : f.code.done = false) (hparam : f.param = none)
    {code : Code σ α υ ξ} (hstart : ∀ x, code ≠ .startRunner x)
    (hrunner : ∀ x, code ≠ .awaiting x .runner) : (f.goTo code).Ok where
  start _ := hparam
  startRunner hc := absurd hc (hstart _)
  running _ := hparam
  statement _ := hparam
  runner hc := absurd hc (hrunner _)
  awaitingSpawn _ := hparam
  awaitingIo _ := hparam
  blank _ := hok.blank hdone

end Frame

/-! ## Rules -/

namespace Rel

/-- The number of the next frame is nobody's parameter. -/
theorem param_ne_next (hR : Rel setup prog H next callers suspendedIn thread L busy spare)
    (hg : H p = some g) : g.param ≠ some next := by
  intro hx
  exact absurd (hR.kept.param hg hx).2.2.1 (Nat.lt_irrefl next)

/-- The next frame belongs to no thread. -/
theorem home_next (hR : Rel setup prog H next callers suspendedIn thread L busy spare) :
    L.home next = none :=
  hR.kept.tree.home_of_none (hR.kept.fresh (Nat.le_refl next))

/-- The number of the next frame is not that of a thread. -/
theorem thread_of_le (hR : Rel setup prog H next callers suspendedIn thread L busy spare)
    (ht : next ≤ t) : thread t = none := by
  cases hth : thread t with
  | none => rfl
  | some th => exact absurd (hR.numbers hth) (Nat.not_lt.mpr ht)

/-- A runner that is done is the last of its thread. -/
theorem leaf_of_done (hR : Rel setup prog H next callers suspendedIn thread L busy ∅)
    (hf : H h = some f) (hrunner : f.param ≠ none) (hfinal : f.code = .final) : L.leaf h = h := by
  by_contra hne
  obtain ⟨task, after, hcode⟩ :=
    hR.kept.tree.inner (hR.kept.home_runner hf hrunner) (Ne.symm hne) hf
  rw [hfinal] at hcode
  cases hcode

/-- **The thread of a runner that is done ended as the promise says**, where it is not busy. -/
theorem thread_of_done (hR : Rel setup prog H next callers suspendedIn thread L busy ∅)
    (hf : H h = some f) (hrunner : f.param ≠ none) (hfinal : f.code = .final) (hbusy : h ∉ busy) :
    ∃ o, thread h = some (.done o) ∧ f.promise.outcome = some o := by
  have hleaf := hR.leaf_of_done hf hrunner hfinal
  have hcode : ∀ {g}, H (L.leaf h) = some g → g.code = .final := by
    intro g hg
    rw [hleaf, hf] at hg
    cases hg
    exact hfinal
  cases hR.others.parked (hR.kept.home_runner hf hrunner) hbusy with
  | called hg hrunning =>
    rw [hcode hg] at hrunning
    cases hrunning
  | io hg hio =>
    rw [hcode hg] at hio
    cases hio
  | join hg hspawn =>
    rw [hcode hg] at hspawn
    cases hspawn
  | finished _ hg _ _ _ hthread houtcome =>
    rw [hf] at hg
    cases hg
    exact ⟨_, hthread, houtcome⟩

/-- **A coroutine waits for the end of a runner**: the handle was not dropped, and the thread
is at the `co_await`. -/
theorem joiner (hR : Rel setup prog H next callers suspendedIn thread L busy spare)
    (haw : Awaited H L h r g) (hbusy : ∀ t, L.home r = some t → L.leaf t = r → t ∉ busy) :
    g.promise.detached = false ∧ ∃ t s next f, L.home r = some t ∧ L.leaf t = r
      ∧ H r = some f ∧ f.code = .awaitingSpawn h next ∧ prog s = .join h next
      ∧ thread t = some (.running s (L.cont r)) := by
  obtain ⟨t, ht, hleaf, f, next, hf, hcode⟩ := hR.others.awaited haw
  have hparked := hR.others.parked (hR.kept.tree.root ht) (hbusy t ht hleaf)
  have hsame : ∀ {f'}, H (L.leaf t) = some f' → f' = f := by
    intro f' hf'
    rw [hleaf, hf] at hf'
    exact (Option.some.inj hf').symm
  cases hparked with
  | called hf' hcode' =>
    rw [hsame hf', hcode] at hcode'
    cases hcode'
  | io hf' hcode' =>
    rw [hsame hf', hcode] at hcode'
    cases hcode'
  | join hf' hcode' hinstr hthread haw' hheld =>
    rw [hsame hf', hcode] at hcode'
    cases hcode'
    have hg := haw'.frame
    rw [haw.frame] at hg
    cases hg
    rw [hleaf] at hthread
    exact ⟨hheld, t, _, next, f, ht, hleaf, hf, hcode, hinstr, hthread⟩
  | finished hl hf' hcode' =>
    rw [← hl] at hf'
    rw [hsame hf', hcode] at hcode'
    cases hcode'

/-- **A coroutine waits for I/O**: its thread is at the `co_await`. -/
theorem waiter (hR : Rel setup prog H next callers suspendedIn thread L busy spare)
    (hin : suspendedIn r = some a) (hbusy : ∀ t, L.home r = some t → L.leaf t = r → t ∉ busy) :
    ∃ t s next f, L.home r = some t ∧ L.leaf t = r ∧ H r = some f
      ∧ f.code = .awaitingIo a next ∧ prog s = .io (setup.handle a) (setup.token a) next
      ∧ thread t = some (.running s (L.cont r)) := by
  obtain ⟨t, ht, hleaf, f, next, hf, hcode⟩ := hR.others.suspended hin
  have hparked := hR.others.parked (hR.kept.tree.root ht) (hbusy t ht hleaf)
  have hsame : ∀ {f'}, H (L.leaf t) = some f' → f' = f := by
    intro f' hf'
    rw [hleaf, hf] at hf'
    exact (Option.some.inj hf').symm
  cases hparked with
  | called hf' hcode' =>
    rw [hsame hf', hcode] at hcode'
    cases hcode'
  | io hf' hcode' _ hinstr hthread =>
    rw [hsame hf', hcode] at hcode'
    cases hcode'
    rw [hleaf] at hthread
    exact ⟨t, _, next, f, ht, hleaf, hf, hcode, hinstr, hthread⟩
  | join hf' hcode' =>
    rw [hsame hf', hcode] at hcode'
    cases hcode'
  | finished hl hf' hcode' =>
    rw [← hl] at hf'
    rw [hsame hf', hcode] at hcode'
    cases hcode'

/-- A coroutine is created. -/
theorem create (hR : Rel setup prog H next callers suspendedIn thread L busy spare) (hok : f.Ok)
    (hparam : ∀ x, f.param = some x → x < next ∧ L.home x = none) :
    Rel setup prog (Function.update H next (some f)) (next + 1) callers suspendedIn thread L busy
      (insert next spare) where
  kept := hR.kept.create hok hparam
  others := by
    refine hR.others.congr hR.kept.tree (fun x t hx => Function.update_of_ne ?_ _ _)
    rintro rfl
    rw [hR.kept.tree.home_of_none (hR.kept.fresh (Nat.le_refl _))] at hx
    cases hx
  numbers ht := Nat.lt_succ_of_lt (hR.numbers ht)

/-- **A busy thread writes its last frame.** -/
theorem set_leaf (hR : Rel setup prog H next callers suspendedIn thread L busy spare)
    (hhome : L.home r = some t) (hleaf : L.leaf t = r) (hbusy : t ∈ busy)
    (hunheld : Unheld H callers suspendedIn L r) (hf : H r = some f) (hok : f'.Ok)
    (hparam : f'.param = f.param)
    (hcontinuation : f'.promise.continuation = f.promise.continuation)
    (hdetached : f'.promise.detached = f.promise.detached)
    (hfree : ∀ u g, L.home u = some u → u ∉ busy → ¬ Awaited H L r (L.leaf u) g)
    (hfree' : f'.param ≠ none → f'.code.done = false → f'.promise.continuation = none) :
    Rel setup prog (Function.update H r (some f')) next callers suspendedIn thread L busy
      spare where
  kept := hR.kept.set hf hparam hok
    (hR.kept.tree.set_leaf hf hhome hleaf hparam hcontinuation hdetached)
  others := hR.others.set_leaf hR.kept.tree hhome hbusy hunheld hfree hfree'
  numbers := hR.numbers

/-- Nobody waits for the end of a coroutine that is not a runner. -/
theorem not_awaited (hf : H r = some f) (hparam : f.param = none) (y : ℕ)
    (g : Frame σ α υ ξ) : ¬ Awaited H L r y g := by
  intro haw
  have hg := haw.frame
  rw [hf] at hg
  cases hg
  exact haw.runner hparam

/-- The same for a frame that is not that of a runner. -/
theorem set_task (hR : Rel setup prog H next callers suspendedIn thread L busy spare)
    (hhome : L.home r = some t) (hleaf : L.leaf t = r) (hbusy : t ∈ busy)
    (hunheld : Unheld H callers suspendedIn L r) (hf : H r = some f) (hok : f'.Ok)
    (hnone : f.param = none) (hparam : f'.param = f.param)
    (hcontinuation : f'.promise.continuation = f.promise.continuation)
    (hdetached : f'.promise.detached = f.promise.detached) :
    Rel setup prog (Function.update H r (some f')) next callers suspendedIn thread L busy spare :=
  hR.set_leaf hhome hleaf hbusy hunheld hf hok hparam hcontinuation hdetached
    (fun _ _ _ _ => not_awaited hf hnone _ _) (fun hparam' => absurd (hparam.trans hnone) hparam')

/-- A frame that belongs to no thread is written. -/
theorem set_out (hR : Rel setup prog H next callers suspendedIn thread L busy spare)
    (hhome : L.home x = none) (hf : H x = some f) (hok : f'.Ok) (hparam : f'.param = f.param) :
    Rel setup prog (Function.update H x (some f')) next callers suspendedIn thread L busy
      spare where
  kept := hR.kept.set hf hparam hok (hR.kept.tree.set_of_none hhome f')
  others := by
    refine hR.others.congr hR.kept.tree (fun y t hy => Function.update_of_ne ?_ _ _)
    rintro rfl
    rw [hhome] at hy
    cases hy
  numbers := hR.numbers

/-- The promise of a runner is written. -/
theorem set_runner (hR : Rel setup prog H next callers suspendedIn thread L busy ∅)
    (hf : H h = some f) (hrunner : f.param ≠ none) (hok : f'.Ok)
    (hcode : f'.code = f.code) (hparam : f'.param = f.param)
    (hdone : f.code = .final → f'.promise.detached = f.promise.detached
      ∧ f'.promise.outcome = f.promise.outcome)
    (hpending : f.code.done = false → f.promise.continuation = none)
    (hawaited : ∀ r, f.code.done = false → f'.promise.continuation = some r →
      ∃ t, L.home r = some t ∧ L.leaf t = r
        ∧ ∃ g next, H r = some g ∧ g.code = .awaitingSpawn h next) :
    Rel setup prog (Function.update H h (some f')) next callers suspendedIn thread L busy ∅ where
  kept := hR.kept.set hf hparam hok
    (hR.kept.tree.set_runner hf (hR.kept.home_runner hf hrunner) hrunner hcode hparam)
  others := hR.others.set_runner (hR.kept.ok hf) hf hrunner hcode hparam hdone hpending hawaited
  numbers := hR.numbers

/-- **A busy thread goes on.** -/
theorem set_thread (hR : Rel setup prog H next callers suspendedIn thread L busy spare)
    (hhome : L.home t = some t) (hbusy : t ∈ busy)
    (hcalled : ∀ s, .coroutine (L.leaf t) s ∉ callers) (th : Thread σ υ ξ) :
    Rel setup prog H next callers suspendedIn (Function.update thread t (some th)) L busy
      spare where
  kept := hR.kept
  others := hR.others.set_thread hhome hbusy hcalled th
  numbers {u th'} hu := by
    by_cases hut : u = t
    · subst hut
      obtain ⟨f, hf⟩ := hR.kept.tree.frame hhome
      exact hR.kept.lt hf
    · rw [Function.update_of_ne hut] at hu
      exact hR.numbers hu

/-- **The last coroutine of a busy thread calls another.** -/
theorem call (hR : Rel setup prog H next callers suspendedIn thread L busy spare)
    {after : After σ υ ξ} (hhome : L.home r = some t) (hleaf : L.leaf t = r) (hbusy : t ∈ busy)
    (hunheld : Unheld H callers suspendedIn L r) (hx : L.home x = none) (hr : H r = some g)
    (hf : H x = some f) (hcode : g.code = .awaiting x after)
    (hcontinuation : f.promise.continuation = some r) (hheld : f.promise.detached = false)
    (hnone : f.param = none) (hrunner : after = .runner → r = t)
    (hparam : ∀ p g, H p = some g → g.param = some x → p = t) :
    Rel setup prog H next callers suspendedIn thread (L.push t x (after.cont (L.cont r))) busy
      (spare \ {x}) where
  kept := hR.kept.push hx hf (hR.kept.tree.call hhome hleaf hx hr hf hcode hcontinuation hheld
    hrunner) (fun hparam => absurd hnone hparam) hparam
  others := by
    refine hR.others.push hR.kept.tree hx hbusy (fun _ => hleaf ▸ hunheld) (fun htx => ?_)
    rw [← htx, hR.kept.tree.root hhome] at hx
    cases hx
  numbers := hR.numbers

/-- **A coroutine awaits a task**: the two frames are written, and the thread goes on in the
task. -/
theorem await (hR : Rel setup prog H next callers suspendedIn thread L busy spare)
    {after : After σ υ ξ} (hhome : L.home r = some t) (hleaf : L.leaf t = r) (hbusy : t ∈ busy)
    (hunheld : Unheld H callers suspendedIn L r) (hr : H r = some g) (hx : L.home x = none)
    (hf : H x = some f) (hok : (g.goTo (.awaiting x after)).Ok)
    (hfree : g.param ≠ none → g.promise.continuation = none) (hheld : f.promise.detached = false)
    (hnone : f.param = none) (hrunner : after = .runner → r = t)
    (hparam : ∀ p g, H p = some g → g.param = some x → p = t) (th : Thread σ υ ξ) :
    Rel setup prog (Function.update (Function.update H r (some (g.goTo (.awaiting x after)))) x
      (some (f.continueWith r))) next callers suspendedIn (Function.update thread t (some th))
      (L.push t x (after.cont (L.cont r))) busy (spare \ {x}) := by
  have hne : r ≠ x := by
    rintro rfl
    rw [hx] at hhome
    cases hhome
  have hcaller := hR.set_leaf hhome hleaf hbusy hunheld hr hok rfl rfl rfl
    (fun u g' _ _ haw => ?_) (fun hparam _ => hfree hparam)
  · have hf' := (Function.update_of_ne hne.symm (some (g.goTo (.awaiting x after))) H).trans hf
    have hok' : (f.continueWith r).Ok :=
      (hR.kept.ok hf).congr rfl rfl (fun _ => ⟨rfl, rfl, rfl⟩)
    have htask := hcaller.set_out hx hf' hok' rfl
    have hr' := (Function.update_of_ne hne (some (f.continueWith r)) _).trans
      (Function.update_self r (some (g.goTo (.awaiting x after))) H)
    have hunheld' := htask.others.unheld_of_code hr' (by simp [Frame.goTo])
      (fun h next hcode => by cases hcode) (by simp [Frame.goTo])
    refine (htask.set_thread (hR.kept.tree.root hhome) hbusy (fun s => ?_) th).call hhome hleaf
      hbusy hunheld' hx hr' (Function.update_self _ _ _) rfl rfl hheld hnone hrunner
      (fun p q hq hqx => ?_)
    · rw [hleaf]
      exact hunheld.called s
    · by_cases hpx : p = x
      · subst hpx
        rw [Function.update_self] at hq
        cases hq
        rw [show (f.continueWith r).param = f.param from rfl, hnone] at hqx
        cases hqx
      · rw [Function.update_of_ne hpx] at hq
        by_cases hpr : p = r
        · subst hpr
          rw [Function.update_self] at hq
          cases hq
          exact hparam p g hr hqx
        · rw [Function.update_of_ne hpr] at hq
          exact hparam p q hq hqx
  · have hg := haw.frame
    rw [hr] at hg
    cases hg
    have hnone' := hfree haw.runner
    rw [haw.continuation] at hnone'
    cases hnone'

/-- **A thread begins.** -/
theorem plant (hR : Rel setup prog H next callers suspendedIn thread L busy spare)
    (hx : L.home x = none) (hf : H x = some f) (hcontinuation : f.promise.continuation = none)
    (hdetached : f.param = none → f.promise.detached = true)
    (hparam : ∀ p g, H p = some g → g.param ≠ some x) (th : Thread σ υ ξ) :
    Rel setup prog H next callers suspendedIn (Function.update thread x (some th)) (L.push x x [])
      (insert x busy) (spare \ {x}) := by
  have hkept : Kept H next (L.push x x []) (spare \ {x}) :=
    hR.kept.push hx hf (hR.kept.tree.plant hx hf hdetached) (fun _ => rfl)
      (fun p g hg hgx => absurd hgx (hparam p g hg))
  have hbusy : Others setup prog H callers suspendedIn thread L (insert x busy) :=
    hR.others.settle (fun t _ ht hnot => absurd (Set.mem_insert_of_mem x ht) hnot)
  have hothers : Others setup prog H callers suspendedIn thread (L.push x x [])
      (insert x busy) := by
    refine hbusy.push hR.kept.tree hx (Set.mem_insert _ _) (fun hhome => ?_) (fun _ g hg => ?_)
    · rw [hx] at hhome
      cases hhome
    · rw [hf] at hg
      cases hg
      exact hcontinuation
  have hR' : Rel setup prog H next callers suspendedIn thread (L.push x x []) (insert x busy)
      (spare \ {x}) := ⟨hkept, hothers, hR.numbers⟩
  refine hR'.set_thread Layout.push_home_self (Set.mem_insert _ _) (fun s => ?_) th
  rw [Layout.push_leaf_self]
  exact (hR.others.unheld_of_home hx).called s

/-- No frame is spare. -/
theorem unspare (hR : Rel setup prog H next callers suspendedIn thread L busy spare)
    (hspare : ∀ y, y ∉ spare) : Rel setup prog H next callers suspendedIn thread L busy ∅ :=
  { hR with kept := hR.kept.shrink (fun y _ _ hy _ => absurd hy (hspare y)) }

theorem notMem_insert_diff (x y : ℕ) : y ∉ (insert x ∅ \ {x} : Set ℕ) := by
  rintro ⟨hy, hne⟩
  obtain hyx | hy := Set.mem_insert_iff.mp hy
  · exact hne hyx
  · exact Set.notMem_empty y hy

/-- **A task is detached**: a thread begins. -/
theorem detach (hR : Rel setup prog H next callers suspendedIn thread L ∅ ∅) (s : σ) :
    Rel setup prog (Function.update H next (some (Frame.task s).release)) (next + 1) callers
      suspendedIn (Function.update thread next (some (.running s []))) (L.push next next []) {next}
      ∅ := by
  have hok : (Frame.task s : Frame σ α υ ξ).release.Ok :=
    (Frame.ok_task s).congr rfl rfl (fun _ => ⟨rfl, rfl, rfl⟩)
  have hcreated := hR.create hok (fun x hx => by cases hx)
  have hplanted := hcreated.plant hR.home_next (Function.update_self _ _ _) rfl (fun _ => rfl)
    (fun p g hg => ?_) (.running s [])
  · rw [← insert_empty_eq]
    exact hplanted.unspare (notMem_insert_diff next)
  · by_cases hpn : p = next
    · subst hpn
      rw [Function.update_self] at hg
      cases hg
      simp [Frame.task, Frame.release]
    · rw [Function.update_of_ne hpn] at hg
      exact hR.param_ne_next hg

/-- **A task is spawned**: a thread begins with its runner. -/
theorem spawn (hR : Rel setup prog H next callers suspendedIn thread L ∅ ∅) (s : σ) :
    Rel setup prog (Function.update (Function.update H next (some (.task s))) (next + 1)
      (some (.runner next))) (next + 2) callers suspendedIn
      (Function.update thread (next + 1) (some (.running s []))) (L.push (next + 1) (next + 1) [])
      {next + 1} ∅ := by
  have htask := hR.create (Frame.ok_task s) (fun x hx => by cases hx)
  have hrunner := htask.create (Frame.ok_runner next) (fun x hx => by
    cases hx
    exact ⟨Nat.lt_succ_self next, hR.home_next⟩)
  have hplanted := hrunner.plant htask.home_next (Function.update_self _ _ _) rfl
    (fun hnone => by cases hnone) (fun p g hg => ?_) (.running s [])
  · rw [← insert_empty_eq]
    refine { hplanted with kept := hplanted.kept.shrink (fun y g hg hy _ => ?_) }
    obtain ⟨hy, hne⟩ := hy
    have hyn : y = next :=
      ((Set.mem_insert_iff.mp hy).resolve_left hne).resolve_right (Set.notMem_empty y)
    subst hyn
    -- the frame of the task is the parameter of the runner
    rw [Function.update_of_ne (Nat.ne_of_lt (Nat.lt_succ_self y)), Function.update_self] at hg
    cases hg
    exact ⟨rfl, y + 1, .runner y, Function.update_self _ _ _, rfl⟩
  · by_cases hpn : p = next + 1
    · subst hpn
      rw [Function.update_self] at hg
      cases hg
      simp [Frame.runner]
    · rw [Function.update_of_ne hpn] at hg
      exact htask.param_ne_next hg

/-- **The last coroutine of a busy thread returns.** -/
theorem pop (hR : Rel setup prog H next callers suspendedIn thread L busy spare)
    (hhome : L.home x = some t) (hleaf : L.leaf t = x) (hne : x ≠ t) (hbusy : t ∈ busy)
    (hunheld : Unheld H callers suspendedIn L x) (hp : L.home p = some t) (hparent : H p = some g)
    {after : After σ υ ξ} (hcode : g.code = .awaiting x after) (hpx : p ≠ x) :
    Rel setup prog H next callers suspendedIn thread (L.pop t x p) busy (insert x spare) where
  kept := hR.kept.pop hhome hne (hR.kept.tree.pop hhome hleaf hne hp hparent hcode hpx)
  others := hR.others.pop hhome hne hleaf hbusy hunheld
  numbers := hR.numbers

/-- A frame that belongs to no thread is destroyed, with its parameter. -/
theorem erase (hR : Rel setup prog H next callers suspendedIn thread L busy spare)
    (hf : H r = some f) (hr : L.home r = none)
    (hparam : ∀ x, f.param = some x → L.home x = none ∧ x ∉ spare) :
    Rel setup prog (fun i => if i = r ∨ f.param = some i then none else H i) next callers
      suspendedIn thread L busy spare where
  kept := hR.kept.erase hf hr hparam
  others := by
    refine hR.others.congr hR.kept.tree (fun x t hx => if_neg ?_)
    rintro (rfl | hx')
    · rw [hr] at hx
      cases hx
    · rw [(hparam x hx').1] at hx
      cases hx
  numbers := hR.numbers

/-- A task that returned is destroyed. -/
theorem erase_task (hR : Rel setup prog H next callers suspendedIn thread L busy (insert x ∅))
    (hf : H x = some f) (hx : L.home x = none) (hnone : f.param = none) :
    Rel setup prog (fun i => if i = x ∨ f.param = some i then none else H i) next callers
      suspendedIn thread L busy ∅ := by
  have hR' := hR.erase hf hx (fun y hy => by rw [hnone] at hy; cases hy)
  refine { hR' with kept := hR'.kept.shrink (fun y g hg hy _ => ?_) }
  obtain rfl | hy := Set.mem_insert_iff.mp hy
  · rw [if_pos (.inl rfl)] at hg
    cases hg
  · exact absurd hy (Set.notMem_empty y)

/-- **The frame of a thread that ended is destroyed**, and nobody waits for it. -/
theorem erase_root (hR : Rel setup prog H next callers suspendedIn thread L busy ∅)
    (hhome : L.home t = some t) (hleaf : L.leaf t = t)
    (hunheld : Unheld H callers suspendedIn L t) (hdone : thread t = some (.done o))
    (hfree : ∀ u g, L.home u = some u → u ∉ busy → ¬ Awaited H L t (L.leaf u) g)
    (hf : H t = some f) :
    Rel setup prog (fun i => if i = t ∨ f.param = some i then none else H i) next callers
      suspendedIn thread (L.uproot t) busy ∅ := by
  have hup : Rel setup prog H next callers suspendedIn thread (L.uproot t) busy (insert t ∅) :=
    ⟨hR.kept.uproot (hR.kept.tree.uproot hhome hleaf), hR.others.uproot hunheld hdone hfree,
      hR.numbers⟩
  have hR' := hup.erase hf Layout.uproot_home_self (fun x hx => ?_)
  · refine { hR' with kept := hR'.kept.shrink (fun y g hg hy _ => ?_) }
    obtain rfl | hy := Set.mem_insert_iff.mp hy
    · rw [if_pos (.inl rfl)] at hg
      cases hg
    · exact absurd hy (Set.notMem_empty y)
  · obtain ⟨-, hne, -, hx'⟩ := hR.kept.param hf hx
    refine ⟨(Layout.uproot_home_of_ne hne).trans (hx'.resolve_right (fun hx' => ?_)), ?_⟩
    · exact hne (hR.kept.tree.eq_of_leaf hleaf hx')
    · rw [Set.mem_insert_iff, not_or]
      exact ⟨hne, Set.notMem_empty x⟩

/-- **A thread ends and its frame destroys itself.** -/
theorem vanish (hR : Rel setup prog H next callers suspendedIn thread L {t} ∅)
    (hhome : L.home t = some t) (hleaf : L.leaf t = t) (hf : H t = some f)
    (hfinal : f.code = .final) (hdone : thread t = some (.done o)) :
    Rel setup prog (fun i => if i = t ∨ f.param = some i then none else H i) next callers
      suspendedIn thread (L.uproot t) ∅ ∅ := by
  have hunheld := hR.others.unheld_of_code hf (by simp [hfinal])
    (fun _ _ hc => by rw [hfinal] at hc; cases hc) (by simp [hfinal])
  have herased := hR.erase_root hhome hleaf hunheld hdone (fun u g _ _ haw => ?_) hf
  · refine { herased with others := herased.others.settle (fun u hu hmem _ => ?_) }
    obtain rfl := Set.mem_singleton_iff.mp hmem
    rw [Layout.uproot_home_self] at hu
    cases hu
  · have hpending := haw.pending
    have hg := haw.frame
    rw [hf] at hg
    cases hg
    rw [hfinal] at hpending
    cases hpending

/-- **A thread ends and a handle holds its runner.** -/
theorem finished (hR : Rel setup prog H next callers suspendedIn thread L (insert t busy) ∅)
    (hleaf : L.leaf t = t) (hf : H t = some f) (hfinal : f.code = .final)
    (hrunner : f.param ≠ none) (hheld : f.promise.detached = false)
    (hdone : thread t = some (.done o)) (houtcome : f.promise.outcome = some o) :
    Rel setup prog H next callers suspendedIn thread L busy ∅ := by
  refine { hR with others := hR.others.settle (fun u _ hu hu' => ?_) }
  obtain rfl := (Set.mem_insert_iff.mp hu).resolve_right hu'
  exact .finished hleaf hf hfinal hrunner hheld hdone houtcome

/-- **The result of a task is taken** by the coroutine that awaits it. -/
theorem take (hR : Rel setup prog H next callers suspendedIn thread L busy ∅)
    (hhome : L.home x = some t) (hleaf : L.leaf t = x) (hne : x ≠ t) (hbusy : t ∈ busy)
    (hf : H x = some f) (hfinal : f.code = .final) (hnone : f.param = none)
    (hp : L.home p = some t) (hpx : p ≠ x) (hg : H p = some g) {after : After σ υ ξ}
    (hcode : g.code = .awaiting x after) :
    Rel setup prog (Function.update H x (some { f with taken := true })) next callers suspendedIn
      thread (L.pop t x p) busy (insert x ∅) := by
  have hunheld := hR.others.unheld_of_code hf (by simp [hfinal])
    (fun _ _ hc => by rw [hfinal] at hc; cases hc) (by simp [hfinal])
  have hok : ({ f with taken := true } : Frame σ α υ ξ).Ok :=
    (hR.kept.ok hf).congr rfl rfl (fun hdone => by rw [hfinal] at hdone; cases hdone)
  have htaken := hR.set_task hhome hleaf hbusy hunheld hf hok hnone rfl rfl rfl
  have hx := Function.update_self x (some ({ f with taken := true } : Frame σ α υ ξ)) H
  have hunheld' := htaken.others.unheld_of_code hx (by simp [hfinal])
    (fun _ _ hc => by cases hfinal.symm.trans hc) (by simp [hfinal])
  exact htaken.pop hhome hleaf hne hbusy hunheld' hp
    ((Function.update_of_ne hpx _ _).trans hg) hcode hpx

/-- **A coroutine goes on after the `co_await` of a task**, which is destroyed. -/
theorem goOn (hR : Rel setup prog H next callers suspendedIn thread (L.pop t x p) busy (insert x ∅))
    (hf : H x = some f) (hnone : f.param = none) (hp : (L.pop t x p).home p = some t)
    (hbusy : t ∈ busy) (hpx : p ≠ x) (hg : H p = some g) {next' : Outcome υ ξ → σ}
    (hcode : g.code = .awaiting x (.statement next')) (th : Thread σ υ ξ) :
    Rel setup prog (Function.update (fun i => if i = x ∨ f.param = some i then none else H i) p
      (some (g.goTo .running))) next callers suspendedIn (Function.update thread t (some th))
      (L.pop t x p) busy ∅ := by
  have herased := hR.erase_task hf Layout.pop_home_self hnone
  have hg' : (if p = x ∨ f.param = some p then none else H p) = some g := by
    rw [if_neg (by rw [hnone]; simp [hpx])]
    exact hg
  have hunheld := herased.others.unheld_of_code hg' (by simp [hcode])
    (fun _ _ hc => by rw [hcode] at hc; cases hc) (by simp [hcode])
  have hok : (g.goTo .running).Ok :=
    (hR.kept.ok hg).goTo (by rw [hcode]; rfl) ((hR.kept.ok hg).statement hcode) (by simp) (by simp)
  refine (herased.set_task hp Layout.pop_leaf_self hbusy hunheld hg' hok
    ((hR.kept.ok hg).statement hcode) rfl rfl rfl).set_thread (hR.kept.tree.root hp) hbusy
      (fun s => ?_) th
  rw [Layout.pop_leaf_self]
  exact hunheld.called s

/-- **Who waits for a runner that is about to end**: the last coroutine of another thread. -/
theorem joiner_of_runner (hR : Rel setup prog H next callers suspendedIn thread L {t} ∅)
    (hhome : L.home t = some t) (hleaf : L.leaf t = t) (hg : H t = some g)
    (hcode : g.code = .awaiting x .runner) {j : ℕ}
    (hcontinuation : g.promise.continuation = some j) :
    g.promise.detached = false ∧ ∃ u s next f, u ≠ t ∧ L.home j = some u ∧ L.leaf u = j
      ∧ H j = some f ∧ f.code = .awaitingSpawn t next ∧ prog s = .join t next
      ∧ thread u = some (.running s (L.cont j)) := by
  have haw : Awaited H L t j g := {
    home := hhome
    frame := hg
    runner := by rw [(hR.kept.ok hg).runner hcode]; simp
    pending := by rw [hcode]; rfl
    continuation := hcontinuation }
  have hother : ∀ u, L.home j = some u → L.leaf u = j → u ∉ ({t} : Set ℕ) := by
    intro u _ hl hu
    obtain rfl := Set.mem_singleton_iff.mp hu
    obtain ⟨v, -, -, f, next, hf, hcode'⟩ := hR.others.awaited haw
    rw [← hl, hleaf, hg] at hf
    cases hf
    rw [hcode] at hcode'
    cases hcode'
  obtain ⟨hheld, u, s, next, f, hu, hl, hf, hcode', hinstr, hthread⟩ := hR.joiner haw hother
  exact ⟨hheld, u, s, next, f, hother u hu hl, hu, hl, hf, hcode', hinstr, hthread⟩

/-- **A runner ends**, and nobody that is parked waits for it. -/
theorem runner_ends (hR : Rel setup prog H next callers suspendedIn thread L busy ∅)
    (hhome : L.home t = some t) (hleaf : L.leaf t = t) (hbusy : t ∈ busy) (hg : H t = some g)
    (hcode : g.code = .awaiting x .runner)
    (hfree : ∀ u g', L.home u = some u → u ∉ busy → ¬ Awaited H L t (L.leaf u) g')
    (o : Outcome υ ξ) :
    Rel setup prog (Function.update H t (some (g.finish o))) next callers suspendedIn
      (Function.update thread t (some (.done o))) L busy ∅ := by
  have hunheld := hR.others.unheld_of_code hg (by simp [hcode])
    (fun _ _ hc => by rw [hcode] at hc; cases hc) (by simp [hcode])
  refine (hR.set_leaf hhome hleaf hbusy hunheld hg (Frame.ok_finish g o) rfl
    (by simp [Frame.finish]) (by simp [Frame.finish]) hfree
    (fun _ hdone => by cases hdone)).set_thread
    hhome hbusy (fun s => ?_) (.done o)
  rw [hleaf]
  exact hunheld.called s

end Rel

end Coroutines

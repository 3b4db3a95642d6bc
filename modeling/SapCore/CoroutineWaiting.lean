import SapCore.CoroutineFrames

/-!
# The threads that do not have control

At most one thread has control; of every other the last coroutine called `resume`, waits
for I/O, awaits the handle of a runner that is not done, or is a runner that ended
(`Parked`). `Others` says this of all threads but those that are `busy`, together with the
converse: a caller, a coroutine that the executor holds and the continuation of a runner
that is not done are last coroutines of threads, suspended as they should be.

A step of the thread that has control changes its own last frame, calls, returns, begins
another thread, or writes to the promise of a runner. There is one rule for each, and the
steps are put together from the rules.
-/

namespace Coroutines

variable {σ ω τ η α υ ξ : Type}

/-- The coroutine that called `resume`. -/
def Caller.frame : Caller σ → Option ℕ
  | .main => none
  | .coroutine r _ => some r

section

variable (setup : Setup α τ η) (prog : σ → Instr σ ω τ η υ ξ) (H : ℕ → Option (Frame σ α υ ξ))
  (callers : List (Caller σ)) (suspendedIn : ℕ → Option α) (thread : ℕ → Option (Thread σ υ ξ))
  (L : Layout σ υ ξ)

/-- A runner that is not done, and whose end a coroutine waits for. -/
structure Awaited (h r : ℕ) (g : Frame σ α υ ξ) : Prop where
  home : L.home h = some h
  frame : H h = some g
  runner : g.param ≠ none
  pending : g.code.done = false
  continuation : g.promise.continuation = some r

/-- **A thread that does not have control.** -/
inductive Parked (t : ℕ) : Prop
  /-- Its last coroutine called `resume`. -/
  | called {f : Frame σ α υ ξ} {s : σ} (hframe : H (L.leaf t) = some f)
      (hcode : f.code = .running) (hcaller : .coroutine (L.leaf t) s ∈ callers)
      (hthread : thread t = some (.running s (L.cont (L.leaf t))))
  /-- It waits for I/O, that of the awaiter in which its last coroutine is suspended. -/
  | io {f : Frame σ α υ ξ} {s : σ} {a : α} {next : AwaitResult → σ}
      (hframe : H (L.leaf t) = some f) (hcode : f.code = .awaitingIo a next)
      (hsuspended : suspendedIn (L.leaf t) = some a)
      (hinstr : prog s = .io (setup.handle a) (setup.token a) next)
      (hthread : thread t = some (.running s (L.cont (L.leaf t))))
  /-- It awaits a handle. -/
  | join {f g : Frame σ α υ ξ} {s : σ} {h : ℕ} {next : Outcome υ ξ → σ}
      (hframe : H (L.leaf t) = some f) (hcode : f.code = .awaitingSpawn h next)
      (hinstr : prog s = .join h next)
      (hthread : thread t = some (.running s (L.cont (L.leaf t))))
      (hawaited : Awaited H L h (L.leaf t) g) (hheld : g.promise.detached = false)
  /-- It ended, and a handle has its runner. -/
  | finished {f : Frame σ α υ ξ} {o : Outcome υ ξ} (hleaf : L.leaf t = t) (hframe : H t = some f)
      (hcode : f.code = .final) (hrunner : f.param ≠ none) (hheld : f.promise.detached = false)
      (hthread : thread t = some (.done o)) (houtcome : f.promise.outcome = some o)

/-- **The threads but those that are busy**, and whose handles are held by a caller, by the
executor, and by the promise of a runner. -/
structure Others (busy : Set ℕ) : Prop where
  parked : ∀ {t}, L.home t = some t → t ∉ busy → Parked setup prog H callers suspendedIn thread L t
  called : ∀ {r s}, .coroutine r s ∈ callers → ∃ t, L.home r = some t ∧ L.leaf t = r
    ∧ thread t = some (.running s (L.cont r)) ∧ ∃ f, H r = some f ∧ f.code = .running
  nodup : (callers.filterMap Caller.frame).Nodup
  awaited : ∀ {h r g}, Awaited H L h r g → ∃ t, L.home r = some t ∧ L.leaf t = r
    ∧ ∃ f next, H r = some f ∧ f.code = .awaitingSpawn h next
  suspended : ∀ {r a}, suspendedIn r = some a → ∃ t, L.home r = some t ∧ L.leaf t = r
    ∧ ∃ f next, H r = some f ∧ f.code = .awaitingIo a next
  threads : ∀ {t th}, thread t = some th → L.home t = some t ∨ ∃ o, th = .done o

/-- **Nobody is going to resume a coroutine.** -/
structure Unheld (r : ℕ) : Prop where
  called : ∀ s, .coroutine r s ∉ callers
  awaited : ∀ h g, ¬ Awaited H L h r g
  suspended : suspendedIn r = none

end

variable {setup : Setup α τ η} {prog : σ → Instr σ ω τ η υ ξ} {H H' : ℕ → Option (Frame σ α υ ξ)}
  {callers callers' : List (Caller σ)} {suspendedIn suspendedIn' : ℕ → Option α}
  {thread thread' : ℕ → Option (Thread σ υ ξ)} {L L' : Layout σ υ ξ} {busy busy' : Set ℕ}
  {t u r h x p : ℕ} {f f' g g' : Frame σ α υ ξ} {s : σ} {a : α}

/-- **A parked thread stays so**, where nothing it depends on changes. -/
theorem Parked.mono (hp : Parked setup prog H callers suspendedIn thread L t)
    (hleaf : L'.leaf t = L.leaf t) (hcont : L'.cont (L.leaf t) = L.cont (L.leaf t))
    (hframe : ∀ f, H (L.leaf t) = some f → ∃ f', H' (L.leaf t) = some f' ∧ f'.code = f.code
      ∧ f'.param = f.param ∧ f'.promise.detached = f.promise.detached
      ∧ f'.promise.outcome = f.promise.outcome)
    (hcallers : ∀ s, .coroutine (L.leaf t) s ∈ callers → .coroutine (L.leaf t) s ∈ callers')
    (hsuspended : suspendedIn' (L.leaf t) = suspendedIn (L.leaf t))
    (hthread : thread' t = thread t)
    (hawaited : ∀ h g, Awaited H L h (L.leaf t) g → g.promise.detached = false →
      ∃ g', Awaited H' L' h (L.leaf t) g' ∧ g'.promise.detached = false) :
    Parked setup prog H' callers' suspendedIn' thread' L' t := by
  cases hp with
  | called hf hcode hcaller hth =>
    obtain ⟨f', hf', hcode', -⟩ := hframe _ hf
    have hcaller' := hcallers _ hcaller
    rw [← hleaf] at hcaller' hf'
    refine .called hf' (hcode'.trans hcode) hcaller' ?_
    rw [hleaf, hcont, hthread]
    exact hth
  | io hf hcode hsusp hinstr hth =>
    obtain ⟨f', hf', hcode', -⟩ := hframe _ hf
    rw [← hleaf] at hf'
    refine .io hf' (hcode'.trans hcode) ?_ hinstr ?_
    · rw [hleaf, hsuspended]
      exact hsusp
    · rw [hleaf, hcont, hthread]
      exact hth
  | join hf hcode hinstr hth haw hheld =>
    obtain ⟨f', hf', hcode', -⟩ := hframe _ hf
    obtain ⟨g', hg', hheld'⟩ := hawaited _ _ haw hheld
    rw [← hleaf] at hf' hg'
    refine .join hf' (hcode'.trans hcode) hinstr ?_ hg' hheld'
    rw [hleaf, hcont, hthread]
    exact hth
  | finished hl hf hcode hrunner hheld hth hout =>
    rw [hl] at hframe
    obtain ⟨f', hf', hcode', hparam', hdetached', hout'⟩ := hframe _ hf
    exact .finished (hleaf.trans hl) hf' (hcode'.trans hcode) (hparam' ▸ hrunner)
      (hdetached'.trans hheld) (hthread.trans hth) (hout'.trans hout)

namespace Others

/-! ## Who is held -/

/-- A coroutine that belongs to no thread is not held. -/
theorem unheld_of_home (hO : Others setup prog H callers suspendedIn thread L busy)
    (hx : L.home x = none) : Unheld H callers suspendedIn L x where
  called s hs := by
    obtain ⟨t, ht, -⟩ := hO.called hs
    rw [hx] at ht
    cases ht
  awaited h g haw := by
    obtain ⟨t, ht, -⟩ := hO.awaited haw
    rw [hx] at ht
    cases ht
  suspended := by
    cases hsus : suspendedIn x with
    | none => rfl
    | some a =>
      obtain ⟨t, ht, -⟩ := hO.suspended hsus
      rw [hx] at ht
      cases ht

/-- A coroutine that is running is held by a caller or not at all. -/
theorem unheld_of_running (hO : Others setup prog H callers suspendedIn thread L busy)
    (hf : H r = some f) (hcode : f.code = .running) (hcalled : ∀ s, .coroutine r s ∉ callers) :
    Unheld H callers suspendedIn L r where
  called := hcalled
  awaited h g haw := by
    obtain ⟨t, -, -, f', next, hf', hcode'⟩ := hO.awaited haw
    rw [hf] at hf'
    cases hf'
    rw [hcode] at hcode'
    cases hcode'
  suspended := by
    cases hsus : suspendedIn r with
    | none => rfl
    | some a =>
      obtain ⟨t, -, -, f', next, hf', hcode'⟩ := hO.suspended hsus
      rw [hf] at hf'
      cases hf'
      rw [hcode] at hcode'
      cases hcode'

/-- A coroutine that neither runs nor waits for I/O or the end of a runner is not held. -/
theorem unheld_of_code (hO : Others setup prog H callers suspendedIn thread L busy)
    (hf : H r = some f) (hrunning : f.code ≠ .running)
    (hspawn : ∀ h next, f.code = .awaitingSpawn h next →
      ∃ g, H h = some g ∧ g.code.done = true)
    (hio : ∀ a next, f.code ≠ .awaitingIo a next) : Unheld H callers suspendedIn L r where
  called s hs := by
    obtain ⟨t, -, -, -, f', hf', hcode⟩ := hO.called hs
    rw [hf] at hf'
    cases hf'
    exact hrunning hcode
  awaited h g haw := by
    obtain ⟨t, -, -, f', next, hf', hcode⟩ := hO.awaited haw
    rw [hf] at hf'
    cases hf'
    obtain ⟨g', hg', hdone⟩ := hspawn h next hcode
    rw [haw.frame] at hg'
    cases hg'
    rw [haw.pending] at hdone
    cases hdone
  suspended := by
    cases hsus : suspendedIn r with
    | none => rfl
    | some a =>
      obtain ⟨t, -, -, f', next, hf', hcode⟩ := hO.suspended hsus
      rw [hf] at hf'
      cases hf'
      exact absurd hcode (hio a next)

/-! ## Rules -/

/-- A thread is no longer busy, because it is parked or has no frames. -/
theorem settle (hO : Others setup prog H callers suspendedIn thread L busy)
    (hparked : ∀ t, L.home t = some t → t ∈ busy → t ∉ busy' →
      Parked setup prog H callers suspendedIn thread L t) :
    Others setup prog H callers suspendedIn thread L busy' :=
  { hO with
    parked := fun {t} ht hb => by
      by_cases hold : t ∈ busy
      · exact hparked t ht hold hb
      · exact hO.parked ht hold }

/-- The frames that belong to no thread do not matter. -/
theorem congr (hO : Others setup prog H callers suspendedIn thread L busy) (hT : Tree H L)
    (hsame : ∀ x t, L.home x = some t → H' x = H x) :
    Others setup prog H' callers suspendedIn thread L busy where
  parked {t} ht hb := by
    have hleaf := hsame _ _ (hT.leaf ht)
    refine (hO.parked ht hb).mono rfl rfl (fun f hf => ⟨f, hleaf.trans hf, rfl, rfl, rfl, rfl⟩)
      (fun _ hs => hs) rfl rfl (fun h g haw hheld => ⟨g, { haw with frame := ?_ }, hheld⟩)
    exact (hsame _ _ haw.home).trans haw.frame
  called hr := by
    obtain ⟨t, ht, hleaf, hth, f, hf, hcode⟩ := hO.called hr
    exact ⟨t, ht, hleaf, hth, f, (hsame _ _ ht).trans hf, hcode⟩
  nodup := hO.nodup
  awaited haw := by
    obtain ⟨t, ht, hleaf, f, next, hf, hcode⟩ :=
      hO.awaited { haw with frame := (hsame _ _ haw.home).symm.trans haw.frame }
    exact ⟨t, ht, hleaf, f, next, (hsame _ _ ht).trans hf, hcode⟩
  suspended hr := by
    obtain ⟨t, ht, hleaf, f, next, hf, hcode⟩ := hO.suspended hr
    exact ⟨t, ht, hleaf, f, next, (hsame _ _ ht).trans hf, hcode⟩
  threads := hO.threads

/-- **A busy thread writes its last frame**, which nobody holds; if that is the frame of a
runner, nobody else waits for it. -/
theorem set_leaf (hO : Others setup prog H callers suspendedIn thread L busy) (hT : Tree H L)
    (hhome : L.home r = some t) (hbusy : t ∈ busy) (hunheld : Unheld H callers suspendedIn L r)
    (hfree : ∀ u g, L.home u = some u → u ∉ busy → ¬ Awaited H L r (L.leaf u) g)
    (hfree' : f'.param ≠ none → f'.code.done = false → f'.promise.continuation = none) :
    Others setup prog (Function.update H r (some f')) callers suspendedIn thread L busy := by
  have hkeep : ∀ {x}, x ≠ r → Function.update H r (some f') x = H x :=
    fun hx => Function.update_of_ne hx _ _
  refine {
    parked := fun {u} hu hb => ?_
    called := fun {x s} hx => ?_
    nodup := hO.nodup
    awaited := fun {h x g} haw => ?_
    suspended := fun {x a} hx => ?_
    threads := hO.threads }
  · have hne : L.leaf u ≠ r := by
      intro hleaf
      have hl := hT.leaf hu
      rw [hleaf, hhome] at hl
      cases hl
      exact hb hbusy
    refine (hO.parked hu hb).mono rfl rfl
      (fun f hf => ⟨f, (hkeep hne).trans hf, rfl, rfl, rfl, rfl⟩)
      (fun _ hs => hs) rfl rfl (fun h g haw hheld => ⟨g, { haw with frame := ?_ }, hheld⟩)
    refine (hkeep ?_).trans haw.frame
    rintro rfl
    exact hfree u g hu hb haw
  · obtain ⟨u, hu, hl, hth, g, hg, hcode⟩ := hO.called hx
    refine ⟨u, hu, hl, hth, g, (hkeep ?_).trans hg, hcode⟩
    rintro rfl
    exact hunheld.called s hx
  · have hhr : h ≠ r := by
      rintro rfl
      have hg := haw.frame
      rw [Function.update_self] at hg
      cases hg
      have hnone := hfree' haw.runner haw.pending
      rw [haw.continuation] at hnone
      cases hnone
    have haw' : Awaited H L h x g := { haw with frame := (hkeep hhr).symm.trans haw.frame }
    obtain ⟨u, hu, hl, g', next, hg', hcode⟩ := hO.awaited haw'
    refine ⟨u, hu, hl, g', next, (hkeep ?_).trans hg', hcode⟩
    rintro rfl
    exact hunheld.awaited h g haw'
  · obtain ⟨u, hu, hl, g, next, hg, hcode⟩ := hO.suspended hx
    refine ⟨u, hu, hl, g, next, (hkeep ?_).trans hg, hcode⟩
    rintro rfl
    rw [hunheld.suspended] at hx
    cases hx

/-- **A busy thread goes on.** -/
theorem set_thread (hO : Others setup prog H callers suspendedIn thread L busy)
    (hhome : L.home t = some t) (hbusy : t ∈ busy)
    (hcalled : ∀ s, .coroutine (L.leaf t) s ∉ callers) (th : Thread σ υ ξ) :
    Others setup prog H callers suspendedIn (Function.update thread t (some th)) L busy where
  parked {u} hu hb := by
    refine (hO.parked hu hb).mono rfl rfl (fun f hf => ⟨f, hf, rfl, rfl, rfl, rfl⟩)
      (fun _ hs => hs) rfl (Function.update_of_ne ?_ _ _) (fun _ g haw hheld => ⟨g, haw, hheld⟩)
    rintro rfl
    exact hb hbusy
  called {r s} hr := by
    obtain ⟨u, hu, hl, hth, hf⟩ := hO.called hr
    refine ⟨u, hu, hl, (Function.update_of_ne ?_ _ _).trans hth, hf⟩
    rintro rfl
    rw [← hl] at hr
    exact hcalled s hr
  nodup := hO.nodup
  awaited := hO.awaited
  suspended := hO.suspended
  threads {u th'} hu := by
    by_cases hut : u = t
    · subst hut
      exact Or.inl hhome
    · rw [Function.update_of_ne hut] at hu
      exact hO.threads hu

/-- **The promise of a runner is written**: the continuation and the flag only while nobody
waits for it. -/
theorem set_runner (hO : Others setup prog H callers suspendedIn thread L busy)
    (hok : f.Ok) (hf : H h = some f) (hrunner : f.param ≠ none)
    (hcode : f'.code = f.code) (hparam : f'.param = f.param)
    (hdone : f.code = .final → f'.promise.detached = f.promise.detached
      ∧ f'.promise.outcome = f.promise.outcome)
    (hpending : f.code.done = false → f.promise.continuation = none)
    (hawaited : ∀ r, f.code.done = false → f'.promise.continuation = some r →
      ∃ t, L.home r = some t ∧ L.leaf t = r
        ∧ ∃ g next, H r = some g ∧ g.code = .awaitingSpawn h next) :
    Others setup prog (Function.update H h (some f')) callers suspendedIn thread L busy := by
  have hcodes : ∀ {x g}, H x = some g →
      ∃ g', Function.update H h (some f') x = some g' ∧ g'.code = g.code := by
    intro x g hg
    by_cases hxh : x = h
    · subst hxh
      rw [hf] at hg
      cases hg
      exact ⟨f', Function.update_self _ _ _, hcode⟩
    · exact ⟨g, (Function.update_of_ne hxh _ _).trans hg, rfl⟩
  refine {
    parked := fun {u} hu hb => ?_
    called := fun {x s} hx => ?_
    nodup := hO.nodup
    awaited := fun {x y g} haw => ?_
    suspended := fun {x a} hx => ?_
    threads := hO.threads }
  · have hparked := hO.parked hu hb
    refine hparked.mono rfl rfl (fun g hg => ?_) (fun _ hs => hs) rfl rfl
      (fun x g haw hheld => ⟨g, { haw with frame := ?_ }, hheld⟩)
    · by_cases hl : L.leaf u = h
      · rw [hl, hf] at hg
        cases hg
        -- the last coroutine of a parked thread is a runner only when that is done
        have hfinal : f.code = .final := by
          cases hparked with
          | called hg' hc =>
            rw [hl, hf] at hg'
            cases hg'
            exact absurd (hok.running hc) hrunner
          | io hg' hc =>
            rw [hl, hf] at hg'
            cases hg'
            exact absurd (hok.awaitingIo hc) hrunner
          | join hg' hc =>
            rw [hl, hf] at hg'
            cases hg'
            exact absurd (hok.awaitingSpawn hc) hrunner
          | finished hl' hg' hc =>
            rw [← hl, hl'] at hf
            rw [hf] at hg'
            cases hg'
            exact hc
        rw [hl]
        exact ⟨f', Function.update_self _ _ _, hcode, hparam, hdone hfinal⟩
      · exact ⟨g, (Function.update_of_ne hl _ _).trans hg, rfl, rfl, rfl, rfl⟩
    · refine (Function.update_of_ne ?_ _ _).trans haw.frame
      rintro rfl
      have hg := haw.frame
      rw [hf] at hg
      cases hg
      have hnone := hpending haw.pending
      rw [haw.continuation] at hnone
      cases hnone
  · obtain ⟨u, hu, hl, hth, g, hg, hc⟩ := hO.called hx
    obtain ⟨g', hg', hc'⟩ := hcodes hg
    exact ⟨u, hu, hl, hth, g', hg', hc'.trans hc⟩
  · have hold : ∃ u, L.home y = some u ∧ L.leaf u = y
        ∧ ∃ g next, H y = some g ∧ g.code = .awaitingSpawn x next := by
      by_cases hxh : x = h
      · subst hxh
        have hg := haw.frame
        rw [Function.update_self] at hg
        cases hg
        exact hawaited y (hcode ▸ haw.pending) haw.continuation
      · exact hO.awaited { haw with
          frame := (Function.update_of_ne hxh _ _).symm.trans haw.frame }
    obtain ⟨u, hu, hl, g, next, hg, hc⟩ := hold
    obtain ⟨g', hg', hc'⟩ := hcodes hg
    exact ⟨u, hu, hl, g', next, hg', hc'.trans hc⟩
  · obtain ⟨u, hu, hl, g, next, hg, hc⟩ := hO.suspended hx
    obtain ⟨g', hg', hc'⟩ := hcodes hg
    exact ⟨u, hu, hl, g', next, hg', hc'.trans hc⟩

/-- **A frame becomes the last of a thread**, of a busy one or of a new one. -/
theorem push (hO : Others setup prog H callers suspendedIn thread L busy) (hT : Tree H L)
    {stack : List (Outcome υ ξ → σ)} (hx : L.home x = none) (hbusy : t ∈ busy)
    (hunheld : L.home t = some t → Unheld H callers suspendedIn L (L.leaf t))
    (hnew : t = x → ∀ g, H x = some g → g.promise.continuation = none) :
    Others setup prog H callers suspendedIn thread (L.push t x stack) busy := by
  have hne : ∀ {y u}, L.home y = some u → y ≠ x := by
    rintro y u hy rfl
    rw [hx] at hy
    cases hy
  have hkeep : ∀ {y u}, L.home y = some u → (L.push t x stack).home y = some u :=
    fun hy => (Layout.push_home_of_ne (hne hy)).trans hy
  have hleaf : ∀ {y u}, L.home y = some u → L.leaf u = y →
      (u = t → ¬ Unheld H callers suspendedIn L y) → (L.push t x stack).leaf u = y := by
    intro y u hy hl hheld
    refine (Layout.push_leaf_of_ne ?_).trans hl
    rintro rfl
    refine hheld rfl ?_
    rw [← hl]
    exact hunheld (hT.root hy)
  refine {
    parked := fun {u} hu hb => ?_
    called := fun {y s} hy => ?_
    nodup := hO.nodup
    awaited := fun {h y g} haw => ?_
    suspended := fun {y a} hy => ?_
    threads := fun {u th} hu => (hO.threads hu).imp_left hkeep }
  · have hut : u ≠ t := by
      rintro rfl
      exact hb hbusy
    have hux : u ≠ x := by
      rintro rfl
      rw [Layout.push_home_self] at hu
      exact hut (Option.some.inj hu).symm
    rw [Layout.push_home_of_ne hux] at hu
    refine (hO.parked hu hb).mono (Layout.push_leaf_of_ne hut)
      (Layout.push_cont_of_ne (hne (hT.leaf hu))) (fun f hf => ⟨f, hf, rfl, rfl, rfl, rfl⟩)
      (fun _ hs => hs) rfl rfl
      (fun h g haw hheld => ⟨g, { haw with home := hkeep haw.home }, hheld⟩)
  · obtain ⟨u, hu, hl, hth, hf⟩ := hO.called hy
    refine ⟨u, hkeep hu, hleaf hu hl (fun _ hun => hun.called s hy), ?_, hf⟩
    rw [Layout.push_cont_of_ne (hne hu)]
    exact hth
  · have hold : Awaited H L h y g := by
      by_cases hhx : h = x
      · subst hhx
        have hh := haw.home
        rw [Layout.push_home_self] at hh
        have hnone := hnew (Option.some.inj hh) g haw.frame
        rw [haw.continuation] at hnone
        cases hnone
      · exact { haw with home := (Layout.push_home_of_ne hhx).symm.trans haw.home }
    obtain ⟨u, hu, hl, hf⟩ := hO.awaited hold
    exact ⟨u, hkeep hu, hleaf hu hl (fun _ hun => hun.awaited h g hold), hf⟩
  · obtain ⟨u, hu, hl, hf⟩ := hO.suspended hy
    refine ⟨u, hkeep hu, hleaf hu hl (fun _ hun => ?_), hf⟩
    rw [hun.suspended] at hy
    cases hy

/-- **The last frame of a busy thread returns.** -/
theorem pop (hO : Others setup prog H callers suspendedIn thread L busy)
    (hhome : L.home x = some t) (hne : x ≠ t) (hleaf : L.leaf t = x) (hbusy : t ∈ busy)
    (hunheld : Unheld H callers suspendedIn L x) :
    Others setup prog H callers suspendedIn thread (L.pop t x p) busy := by
  have hroot : ∀ {u}, L.home u = some u → u ≠ x := by
    rintro u hu rfl
    rw [hhome] at hu
    exact hne (Option.some.inj hu).symm
  -- the frames that are held are those of other threads
  have hheld : ∀ {y u}, L.home y = some u → L.leaf u = y → y ≠ x →
      (L.pop t x p).home y = some u ∧ (L.pop t x p).leaf u = y := by
    intro y u hy hl hyx
    refine ⟨(Layout.pop_home_of_ne hyx).trans hy, (Layout.pop_leaf_of_ne ?_).trans hl⟩
    rintro rfl
    exact hyx (hl.symm.trans hleaf)
  refine {
    parked := fun {u} hu hb => ?_
    called := fun {y s} hy => ?_
    nodup := hO.nodup
    awaited := fun {h y g} haw => ?_
    suspended := fun {y a} hy => ?_
    threads := fun {u th} hu => (hO.threads hu).imp_left
      (fun hu => (Layout.pop_home_of_ne (hroot hu)).trans hu) }
  · have hux : u ≠ x := by
      rintro rfl
      rw [Layout.pop_home_self] at hu
      cases hu
    rw [Layout.pop_home_of_ne hux] at hu
    refine (hO.parked hu hb).mono (Layout.pop_leaf_of_ne ?_) rfl
      (fun f hf => ⟨f, hf, rfl, rfl, rfl, rfl⟩) (fun _ hs => hs) rfl rfl
      (fun h g haw hheld => ⟨g, { haw with home := ?_ }, hheld⟩)
    · rintro rfl
      exact hb hbusy
    · exact (Layout.pop_home_of_ne (hroot haw.home)).trans haw.home
  · obtain ⟨u, hu, hl, hth, hf⟩ := hO.called hy
    have hyx : y ≠ x := by
      rintro rfl
      exact hunheld.called s hy
    obtain ⟨hu', hl'⟩ := hheld hu hl hyx
    exact ⟨u, hu', hl', hth, hf⟩
  · have hhx : h ≠ x := by
      rintro rfl
      have hh := haw.home
      rw [Layout.pop_home_self] at hh
      cases hh
    have hold : Awaited H L h y g :=
      { haw with home := (Layout.pop_home_of_ne hhx).symm.trans haw.home }
    obtain ⟨u, hu, hl, hf⟩ := hO.awaited hold
    have hyx : y ≠ x := by
      rintro rfl
      exact hunheld.awaited h g hold
    obtain ⟨hu', hl'⟩ := hheld hu hl hyx
    exact ⟨u, hu', hl', hf⟩
  · obtain ⟨u, hu, hl, hf⟩ := hO.suspended hy
    have hyx : y ≠ x := by
      rintro rfl
      rw [hunheld.suspended] at hy
      cases hy
    obtain ⟨hu', hl'⟩ := hheld hu hl hyx
    exact ⟨u, hu', hl', hf⟩

/-- **A thread that ended is taken out**; nobody waits for it. -/
theorem uproot (hO : Others setup prog H callers suspendedIn thread L busy)
    (hunheld : Unheld H callers suspendedIn L t) {o : Outcome υ ξ}
    (hdone : thread t = some (.done o))
    (hfree : ∀ u g, L.home u = some u → u ∉ busy → ¬ Awaited H L t (L.leaf u) g) :
    Others setup prog H callers suspendedIn thread (L.uproot t) busy := by
  have hof : ∀ {y u}, (L.uproot t).home y = some u → y ≠ t ∧ L.home y = some u := by
    intro y u hy
    by_cases hyt : y = t
    · subst hyt
      rw [Layout.uproot_home_self] at hy
      cases hy
    · exact ⟨hyt, (Layout.uproot_home_of_ne hyt).symm.trans hy⟩
  have hkeep : ∀ {y u}, L.home y = some u → y ≠ t → (L.uproot t).home y = some u :=
    fun hy hyt => (Layout.uproot_home_of_ne hyt).trans hy
  refine {
    parked := fun {u} hu hb => ?_
    called := fun {y s} hy => ?_
    nodup := hO.nodup
    awaited := fun {h y g} haw => ?_
    suspended := fun {y a} hy => ?_
    threads := fun {u th} hu => ?_ }
  · refine (hO.parked (hof hu).2 hb).mono rfl rfl (fun f hf => ⟨f, hf, rfl, rfl, rfl, rfl⟩)
      (fun _ hs => hs) rfl rfl (fun h g haw hheld => ⟨g, { haw with home := ?_ }, hheld⟩)
    refine hkeep haw.home ?_
    rintro rfl
    exact hfree u g (hof hu).2 hb haw
  · obtain ⟨u, hu, hl, hth, hf⟩ := hO.called hy
    refine ⟨u, hkeep hu ?_, hl, hth, hf⟩
    rintro rfl
    exact hunheld.called s hy
  · have hold : Awaited H L h y g := { haw with home := (hof haw.home).2 }
    obtain ⟨u, hu, hl, hf⟩ := hO.awaited hold
    refine ⟨u, hkeep hu ?_, hl, hf⟩
    rintro rfl
    exact hunheld.awaited h g hold
  · obtain ⟨u, hu, hl, hf⟩ := hO.suspended hy
    refine ⟨u, hkeep hu ?_, hl, hf⟩
    rintro rfl
    rw [hunheld.suspended] at hy
    cases hy
  · by_cases hut : u = t
    · subst hut
      rw [hdone] at hu
      cases hu
      exact Or.inr ⟨o, rfl⟩
    · exact (hO.threads hu).imp_left (fun hu => hkeep hu hut)

/-- **A coroutine calls `resume`.** -/
theorem push_caller (hO : Others setup prog H callers suspendedIn thread L busy)
    (hhome : L.home r = some t) (hleaf : L.leaf t = r) (hf : H r = some f)
    (hcode : f.code = .running) (hcalled : ∀ s, .coroutine r s ∉ callers)
    (hthread : thread t = some (.running s (L.cont r))) :
    Others setup prog H (.coroutine r s :: callers) suspendedIn thread L busy where
  parked hu hb := (hO.parked hu hb).mono rfl rfl (fun f hf => ⟨f, hf, rfl, rfl, rfl, rfl⟩)
    (fun _ hs => List.mem_cons_of_mem _ hs) rfl rfl (fun _ g haw hheld => ⟨g, haw, hheld⟩)
  called {y s'} hy := by
    obtain heq | hy := List.mem_cons.mp hy
    · cases heq
      exact ⟨t, hhome, hleaf, hthread, f, hf, hcode⟩
    · exact hO.called hy
  nodup := by
    show (r :: callers.filterMap Caller.frame).Nodup
    refine List.nodup_cons.mpr ⟨fun hmem => ?_, hO.nodup⟩
    obtain ⟨caller, hcaller, heq⟩ := List.mem_filterMap.mp hmem
    cases caller with
    | main => cases heq
    | coroutine r' s' =>
      cases heq
      exact hcalled s' hcaller
  awaited := hO.awaited
  suspended := hO.suspended
  threads := hO.threads

/-- The loop, or the program around it, calls `resume`. -/
theorem push_main (hO : Others setup prog H callers suspendedIn thread L busy) :
    Others setup prog H (.main :: callers) suspendedIn thread L busy :=
  { hO with
    parked := fun hu hb => (hO.parked hu hb).mono rfl rfl
      (fun f hf => ⟨f, hf, rfl, rfl, rfl, rfl⟩) (fun _ hs => List.mem_cons_of_mem _ hs) rfl rfl
      (fun _ g haw hheld => ⟨g, haw, hheld⟩)
    called := fun hy => hO.called ((List.mem_cons.mp hy).resolve_left (by simp)) }

/-- **A call of `resume` returns to a coroutine**, whose thread is busy from then on. -/
theorem pop_caller (hO : Others setup prog H (.coroutine r s :: callers) suspendedIn thread L busy)
    (hT : Tree H L) (hhome : L.home r = some t) :
    Others setup prog H callers suspendedIn thread L (insert t busy) := by
  refine {
    parked := fun {u} hu hb => ?_
    called := fun hy => hO.called (List.mem_cons_of_mem _ hy)
    nodup := (List.nodup_cons.mp hO.nodup).2
    awaited := hO.awaited
    suspended := hO.suspended
    threads := hO.threads }
  rw [Set.mem_insert_iff, not_or] at hb
  refine (hO.parked hu hb.2).mono rfl rfl (fun f hf => ⟨f, hf, rfl, rfl, rfl, rfl⟩)
    (fun s' hs => ?_) rfl rfl (fun _ g haw hheld => ⟨g, haw, hheld⟩)
  refine (List.mem_cons.mp hs).resolve_left (fun heq => ?_)
  have hl := hT.leaf hu
  rw [(Caller.coroutine.inj heq).1, hhome] at hl
  exact hb.1 (Option.some.inj hl).symm

theorem not_mem_callers
    (hO : Others setup prog H (.coroutine r s :: callers) suspendedIn thread L busy) (s' : σ) :
    .coroutine r s' ∉ callers := by
  intro hmem
  refine (List.nodup_cons.mp hO.nodup).1 (List.mem_filterMap.mpr ⟨_, hmem, rfl⟩)

/-- A call of `resume` returns to the loop. -/
theorem pop_main (hO : Others setup prog H (.main :: callers) suspendedIn thread L busy) :
    Others setup prog H callers suspendedIn thread L busy :=
  { hO with
    parked := fun hu hb => (hO.parked hu hb).mono rfl rfl
      (fun f hf => ⟨f, hf, rfl, rfl, rfl, rfl⟩)
      (fun _ hs => (List.mem_cons.mp hs).resolve_left (by simp)) rfl rfl
      (fun _ g haw hheld => ⟨g, haw, hheld⟩)
    called := fun hy => hO.called (List.mem_cons_of_mem _ hy) }

/-- **A busy thread waits for I/O**: the executor takes its last coroutine. -/
theorem suspend (hO : Others setup prog H callers suspendedIn thread L busy) (hT : Tree H L)
    (hhome : L.home r = some t) (hleaf : L.leaf t = r) (hbusy : t ∈ busy) (hf : H r = some f)
    {next : AwaitResult → σ} (hcode : f.code = .awaitingIo a next) :
    Others setup prog H callers (Function.update suspendedIn r (some a)) thread L busy := by
  refine { hO with
    parked := fun {u} hu hb => ?_
    suspended := fun {y b} hy => ?_ }
  · refine (hO.parked hu hb).mono rfl rfl (fun f hf => ⟨f, hf, rfl, rfl, rfl, rfl⟩)
      (fun _ hs => hs) (Function.update_of_ne ?_ _ _) rfl (fun _ g haw hheld => ⟨g, haw, hheld⟩)
    intro hl
    have hu' := hT.leaf hu
    rw [hl, hhome] at hu'
    cases hu'
    exact hb hbusy
  · by_cases hyr : y = r
    · subst hyr
      rw [Function.update_self] at hy
      cases hy
      exact ⟨t, hhome, hleaf, f, next, hf, hcode⟩
    · rw [Function.update_of_ne hyr] at hy
      exact hO.suspended hy

/-- **The executor gives a coroutine back**, whose thread is busy from then on. -/
theorem wake (hO : Others setup prog H callers suspendedIn thread L busy) (hT : Tree H L)
    (hhome : L.home r = some t) :
    Others setup prog H callers (Function.update suspendedIn r none) thread L (insert t busy) := by
  refine { hO with
    parked := fun {u} hu hb => ?_
    suspended := fun {y b} hy => ?_ }
  · rw [Set.mem_insert_iff, not_or] at hb
    refine (hO.parked hu hb.2).mono rfl rfl (fun f hf => ⟨f, hf, rfl, rfl, rfl, rfl⟩)
      (fun _ hs => hs) (Function.update_of_ne ?_ _ _) rfl (fun _ g haw hheld => ⟨g, haw, hheld⟩)
    intro hl
    have hu' := hT.leaf hu
    rw [hl, hhome] at hu'
    exact hb.1 (Option.some.inj hu').symm
  · by_cases hyr : y = r
    · subst hyr
      rw [Function.update_self] at hy
      cases hy
    · rw [Function.update_of_ne hyr] at hy
      exact hO.suspended hy

end Others

end Coroutines

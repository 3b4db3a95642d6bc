import SapCore.TimerWorkers

/-!
# What holds of timers in every run

The calls are taken apart into what they have in common: each begins with what it puts in force,
asks a worker to stop and waits for it if there is one (`InCall.stop`), and goes on when there is
none (`InCall.afterStop`). The delay that the calls have put in force for a timer is the one it
has, except while a `reset` waits for the worker it is to replace (`delayDue`).

The result is the contract of timers (`Contract`): who has which worker, when `start` fails, when
callbacks run and how often, with which delay, and what moves do with a worker.
-/

namespace Timers

variable {ν κ : Type} [DecidableEq ν]

/-! ## What the steps find

Where a step is taken, there was what it looks at. -/

/-- The steps that are not of the thread that uses the timers. -/
def Label.OfWorker : Label ν κ → Prop
  | .expire _ | .noticeStop _ | .callbackReturns _ => True
  | _ => False

variable {s s' : Timers ν κ} {x y : ν} {t : Timer κ} {andThen : AfterStop ν}

/-- A call begins when none is waiting. -/
theorem callStep_of_step {label : Label ν κ} (hstep : s.step label = some s')
    (hworker : ¬ label.OfWorker) (hjoin : label ≠ .join) :
    s.joining = none ∧ s.callStep label = some s' := by
  cases label with
  | expire w => exact absurd trivial hworker
  | noticeStop w => exact absurd trivial hworker
  | callbackReturns w => exact absurd trivial hworker
  | join => exact absurd rfl hjoin
  | _ =>
    simp only [Timers.step] at hstep
    cases hidle : s.joining with
    | none =>
      rw [hidle] at hstep
      exact ⟨rfl, hstep⟩
    | some c =>
      rw [hidle] at hstep
      cases hstep

theorem of_moveConstruct {left : κ} (hstep : s.callStep (.moveConstruct x y left) = some s') :
    ∃ u, s.timer x = none ∧ s.timer y = some u
      ∧ s' = (s.setTimer x (some u)).setTimer y
          (some { u with callback := left, thread := none }) := by
  simp only [callStep] at hstep
  cases hx : s.timer x with
  | some t =>
    rw [hx] at hstep
    cases hstep
  | none =>
    cases hy : s.timer y with
    | none =>
      rw [hx, hy] at hstep
      cases hstep
    | some u =>
      rw [hx, hy] at hstep
      exact ⟨u, rfl, rfl, (Option.some.inj hstep).symm⟩

theorem of_moveAssign {left : κ} (hxy : x ≠ y)
    (hstep : s.callStep (.moveAssign x y left) = some s') :
    ∃ t u, s.timer x = some t ∧ s.timer y = some u
      ∧ s' = ((s.setTimer x (some { t with delayNs := u.delayNs, callback := u.callback })).setTimer
          y (some { u with callback := left })).stop
            x { t with delayNs := u.delayNs, callback := u.callback } (.assign y) := by
  simp only [callStep] at hstep
  cases hx : s.timer x with
  | none =>
    rw [hx] at hstep
    cases hstep
  | some t =>
    cases hy : s.timer y with
    | none =>
      rw [hx, hy] at hstep
      cases hstep
    | some u =>
      simp only [hx, hy] at hstep
      rw [if_neg hxy] at hstep
      exact ⟨t, u, rfl, rfl, (Option.some.inj hstep).symm⟩

/-- A timer that is moved to itself stays as it is. -/
theorem of_moveAssign_self {left : κ} (hstep : s.callStep (.moveAssign x x left) = some s') :
    s' = s := by
  simp only [callStep] at hstep
  cases hx : s.timer x with
  | none =>
    rw [hx] at hstep
    cases hstep
  | some t =>
    simp only [hx, if_true] at hstep
    exact (Option.some.inj hstep).symm

omit [DecidableEq ν] in
/-- What a worker's step found. -/
theorem of_workerStep {w : ℕ} {pc : RunLoop} {ready : TimerWorker κ → Bool}
    {f : TimerWorker κ → TimerWorker κ} (hstep : s.workerStep w pc ready f = some s') :
    ∃ wk, s.worker w = some wk ∧ wk.pc = pc ∧ ready wk = true
      ∧ s' = { s with worker := Function.update s.worker w (some (f wk)) } := by
  simp only [Timers.workerStep] at hstep
  cases hw : s.worker w with
  | none =>
    rw [hw] at hstep
    cases hstep
  | some wk =>
    simp only [hw] at hstep
    by_cases hready : wk.pc = pc ∧ ready wk = true
    · rw [if_pos hready] at hstep
      cases hstep
      exact ⟨wk, rfl, hready.1, hready.2, by rw [modifyWorker, hw, Option.map_some]⟩
    · rw [if_neg hready] at hstep
      cases hstep

/-- What the end of a wait found. -/
theorem of_join (hstep : s.step .join = some s') :
    ∃ c t wk, s.joining = some c ∧ s.timer c.timer = some t ∧ s.worker c.worker = some wk
      ∧ wk.pc = .returned ∧ s' = s.join c t := by
  simp only [Timers.step] at hstep
  cases hc : s.joining with
  | none =>
    rw [hc] at hstep
    cases hstep
  | some c =>
    simp only [hc] at hstep
    cases hx : s.timer c.timer with
    | none =>
      rw [hx] at hstep
      cases hstep
    | some t =>
      cases hw : s.worker c.worker with
      | none =>
        rw [hx, hw] at hstep
        cases hstep
      | some wk =>
        simp only [hx, hw] at hstep
        by_cases hpc : wk.pc = .returned
        · rw [if_pos hpc] at hstep
          exact ⟨c, t, wk, rfl, hx, hw, hpc, (Option.some.inj hstep).symm⟩
        · rw [if_neg hpc] at hstep
          cases hstep

/-! ## What every step keeps -/

/-- The worker that a timer has. -/
def threadOf (s : Timers ν κ) (x : ν) : Option ℕ := (s.timer x).bind Timer.thread

omit [DecidableEq ν] in
theorem threadOf_of_some {s : Timers ν κ} {x : ν} {t : Timer κ} (hx : s.timer x = some t) :
    s.threadOf x = t.thread := by
  rw [threadOf, hx, Option.bind_some]

omit [DecidableEq ν] in
theorem threadOf_of_none {s : Timers ν κ} {x : ν} (hx : s.timer x = none) :
    s.threadOf x = none := by
  rw [threadOf, hx, Option.bind_none]

theorem timer_setTimer_self (s : Timers ν κ) (x : ν) (t : Option (Timer κ)) :
    (s.setTimer x t).timer x = t :=
  Function.update_self _ _ _

theorem timer_setTimer_of_ne (s : Timers ν κ) {x y : ν} (t : Option (Timer κ)) (hy : y ≠ x) :
    (s.setTimer x t).timer y = s.timer y :=
  Function.update_of_ne hy _ _

theorem threadOf_setTimer (s : Timers ν κ) (x : ν) (t : Option (Timer κ)) :
    (s.setTimer x t).threadOf = Function.update s.threadOf x (t.bind Timer.thread) := by
  funext y
  by_cases hy : y = x
  · rw [hy, Function.update_self, threadOf, timer_setTimer_self]
  · rw [Function.update_of_ne hy, threadOf, timer_setTimer_of_ne s t hy]
    rfl

/-- Writing a timer without its thread. -/
theorem threadOf_setTimer_same {s : Timers ν κ} {x : ν} {t t' : Timer κ}
    (hx : s.timer x = some t) (hthread : t'.thread = t.thread) :
    (s.setTimer x (some t')).threadOf = s.threadOf := by
  have hof : s.threadOf x = t'.thread := (threadOf_of_some hx).trans hthread.symm
  rw [threadOf_setTimer, Option.bind_some, ← hof, Function.update_eq_self]

/-- Writing two of them. -/
theorem threadOf_setTimer_both {s : Timers ν κ} {x y : ν} {t u : Timer κ}
    (hx : s.timer x = some t) (hy : s.timer y = some u) (hxy : x ≠ y) (t' u' : Timer κ)
    (ht : t'.thread = t.thread) (hu : u'.thread = u.thread) :
    ((s.setTimer x (some t')).setTimer y (some u')).threadOf = s.threadOf := by
  have hy' : (s.setTimer x (some t')).timer y = some u :=
    (timer_setTimer_of_ne s _ (Ne.symm hxy)).trans hy
  rw [threadOf_setTimer_same hy' hu, threadOf_setTimer_same hx ht]

/-- The delay that is in force once the call has ended. -/
def delayAfter : AfterStop ν → Int64 → Int64
  | .reset newDelayNs, _ => newDelayNs
  | _, delayNs => delayNs

/-- The delay that the calls have put in force for a timer. -/
def delayDue (s : Timers ν κ) (x : ν) (t : Timer κ) : Int64 :=
  match s.joining with
  | some c => if c.timer = x then delayAfter c.andThen t.delayNs else t.delayNs
  | none => t.delayNs

theorem delayDue_of_idle {s : Timers ν κ} {x : ν} {t : Timer κ} (h : s.joining = none) :
    s.delayDue x t = t.delayNs := by
  rw [delayDue, h]

theorem delayDue_of_joining {s : Timers ν κ} {x : ν} {t : Timer κ} {c : Joining ν}
    (h : s.joining = some c) :
    s.delayDue x t = if c.timer = x then delayAfter c.andThen t.delayNs else t.delayNs := by
  rw [delayDue, h]

/-- **The invariant.** -/
structure Inv (s : Timers ν κ) (log : List (Event ν)) (inForce : ν → Option Int64) : Prop where
  owned : Owned s.threadOf s.worker s.threads
  logged : Logged s.worker log
  waits : ∀ c, s.joining = some c → s.threadOf c.timer = some c.worker
    ∧ ∀ y, c.andThen = .assign y → y ≠ c.timer ∧ (s.timer y).isSome = true
  inForce : ∀ x t, s.timer x = some t → inForce x = some (s.delayDue x t)

/-- What holds within a call that has `andThen` still to do. -/
structure InCall (s : Timers ν κ) (x : ν) (t : Timer κ) (andThen : AfterStop ν)
    (log : List (Event ν)) (inForce : ν → Option Int64) : Prop where
  owned : Owned s.threadOf s.worker s.threads
  logged : Logged s.worker log
  idle : s.joining = none
  timer : s.timer x = some t
  other : ∀ y, andThen = .assign y → y ≠ x ∧ (s.timer y).isSome = true
  delay : inForce x = some (delayAfter andThen t.delayNs)
  others : ∀ z u, z ≠ x → s.timer z = some u → inForce z = some u.delayNs

/-- The worker that `x` has got by a step. -/
def begins (s s' : Timers ν κ) (x : ν) (delays : ν → Option Int64) : List (Event ν) :=
  if s'.threads = s.threads then [] else [.started s.threads x (delays x)]

variable {log : List (Event ν)} {inForce : ν → Option Int64}

omit [DecidableEq ν] in
theorem begins_of_eq {delays : ν → Option Int64} (h : s'.threads = s.threads) :
    begins s s' x delays = [] :=
  if_pos h

/-- **Starting a worker** for a timer that has none. -/
theorem inv_start (ho : Owned s.threadOf s.worker s.threads) (hl : Logged s.worker log)
    (hidle : s.joining = none) (hx : s.threadOf x = none) (ht : t.thread = none)
    (hdelay : inForce x = some t.delayNs)
    (hothers : ∀ z u, z ≠ x → s.timer z = some u → inForce z = some u.delayNs) :
    Inv (s.start x t).2 (log ++ begins s (s.start x t).2 x inForce) inForce := by
  have hnew : s.worker s.threads = none :=
    Option.not_isSome_iff_eq_none.mp (fun h => absurd ((ho.made _).mp h) (Nat.lt_irrefl _))
  have hbegins : begins s (s.start x t).2 x inForce
      = [.started s.threads x (some t.delayNs)] := by
    rw [begins, start, ht, if_neg (Nat.succ_ne_self _), hdelay]
  rw [hbegins]
  simp only [start, ht]
  refine ⟨?_, hl.spawn hnew, fun c hc => (nomatch hidle.symm.trans hc), fun z u hz => ?_⟩
  · exact (threadOf_setTimer s x _) ▸ ho.spawn hx rfl
  · rw [delayDue_of_idle (by exact hidle)]
    by_cases hzx : z = x
    · subst hzx
      cases (timer_setTimer_self s z _).symm.trans hz
      exact hdelay
    · exact hothers z u hzx ((timer_setTimer_of_ne s _ hzx).symm.trans hz)

/-- Only a `reset` starts a worker after its `stop`. -/
theorem threads_stop (s : Timers ν κ) (x : ν) (t : Timer κ) {andThen : AfterStop ν}
    (hreset : ∀ newDelayNs, andThen ≠ .reset newDelayNs) :
    (s.stop x t andThen).threads = s.threads := by
  rw [stop]
  cases t.thread with
  | some w => rfl
  | none =>
    cases andThen with
    | stop => rfl
    | reset newDelayNs => exact absurd rfl (hreset newDelayNs)
    | destroy => rfl
    | assign y =>
      simp only [afterStop]
      cases s.timer y <;> rfl

namespace InCall

/-- **The rest of a call**, when there is no worker. -/
theorem afterStop (h : InCall s x t andThen log inForce) (ht : t.thread = none) :
    Inv (s.afterStop x t andThen)
      (log ++ begins s (s.afterStop x t andThen) x inForce) inForce := by
  have hx : s.threadOf x = none := (threadOf_of_some h.timer).trans ht
  cases andThen with
  | stop =>
    rw [Timers.afterStop, begins_of_eq (by rfl), List.append_nil]
    refine ⟨h.owned, h.logged, fun c hc => (nomatch h.idle.symm.trans hc), fun z u hz => ?_⟩
    rw [delayDue_of_idle h.idle]
    by_cases hzx : z = x
    · subst hzx
      cases h.timer.symm.trans hz
      exact h.delay
    · exact h.others z u hzx hz
  | reset newDelayNs => exact inv_start h.owned h.logged h.idle hx ht h.delay h.others
  | destroy =>
    rw [Timers.afterStop, begins_of_eq (by rfl), List.append_nil]
    refine ⟨?_, h.logged, fun c hc => (nomatch h.idle.symm.trans hc), fun z u hz => ?_⟩
    · have hsame : Function.update s.threadOf x none = s.threadOf := by
        rw [← hx, Function.update_eq_self]
      rw [threadOf_setTimer, Option.bind_none, hsame]
      exact h.owned
    · rw [delayDue_of_idle (by exact h.idle)]
      by_cases hzx : z = x
      · rw [hzx, timer_setTimer_self] at hz
        cases hz
      · exact h.others z u hzx ((timer_setTimer_of_ne s _ hzx).symm.trans hz)
  | assign y =>
    obtain ⟨hyx, hy⟩ := h.other y rfl
    obtain ⟨u, hu⟩ := Option.isSome_iff_exists.mp hy
    have hthread : s.threadOf y = u.thread := threadOf_of_some hu
    simp only [Timers.afterStop, hu]
    rw [begins_of_eq (by rfl), List.append_nil]
    refine ⟨?_, h.logged, fun c hc => (nomatch h.idle.symm.trans hc), fun z v hz => ?_⟩
    · rw [threadOf_setTimer, threadOf_setTimer]
      simp only [Option.bind_some, ← hthread]
      exact h.owned.pass hx (Ne.symm hyx)
    · rw [delayDue_of_idle (by exact h.idle)]
      by_cases hzy : z = y
      · subst hzy
        cases (timer_setTimer_self _ z _).symm.trans hz
        exact h.others z u hyx hu
      · rw [timer_setTimer_of_ne _ _ hzy] at hz
        by_cases hzx : z = x
        · subst hzx
          cases (timer_setTimer_self _ z _).symm.trans hz
          exact h.delay
        · exact h.others z v hzx ((timer_setTimer_of_ne s _ hzx).symm.trans hz)

/-- **A call that stops a timer first.** -/
theorem stop (h : InCall s x t andThen log inForce) :
    Inv (s.stop x t andThen) (log ++ begins s (s.stop x t andThen) x inForce) inForce := by
  cases ht : t.thread with
  | none =>
    rw [Timers.stop, ht]
    exact h.afterStop ht
  | some w =>
    have hx : s.threadOf x = some w := (threadOf_of_some h.timer).trans ht
    obtain ⟨wk, hw, hjoined⟩ := h.owned.unjoined hx
    simp only [Timers.stop, ht, modifyWorker, hw, Option.map_some]
    rw [begins_of_eq (by rfl), List.append_nil]
    refine ⟨h.owned.modify hw rfl (fun hj => ?_), h.logged.quiet hw rfl rfl rfl id,
      fun c hc => ?_, fun z u hz => ?_⟩
    · rw [hjoined] at hj
      cases hj
    · cases hc
      exact ⟨hx, h.other⟩
    · rw [delayDue_of_joining rfl]
      by_cases hzx : x = z
      · subst hzx
        cases h.timer.symm.trans hz
        rw [if_pos rfl]
        exact h.delay
      · rw [if_neg hzx]
        exact h.others z u (Ne.symm hzx) hz

end InCall

namespace Inv

theorem new : Inv (Timers.new : Timers ν κ) [] (fun _ => none) where
  owned := ⟨fun _ => iff_of_false nofun (Nat.not_lt_zero _), fun _ => iff_of_false nofun nofun,
    nofun, nofun⟩
  logged := ⟨nofun, nofun, nofun, nofun, nofun, History.each_nil⟩
  waits _ hc := nomatch hc
  inForce _ _ hx := nomatch hx

/-- While no call waits, the delays of the timers are in force. -/
theorem delay_of_idle (h : Inv s log inForce) (hidle : s.joining = none)
    (hx : s.timer x = some t) : inForce x = some t.delayNs := by
  rw [h.inForce x t hx, delayDue_of_idle hidle]

/-- A call begins, with the delays it puts in force. -/
theorem inCall (h : Inv s log inForce) (hidle : s.joining = none) (hx : s.timer x = some t)
    (hother : ∀ y, andThen = .assign y → y ≠ x ∧ (s.timer y).isSome = true)
    {delays : ν → Option Int64} (hdelay : delays x = some (delayAfter andThen t.delayNs))
    (hothers : ∀ z, z ≠ x → delays z = inForce z) : InCall s x t andThen log delays := by
  refine ⟨h.owned, h.logged, hidle, hx, hother, hdelay, fun z u hzx hz => ?_⟩
  exact (hothers z hzx).trans (h.delay_of_idle hidle hz)

/-- **The worker that a call waits for is joined**, and the call goes on. -/
theorem join {c : Joining ν} {wk : TimerWorker κ} (h : Inv s log inForce) (hc : s.joining = some c)
    (hx : s.timer c.timer = some t) (hw : s.worker c.worker = some wk) (hpc : wk.pc = .returned) :
    Inv (s.join c t)
      (log ++ [.ended c.worker] ++ begins s (s.join c t) c.timer inForce) inForce := by
  obtain ⟨hthread, hother⟩ := h.waits c hc
  have hcall : InCall
      (({ s.modifyWorker c.worker (fun wk => { wk with joined := true }) with
        joining := none }).setTimer c.timer (some { t with thread := none }))
      c.timer { t with thread := none } c.andThen (log ++ [.ended c.worker]) inForce := by
    simp only [modifyWorker, hw, Option.map_some]
    refine ⟨?_, h.logged.join hw, rfl, timer_setTimer_self _ _ _, fun y hy => ?_, ?_,
      fun z u hz hu => ?_⟩
    · rw [threadOf_setTimer]
      exact h.owned.join hthread hw hpc
    · obtain ⟨hyx, hsome⟩ := hother y hy
      exact ⟨hyx, (congrArg Option.isSome (timer_setTimer_of_ne _ _ hyx)).trans hsome⟩
    · rw [h.inForce c.timer t hx, delayDue_of_joining hc, if_pos rfl]
    · have hu : s.timer z = some u := (timer_setTimer_of_ne _ _ hz).symm.trans hu
      rw [h.inForce z u hu, delayDue_of_joining hc, if_neg (Ne.symm hz)]
  exact hcall.afterStop rfl

/-- **A worker takes a step.** -/
theorem workerStep {w : ℕ} {wk wk' : TimerWorker κ} {log' : List (Event ν)} (h : Inv s log inForce)
    (hw : s.worker w = some wk) (hjoined : wk.joined = false) (hjoined' : wk'.joined = false)
    (hlog : Logged (Function.update s.worker w (some wk')) log') :
    Inv { s with worker := Function.update s.worker w (some wk') } log' inForce where
  owned := h.owned.modify hw (hjoined'.trans hjoined.symm) (fun hj => by
    rw [hjoined] at hj
    cases hj)
  logged := hlog
  waits := h.waits
  inForce := h.inForce

/-- A worker that has not come to its end was not joined. -/
theorem unjoined {w : ℕ} {wk : TimerWorker κ} (h : Inv s log inForce) (hw : s.worker w = some wk)
    (hpc : wk.pc ≠ .returned) : wk.joined = false :=
  Bool.eq_false_iff.mpr (fun hj => hpc (h.owned.joined w wk hw hj))

/-- The wait of a worker is over. -/
theorem waited {w : ℕ} {wk : TimerWorker κ} (h : Inv s log inForce) (hw : s.worker w = some wk)
    (hpc : wk.pc = .waiting) :
    Inv { s with worker := Function.update s.worker w (some wk.waited) }
      (log ++ if wk.stopRequested then [] else [.fires w]) inForce := by
  have hjoined : wk.joined = false := h.unjoined hw (by rw [hpc]; exact nofun)
  refine h.workerStep hw hjoined hjoined ?_
  cases hstop : wk.stopRequested with
  | false =>
    have heq : wk.waited = { wk with pc := .calling } := by
      rw [TimerWorker.waited, hstop]
      rfl
    rw [heq]
    exact h.logged.fires hw hjoined hpc
  | true =>
    rw [if_pos rfl, List.append_nil]
    exact h.logged.quiet hw rfl rfl rfl (fun _ => hpc)

/-- A timer is constructed. -/
theorem construct (h : Inv s log inForce) (hidle : s.joining = none) (hx : s.timer x = none)
    (mode : TimerMode) (delayNs : Int64) (callback : κ) :
    Inv (s.setTimer x (some ⟨mode, delayNs, callback, none⟩))
      log (Function.update inForce x (some delayNs)) := by
  have hthread : s.threadOf x = none := threadOf_of_none hx
  refine ⟨?_, h.logged, fun c hc => (nomatch hidle.symm.trans hc), fun z u hz => ?_⟩
  · rw [threadOf_setTimer, Option.bind_some, ← hthread, Function.update_eq_self]
    exact h.owned
  · rw [delayDue_of_idle (by exact hidle)]
    by_cases hzx : z = x
    · subst hzx
      cases (timer_setTimer_self s z _).symm.trans hz
      exact Function.update_self _ _ _
    · rw [Function.update_of_ne hzx]
      exact h.delay_of_idle hidle ((timer_setTimer_of_ne s _ hzx).symm.trans hz)

/-- A timer is made from another. -/
theorem moveConstruct {u : Timer κ} (h : Inv s log inForce) (hidle : s.joining = none)
    (hx : s.timer x = none) (hy : s.timer y = some u) (left : κ) :
    Inv ((s.setTimer x (some u)).setTimer y (some { u with callback := left, thread := none }))
      log (Function.update inForce x (inForce y)) := by
  have hxy : x ≠ y := fun heq => by
    rw [heq, hy] at hx
    cases hx
  have hthread : s.threadOf x = none := threadOf_of_none hx
  have hpassed : s.threadOf y = u.thread := threadOf_of_some hy
  have hdelay : inForce y = some u.delayNs := h.delay_of_idle hidle hy
  refine ⟨?_, h.logged, fun c hc => (nomatch hidle.symm.trans hc), fun z v hz => ?_⟩
  · rw [threadOf_setTimer, threadOf_setTimer]
    simp only [Option.bind_some, ← hpassed]
    exact h.owned.pass hthread hxy
  · rw [delayDue_of_idle (by exact hidle)]
    by_cases hzy : z = y
    · subst hzy
      cases (timer_setTimer_self _ z _).symm.trans hz
      rw [Function.update_of_ne (Ne.symm hxy)]
      exact hdelay
    · rw [timer_setTimer_of_ne _ _ hzy] at hz
      by_cases hzx : z = x
      · subst hzx
        cases (timer_setTimer_self _ z _).symm.trans hz
        rw [Function.update_self]
        exact hdelay
      · rw [timer_setTimer_of_ne _ _ hzx] at hz
        rw [Function.update_of_ne hzx]
        exact h.delay_of_idle hidle hz

/-- A move-assignment begins: the delay and the callback are moved first. -/
theorem moveAssign {u : Timer κ} (h : Inv s log inForce) (hidle : s.joining = none)
    (hx : s.timer x = some t) (hy : s.timer y = some u) (hxy : x ≠ y) (left : κ) :
    InCall
      ((s.setTimer x (some { t with delayNs := u.delayNs, callback := u.callback })).setTimer y
        (some { u with callback := left }))
      x { t with delayNs := u.delayNs, callback := u.callback } (.assign y)
      log (Function.update inForce x (inForce y)) := by
  have hdelay : inForce y = some u.delayNs := h.delay_of_idle hidle hy
  refine ⟨?_, h.logged, hidle, ?_, fun z hz => ?_, ?_, fun z v hzx hz => ?_⟩
  · rw [threadOf_setTimer_both hx hy hxy _ _ (by rfl) (by rfl)]
    exact h.owned
  · rw [timer_setTimer_of_ne _ _ hxy, timer_setTimer_self]
  · cases hz
    exact ⟨Ne.symm hxy, congrArg Option.isSome (timer_setTimer_self _ y _)⟩
  · rw [Function.update_self]
    exact hdelay
  · rw [Function.update_of_ne hzx]
    by_cases hzy : z = y
    · subst hzy
      cases (timer_setTimer_self _ z _).symm.trans hz
      exact hdelay
    · rw [timer_setTimer_of_ne _ _ hzy, timer_setTimer_of_ne _ _ hzx] at hz
      exact h.delay_of_idle hidle hz

/-- A call that starts no worker of its own. -/
theorem of_stop (h : InCall s x t andThen log inForce)
    (hreset : ∀ newDelayNs, andThen ≠ .reset newDelayNs) :
    Inv (s.stop x t andThen) log inForce := by
  have hinv := h.stop
  rwa [begins_of_eq (threads_stop s x t hreset), List.append_nil] at hinv

/-- A step that does nothing to be logged. -/
theorem of_quiet {label : Label ν κ} {r : Record ν} (hinv : Inv s' r.log (r.delays label))
    (hevents : events s label s' (r.delays label) = []) :
    Inv s' (enter s label s' r).log (enter s label s' r).inForce := by
  rw [enter, hevents, List.append_nil]
  exact hinv

/-- A step that may start a worker for `x`. -/
theorem of_begins {label : Label ν κ} {r : Record ν}
    (hinv : Inv s' (r.log ++ begins s s' x (r.delays label)) (r.delays label))
    (hevents : events s label s' (r.delays label) = begins s s' x (r.delays label) ++ []) :
    Inv s' (enter s label s' r).log (enter s label s' r).inForce := by
  rw [enter, hevents, List.append_nil]
  exact hinv

/-- **A call** of the thread that uses the timers keeps the invariant. -/
theorem callStep {label : Label ν κ} {r : Record ν} (h : Inv s r.log r.inForce)
    (hidle : s.joining = none) (hstep : s.callStep label = some s') :
    Inv s' (enter s label s' r).log (enter s label s' r).inForce := by
  cases label with
  | construct x mode delayNs callback =>
    simp only [Timers.callStep] at hstep
    cases hx : s.timer x with
    | none =>
      rw [hx] at hstep
      cases hstep
      exact of_quiet (h.construct hidle hx mode delayNs callback) rfl
    | some t =>
      rw [hx] at hstep
      cases hstep
  | start x =>
    obtain ⟨t, hx, rfl⟩ := Option.map_eq_some_iff.mp hstep
    refine of_begins (x := x) ?_ rfl
    cases ht : t.thread with
    | none =>
      exact inv_start h.owned h.logged hidle ((threadOf_of_some hx).trans ht) ht
        (h.delay_of_idle hidle hx) (fun z u _ hz => h.delay_of_idle hidle hz)
    | some w =>
      simp only [Timers.start, ht]
      rw [begins_of_eq rfl, List.append_nil]
      exact h
  | stop x =>
    obtain ⟨t, hx, rfl⟩ := Option.map_eq_some_iff.mp hstep
    refine of_quiet (of_stop (h.inCall hidle hx ?_ (h.delay_of_idle hidle hx) ?_) nofun) rfl
    · exact nofun
    · exact fun _ _ => rfl
  | reset x newDelayNs =>
    obtain ⟨t, hx, rfl⟩ := Option.map_eq_some_iff.mp hstep
    refine of_begins (x := x) (InCall.stop (h.inCall hidle hx ?_ ?_ ?_)) rfl
    · exact nofun
    · exact Function.update_self _ _ _
    · exact fun z hz => Function.update_of_ne hz _ _
  | moveConstruct x y left =>
    obtain ⟨u, hx, hy, rfl⟩ := of_moveConstruct hstep
    exact of_quiet (h.moveConstruct hidle hx hy left) rfl
  | moveAssign x y left =>
    by_cases hxy : x = y
    · subst hxy
      cases of_moveAssign_self hstep
      refine of_quiet ?_ rfl
      rw [Record.delays, Function.update_eq_self]
      exact h
    · obtain ⟨t, u, hx, hy, rfl⟩ := of_moveAssign hxy hstep
      exact of_quiet (of_stop (h.moveAssign hidle hx hy hxy left) nofun) rfl
  | destroy x =>
    obtain ⟨t, hx, rfl⟩ := Option.map_eq_some_iff.mp hstep
    refine of_quiet (of_stop (h.inCall hidle hx ?_ (h.delay_of_idle hidle hx) ?_) nofun) rfl
    · exact nofun
    · exact fun _ _ => rfl
  | join => cases hstep
  | expire w => cases hstep
  | noticeStop w => cases hstep
  | callbackReturns w => cases hstep

/-- **Every step keeps the invariant.** -/
theorem step {label : Label ν κ} {r : Record ν} (h : Inv s r.log r.inForce)
    (hstep : s.step label = some s') :
    Inv s' (enter s label s' r).log (enter s label s' r).inForce := by
  cases label with
  | expire w =>
    obtain ⟨wk, hw, hpc, -, rfl⟩ := of_workerStep hstep
    have hevents : (if (Function.update s.worker w (some wk.waited) w).map TimerWorker.pc
          = some .calling then [.fires w] else [])
        = if wk.stopRequested then [] else [Event.fires (ν := ν) w] := by
      rw [Function.update_self, Option.map_some, TimerWorker.waited]
      cases wk.stopRequested <;> rfl
    have hinv := h.waited hw hpc
    rw [← hevents] at hinv
    exact hinv
  | noticeStop w =>
    obtain ⟨wk, hw, hpc, hstop, rfl⟩ := of_workerStep hstep
    have hinv := h.waited hw hpc
    rw [if_pos hstop] at hinv
    exact hinv
  | callbackReturns w =>
    obtain ⟨wk, hw, hpc, -, rfl⟩ := of_workerStep hstep
    have hjoined : wk.joined = false := h.unjoined hw (by rw [hpc]; exact nofun)
    exact h.workerStep hw hjoined hjoined (h.logged.fired hw hjoined)
  | join =>
    obtain ⟨c, t, wk, hc, hx, hw, hpc, rfl⟩ := of_join hstep
    have hinv := h.join hc hx hw hpc
    have hevents : events s .join (s.join c t) r.inForce
        = [.ended c.worker] ++ begins s (s.join c t) c.timer r.inForce := by
      simp only [events, starter, hc, Option.map_some]
      exact List.append_nil _
    rw [List.append_assoc, ← hevents] at hinv
    exact hinv
  | _ =>
    obtain ⟨hidle, hstep⟩ := callStep_of_step hstep id nofun
    exact h.callStep hidle hstep

/-- What holds of a state holds of those that follow it, with some log. -/
theorem run {labels : List (Label ν κ)} (h : Inv s log inForce)
    (hrun : machine.run s labels = some s') : ∃ log' inForce', Inv s' log' inForce' := by
  induction labels generalizing s log inForce with
  | nil =>
    cases hrun
    exact ⟨log, inForce, h⟩
  | cons label labels ih =>
    obtain ⟨s₁, hstep, hrun⟩ := Option.bind_eq_some_iff.mp hrun
    exact ih (h.step (r := ⟨log, inForce⟩) hstep) hrun

end Inv

/-- **The invariant holds throughout every run.** -/
theorem inv_of_reachable {d : Timers ν κ × Record ν} (h : recorded.Reachable d) :
    Inv d.1 d.2.log d.2.inForce := by
  refine Machine.ReachableBy.invariant (I := fun d => Inv d.1 d.2.log d.2.inForce) Inv.new ?_ h
  intro d _ d' _ hinv _ hstep
  obtain ⟨hstep, hrecord⟩ := Machine.recording_step hstep
  rw [hrecord]
  exact hinv.step hstep

/-! ## Moves -/

/-- **The worker of `y` is handed over to `x`**, and goes on as it was. -/
def HandsOver (s s' : Timers ν κ) (y x : ν) : Prop :=
  s'.threadOf y = none ∧ s'.threadOf x = s.threadOf y
    ∧ ∀ w, s.threadOf y = some w → s'.worker w = s.worker w

/-- Both timers are written. -/
theorem handsOver_setTimer {t u u' : Timer κ} (hy : s.timer y = some u) (hxy : x ≠ y)
    (ht : t.thread = u.thread) (hu' : u'.thread = none) :
    HandsOver s ((s.setTimer x (some t)).setTimer y (some u')) y x := by
  refine ⟨?_, ?_, fun w _ => rfl⟩
  · rw [threadOf_setTimer, Function.update_self]
    exact hu'
  · rw [threadOf_setTimer, Function.update_of_ne hxy, threadOf_setTimer, Function.update_self,
      threadOf, hy]
    exact ht

omit [DecidableEq ν] in
/-- What comes before changes nothing of the worker of `y`. -/
theorem HandsOver.of_same {s₁ : Timers ν κ} (h : HandsOver s₁ s' y x)
    (hthread : s₁.threadOf y = s.threadOf y)
    (hworker : ∀ w, s.threadOf y = some w → s₁.worker w = s.worker w) : HandsOver s s' y x :=
  ⟨h.1, h.2.1.trans hthread, fun w hw => (h.2.2 w (hthread.trans hw)).trans (hworker w hw)⟩

/-- The last part of a move-assignment. -/
theorem handsOver_assign {u : Timer κ} (hy : s.timer y = some u) (hxy : x ≠ y) :
    HandsOver s (s.afterStop x t (.assign y)) y x := by
  simp only [Timers.afterStop, hy]
  exact handsOver_setTimer hy hxy rfl rfl

theorem handsOver_moveConstruct {left : κ}
    (hstep : s.step (.moveConstruct x y left) = some s') : HandsOver s s' y x := by
  obtain ⟨-, hstep⟩ := callStep_of_step hstep id nofun
  obtain ⟨u, hx, hy, rfl⟩ := of_moveConstruct hstep
  have hxy : x ≠ y := fun heq => by
    rw [heq, hy] at hx
    cases hx
  exact handsOver_setTimer hy hxy rfl rfl

/-- **The thread is moved**, or the worker that `x` has is waited for, without anything being done
to the worker of `y`. -/
theorem InCall.assign (h : InCall s x t (.assign y) log inForce) :
    (s.stop x t (.assign y)).joining = none ∧ HandsOver s (s.stop x t (.assign y)) y x
      ∨ (∃ v, (s.stop x t (.assign y)).joining = some ⟨x, v, .assign y⟩)
        ∧ (s.stop x t (.assign y)).threadOf = s.threadOf
        ∧ ∀ w, s.threadOf y = some w → (s.stop x t (.assign y)).worker w = s.worker w := by
  obtain ⟨hyx, hy⟩ := h.other y rfl
  obtain ⟨u, hu⟩ := Option.isSome_iff_exists.mp hy
  cases ht : t.thread with
  | none =>
    simp only [Timers.stop, ht]
    refine Or.inl ⟨?_, handsOver_assign hu (Ne.symm hyx)⟩
    simp only [Timers.afterStop, hu]
    exact h.idle
  | some v =>
    simp only [Timers.stop, ht]
    refine Or.inr ⟨⟨v, rfl⟩, rfl, fun w hw => ?_⟩
    have hv : s.threadOf x = some v := (threadOf_of_some h.timer).trans ht
    have hwv : w ≠ v := fun heq => hyx (h.owned.apart y x v (heq ▸ hw) hv)
    exact Function.update_of_ne hwv _ _

/-- **A move-assignment** hands the worker over, or waits to. -/
theorem moveAssign_spec {left : κ} (h : Inv s log inForce) (hxy : x ≠ y)
    (hstep : s.step (.moveAssign x y left) = some s') :
    s'.joining = none ∧ HandsOver s s' y x
      ∨ (∃ v, s'.joining = some ⟨x, v, .assign y⟩) ∧ s'.threadOf = s.threadOf
        ∧ ∀ w, s.threadOf y = some w → s'.worker w = s.worker w := by
  obtain ⟨hidle, hstep⟩ := callStep_of_step hstep id nofun
  obtain ⟨t, u, hx, hy, rfl⟩ := of_moveAssign hxy hstep
  have hsame := threadOf_setTimer_both hx hy hxy
    { t with delayNs := u.delayNs, callback := u.callback } { u with callback := left } rfl rfl
  obtain ⟨hnone, hover⟩ | ⟨hwaits, hthread, hworker⟩ :=
    (h.moveAssign hidle hx hy hxy left).assign
  · exact Or.inl ⟨hnone, hover.of_same (congrFun hsame y) (fun _ _ => rfl)⟩
  · exact Or.inr ⟨hwaits, hthread.trans hsame,
      fun w hw => hworker w ((congrFun hsame y).trans hw)⟩

/-- A worker's step is nothing to the timers. -/
theorem timer_of_ofWorker {label : Label ν κ} (hlabel : label.OfWorker)
    (hstep : s.step label = some s') : s'.timer = s.timer ∧ s'.joining = s.joining := by
  cases label with
  | expire w =>
    obtain ⟨wk, -, -, -, rfl⟩ := of_workerStep hstep
    exact ⟨rfl, rfl⟩
  | noticeStop w =>
    obtain ⟨wk, -, -, -, rfl⟩ := of_workerStep hstep
    exact ⟨rfl, rfl⟩
  | callbackReturns w =>
    obtain ⟨wk, -, -, -, rfl⟩ := of_workerStep hstep
    exact ⟨rfl, rfl⟩
  | _ => exact hlabel.elim

/-- Nor are many of them. -/
theorem timer_of_run {labels : List (Label ν κ)} (hlabels : ∀ label ∈ labels, label.OfWorker)
    (hrun : machine.run s labels = some s') : s'.timer = s.timer ∧ s'.joining = s.joining := by
  induction labels generalizing s with
  | nil =>
    cases hrun
    exact ⟨rfl, rfl⟩
  | cons label labels ih =>
    obtain ⟨s₁, hstep, hrun⟩ := Option.bind_eq_some_iff.mp hrun
    obtain ⟨htimer, hjoining⟩ := timer_of_ofWorker (hlabels label List.mem_cons_self) hstep
    obtain ⟨htimer', hjoining'⟩ := ih (fun l hl => hlabels l (List.mem_cons_of_mem _ hl)) hrun
    exact ⟨htimer'.trans htimer, hjoining'.trans hjoining⟩

/-- **The end of a move-assignment** that had to wait. -/
theorem handsOver_join {v : ℕ} (h : Inv s log inForce)
    (hjoining : s.joining = some ⟨x, v, .assign y⟩) (hstep : s.step .join = some s') :
    HandsOver s s' y x := by
  obtain ⟨c, t, wk, hc, hx, hw, -, rfl⟩ := of_join hstep
  cases hjoining.symm.trans hc
  obtain ⟨hthread, hother⟩ := h.waits _ hc
  obtain ⟨hyx, hy⟩ := hother y rfl
  obtain ⟨u, hu⟩ := Option.isSome_iff_exists.mp hy
  have hu' : (({ s.modifyWorker v (fun wk => { wk with joined := true }) with
      joining := none }).setTimer x (some { t with thread := none })).timer y = some u :=
    (timer_setTimer_of_ne _ _ hyx).trans hu
  refine (handsOver_assign hu' (Ne.symm hyx)).of_same ?_ (fun w hw => ?_)
  · rw [threadOf, threadOf, hu', hu]
  · have hwv : w ≠ v := fun heq => hyx (h.owned.apart y x v (heq ▸ hw) hthread)
    exact Function.update_of_ne hwv _ _

/-! ## The end of a worker -/

/-- A worker that has been joined, and has come to its end. -/
def Gone (worker : ℕ → Option (TimerWorker κ)) (w : ℕ) : Prop :=
  ∃ wk, worker w = some wk ∧ wk.joined = true ∧ wk.pc = .returned

/-- The timer whose worker a call is to end. -/
def Label.ending : Label ν κ → Option ν
  | .stop x => some x
  | .reset x _ => some x
  | .destroy x => some x
  | .moveAssign x y _ => if x = y then none else some x
  | _ => none

section Gone

variable {w v : ℕ}

omit [DecidableEq ν] in
theorem worker_modifyWorker_self (s : Timers ν κ) (f : TimerWorker κ → TimerWorker κ) :
    (s.modifyWorker w f).worker w = (s.worker w).map f :=
  Function.update_self _ _ _

omit [DecidableEq ν] in
theorem worker_modifyWorker_of_ne (s : Timers ν κ) (hwv : w ≠ v)
    (f : TimerWorker κ → TimerWorker κ) : (s.modifyWorker v f).worker w = s.worker w :=
  Function.update_of_ne hwv _ _

omit [DecidableEq ν] in
theorem Gone.modifyWorker (h : Gone s.worker w) {f : TimerWorker κ → TimerWorker κ}
    (hf : ∀ wk, wk.joined = true → wk.pc = .returned →
      (f wk).joined = true ∧ (f wk).pc = .returned) : Gone (s.modifyWorker v f).worker w := by
  obtain ⟨wk, hw, hjoined, hpc⟩ := h
  by_cases hwv : w = v
  · subst hwv
    refine ⟨f wk, ?_, hf wk hjoined hpc⟩
    rw [worker_modifyWorker_self, hw, Option.map_some]
  · exact ⟨wk, (worker_modifyWorker_of_ne s hwv f).trans hw, hjoined, hpc⟩

/-- A new worker takes the place of none. -/
theorem Gone.start (h : Gone s.worker w) (hmade : ∀ v, (s.worker v).isSome = true → v < s.threads) :
    Gone (s.start x t).2.worker w := by
  rw [Timers.start]
  cases t.thread with
  | some v => exact h
  | none =>
    obtain ⟨wk, hw, hgone⟩ := h
    have hne : w ≠ s.threads := Nat.ne_of_lt (hmade w (hw ▸ rfl))
    exact ⟨wk, (Function.update_of_ne hne _ _).trans hw, hgone⟩

theorem Gone.afterStop (h : Gone s.worker w)
    (hmade : ∀ v, (s.worker v).isSome = true → v < s.threads) :
    Gone (s.afterStop x t andThen).worker w := by
  cases andThen with
  | stop => exact h
  | reset newDelayNs => exact h.start hmade
  | destroy => exact h
  | assign y =>
    simp only [Timers.afterStop]
    cases s.timer y <;> exact h

theorem Gone.stop (h : Gone s.worker w)
    (hmade : ∀ v, (s.worker v).isSome = true → v < s.threads) :
    Gone (s.stop x t andThen).worker w := by
  rw [Timers.stop]
  cases t.thread with
  | some v => exact h.modifyWorker (fun wk hjoined hpc => ⟨hjoined, hpc⟩)
  | none => exact h.afterStop hmade

omit [DecidableEq ν] in
/-- The threads that were made are as many after one of them was written. -/
theorem made_modifyWorker (hmade : ∀ v, (s.worker v).isSome = true → v < s.threads)
    (f : TimerWorker κ → TimerWorker κ) (u : ℕ) :
    ((s.modifyWorker v f).worker u).isSome = true → u < s.threads := by
  intro hu
  refine hmade u ?_
  by_cases huv : u = v
  · subst huv
    rwa [worker_modifyWorker_self, Option.isSome_map] at hu
  · rwa [worker_modifyWorker_of_ne s huv] at hu

/-- **A worker that is gone stays so.** -/
theorem Gone.step {label : Label ν κ} (h : Inv s log inForce) (hw : Gone s.worker w)
    (hstep : s.step label = some s') : Gone s'.worker w := by
  have hmade : ∀ v, (s.worker v).isSome = true → v < s.threads :=
    fun v => (h.owned.made v).mp
  -- a worker that takes a step has not come to its end
  have hworker : ∀ {v : ℕ} {pc : RunLoop} {ready : TimerWorker κ → Bool}
      {f : TimerWorker κ → TimerWorker κ}, pc ≠ .returned →
      s.workerStep v pc ready f = some s' → Gone s'.worker w := by
    intro v pc ready f hpc hstep
    obtain ⟨wk, hv, hvpc, -, rfl⟩ := of_workerStep hstep
    obtain ⟨wk', hw', hjoined, hreturned⟩ := hw
    have hwv : w ≠ v := by
      rintro rfl
      cases hv.symm.trans hw'
      exact hpc (hvpc.symm.trans hreturned)
    exact ⟨wk', (Function.update_of_ne hwv _ _).trans hw', hjoined, hreturned⟩
  cases label with
  | expire v => exact hworker (by simp) hstep
  | noticeStop v => exact hworker (by simp) hstep
  | callbackReturns v => exact hworker (by simp) hstep
  | join =>
    obtain ⟨c, t, wk, -, -, -, -, rfl⟩ := of_join hstep
    refine Gone.afterStop ?_ (made_modifyWorker hmade _)
    exact hw.modifyWorker (fun wk _ hpc => ⟨rfl, hpc⟩)
  | construct x mode delayNs callback =>
    obtain ⟨-, hstep⟩ := callStep_of_step hstep id nofun
    simp only [Timers.callStep] at hstep
    cases hx : s.timer x with
    | none =>
      rw [hx] at hstep
      cases hstep
      exact hw
    | some t =>
      rw [hx] at hstep
      cases hstep
  | start x =>
    obtain ⟨-, hstep⟩ := callStep_of_step hstep id nofun
    obtain ⟨t, -, rfl⟩ := Option.map_eq_some_iff.mp hstep
    exact hw.start hmade
  | stop x =>
    obtain ⟨-, hstep⟩ := callStep_of_step hstep id nofun
    obtain ⟨t, -, rfl⟩ := Option.map_eq_some_iff.mp hstep
    exact hw.stop hmade
  | reset x newDelayNs =>
    obtain ⟨-, hstep⟩ := callStep_of_step hstep id nofun
    obtain ⟨t, -, rfl⟩ := Option.map_eq_some_iff.mp hstep
    exact hw.stop hmade
  | destroy x =>
    obtain ⟨-, hstep⟩ := callStep_of_step hstep id nofun
    obtain ⟨t, -, rfl⟩ := Option.map_eq_some_iff.mp hstep
    exact hw.stop hmade
  | moveConstruct x y left =>
    obtain ⟨-, hstep⟩ := callStep_of_step hstep id nofun
    obtain ⟨u, -, -, rfl⟩ := of_moveConstruct hstep
    exact hw
  | moveAssign x y left =>
    obtain ⟨-, hstep⟩ := callStep_of_step hstep id nofun
    by_cases hxy : x = y
    · subst hxy
      cases of_moveAssign_self hstep
      exact hw
    · obtain ⟨t, u, -, -, rfl⟩ := of_moveAssign hxy hstep
      exact Gone.stop (s := (s.setTimer x _).setTimer y _) hw hmade

/-- **The worker that a call waits for is gone** once it has been joined. -/
theorem gone_join {c : Joining ν} (h : Inv s log inForce) (hc : s.joining = some c)
    (hstep : s.step .join = some s') : Gone s'.worker c.worker := by
  obtain ⟨c', t, wk, hc', -, hw, hpc, rfl⟩ := of_join hstep
  cases hc.symm.trans hc'
  refine Gone.afterStop ?_ (made_modifyWorker (fun v => (h.owned.made v).mp) _)
  refine ⟨{ wk with joined := true }, ?_, rfl, hpc⟩
  show (s.modifyWorker c.worker _).worker c.worker = _
  rw [worker_modifyWorker_self, hw, Option.map_some]

theorem Gone.run {labels : List (Label ν κ)} (h : Inv s log inForce) (hw : Gone s.worker w)
    (hrun : machine.run s labels = some s') : Gone s'.worker w := by
  induction labels generalizing s log inForce with
  | nil =>
    cases hrun
    exact hw
  | cons label labels ih =>
    obtain ⟨s₁, hstep, hrun⟩ := Option.bind_eq_some_iff.mp hrun
    exact ih (h.step (r := ⟨log, inForce⟩) hstep) (hw.step h hstep) hrun

/-- **A call that waits goes on waiting, or the worker is gone.** -/
theorem gone_of_run {labels : List (Label ν κ)} {c : Joining ν} (h : Inv s log inForce)
    (hc : s.joining = some c) (hrun : machine.run s labels = some s') :
    s'.joining = some c ∧ (∀ label ∈ labels, label.OfWorker) ∨ Gone s'.worker c.worker := by
  induction labels generalizing s log inForce with
  | nil =>
    cases hrun
    exact Or.inl ⟨hc, by simp⟩
  | cons label labels ih =>
    obtain ⟨s₁, hstep, hrest⟩ := Option.bind_eq_some_iff.mp hrun
    replace hstep : s.step label = some s₁ := hstep
    have hinv := h.step (r := ⟨log, inForce⟩) hstep
    by_cases hworker : label.OfWorker
    · have hc₁ := (timer_of_ofWorker hworker hstep).2.trans hc
      refine (ih hinv hc₁ hrest).imp_left (fun hlater => ⟨hlater.1, ?_⟩)
      exact List.forall_mem_cons.mpr ⟨hworker, hlater.2⟩
    · by_cases hjoin : label = .join
      · subst hjoin
        exact Or.inr ((gone_join h hc hstep).run hinv hrest)
      · -- no other call is made meanwhile
        cases (callStep_of_step hstep hworker hjoin).1.symm.trans hc

/-- **A call that is to end a worker waits for it.** -/
theorem waits_of_ending {label : Label ν κ} (hlabel : label.ending = some x)
    (hx : s.threadOf x = some w) (hstep : s.step label = some s') :
    ∃ andThen, s'.joining = some ⟨x, w, andThen⟩ := by
  have hstop : ∀ {s₁ : Timers ν κ} {t : Timer κ} {andThen : AfterStop ν}, t.thread = some w →
      (s₁.stop x t andThen).joining = some ⟨x, w, andThen⟩ := by
    intro s₁ t andThen ht
    simp only [Timers.stop, ht]
  have hthread : ∀ {t : Timer κ}, s.timer x = some t → t.thread = some w :=
    fun ht => (threadOf_of_some ht).symm.trans hx
  cases label with
  | stop y =>
    cases hlabel
    obtain ⟨t, ht, rfl⟩ := Option.map_eq_some_iff.mp (callStep_of_step hstep id nofun).2
    exact ⟨_, hstop (hthread ht)⟩
  | reset y newDelayNs =>
    cases hlabel
    obtain ⟨t, ht, rfl⟩ := Option.map_eq_some_iff.mp (callStep_of_step hstep id nofun).2
    exact ⟨_, hstop (hthread ht)⟩
  | destroy y =>
    cases hlabel
    obtain ⟨t, ht, rfl⟩ := Option.map_eq_some_iff.mp (callStep_of_step hstep id nofun).2
    exact ⟨_, hstop (hthread ht)⟩
  | moveAssign y z left =>
    rw [Label.ending, Option.ite_none_left_eq_some] at hlabel
    obtain ⟨hyz, hlabel⟩ := hlabel
    cases hlabel
    obtain ⟨t, u, ht, -, rfl⟩ := of_moveAssign hyz (callStep_of_step hstep id nofun).2
    have hw : t.thread = some w := hthread ht
    exact ⟨_, hstop hw⟩
  | _ => cases hlabel

end Gone

/-! ## What is promised of timers -/

/-- **The contract of timers**, of a state and of the record of the run that led to it. -/
structure Contract (s : Timers ν κ) (r : Record ν) : Prop where
  /-- A worker that has not been joined is the worker of one timer. -/
  owner : ∀ w, Unjoined s.worker w → ∃! x, s.threadOf x = some w
  /-- The worker of a timer has not been joined. -/
  unjoined : ∀ x w, s.threadOf x = some w → Unjoined s.worker w
  /-- `start` fails if the timer has such a worker, and only then; it does nothing then. -/
  refuses : ∀ x t, s.timer x = some t →
    ((∃ e, (s.start x t).1 = .error e) ↔ ∃ w, s.threadOf x = some w ∧ Unjoined s.worker w)
    ∧ ∀ e, (s.start x t).1 = .error e → (s.start x t).2 = s
  /-- The worker that a call ends is that of its timer. -/
  ends : ∀ c, s.joining = some c → s.threadOf c.timer = some c.worker
  /-- A call that is to end the worker of a timer – `stop`, `reset`, the destructor, and an
  assignment to it – waits for it. Until it goes on, only workers take steps; from then on the
  worker is gone. -/
  awaited : ∀ label s' x w, label.ending = some x → s.threadOf x = some w →
    s.step label = some s' →
    (∃ andThen, s'.joining = some ⟨x, w, andThen⟩)
      ∧ ∀ labels s₁, machine.run s' labels = some s₁ →
        s₁.joining = s'.joining ∧ (∀ l ∈ labels, l.OfWorker) ∨ Gone s₁.worker w
  /-- Callbacks run between the start of their worker and its end. -/
  timely : Timely r.log
  running : ∀ w wk, s.worker w = some wk → wk.pc = .calling →
    (∃ x d, .started w x d ∈ r.log) ∧ .ended w ∉ r.log
  once : ∀ w wk, s.worker w = some wk → wk.mode = .oneShot → r.log.count (.fires w) ≤ 1
  /-- The delay of a worker is the one that was in force when it was started. -/
  delay : ∀ w wk, s.worker w = some wk → (∃ x, .started w x (some wk.delayNs) ∈ r.log)
    ∧ ∀ x d, .started w x d ∈ r.log → d = some wk.delayNs
  moveConstruct : ∀ x y left s', s.step (.moveConstruct x y left) = some s' → HandsOver s s' y x
  /-- A move-assignment hands the worker over at once, or after the wait for the worker of its
  target, which takes any number of steps of the workers. -/
  moveAssign : ∀ x y left s', x ≠ y → s.step (.moveAssign x y left) = some s' →
    s'.joining = none ∧ HandsOver s s' y x
    ∨ (s'.joining.isSome = true ∧ (∀ w, s.threadOf y = some w → s'.worker w = s.worker w)
      ∧ ∀ labels s₁ s₂, (∀ label ∈ labels, label.OfWorker) → machine.run s' labels = some s₁ →
        s₁.step .join = some s₂ → s₁.threadOf y = s.threadOf y ∧ HandsOver s₁ s₂ y x)

/-- `start` looks at nothing but the thread. -/
theorem start_eq_error_iff (s : Timers ν κ) (x : ν) (t : Timer κ) :
    (∃ e, (s.start x t).1 = .error e) ↔ ∃ w, t.thread = some w := by
  rw [start]
  cases t.thread with
  | none => exact iff_of_false nofun nofun
  | some w => exact iff_of_true ⟨_, rfl⟩ ⟨w, rfl⟩

/-- **What is promised of timers holds throughout every run**, however the workers' steps fall
between the calls. -/
theorem contract_of_reachable {s : Timers ν κ} {r : Record ν} (h : recorded.Reachable (s, r)) :
    Contract s r := by
  have hinv : Inv s r.log r.inForce := inv_of_reachable h
  refine ⟨fun w hw => ?_, fun x w hx => hinv.owned.unjoined hx,
    fun x t hx => ⟨?_, fun e hfail => ?_⟩, fun c hc => (hinv.waits c hc).1,
    fun label s' x w hlabel hx hstep => ?_, hinv.logged.timely, fun w wk hw hpc => ?_,
    fun w wk hw hmode => (hinv.logged.once w wk hw hmode).1,
    fun w wk hw => ⟨hinv.logged.started w wk hw, fun x d hd => ?_⟩,
    fun x y left s' hstep => handsOver_moveConstruct hstep,
    fun x y left s' hxy hstep => ?_⟩
  · obtain ⟨x, hx⟩ := (hinv.owned.owned w).mp hw
    exact ⟨x, hx, fun y hy => hinv.owned.apart y x w hy hx⟩
  · rw [start_eq_error_iff, ← threadOf_of_some hx]
    exact exists_congr (fun w => (and_iff_left_of_imp hinv.owned.unjoined).symm)
  · obtain ⟨w, hw⟩ := (start_eq_error_iff s x t).mp ⟨e, hfail⟩
    rw [start, hw]
  · obtain ⟨andThen, hc⟩ := waits_of_ending hlabel hx hstep
    refine ⟨⟨andThen, hc⟩, fun labels s₁ hrun => ?_⟩
    rw [hc]
    exact gone_of_run (hinv.step hstep) hc hrun
  · obtain ⟨x, hx⟩ := hinv.logged.started w wk hw
    refine ⟨⟨x, _, hx⟩, fun hended => ?_⟩
    obtain ⟨u, hu, hj⟩ := hinv.logged.ended w hended
    cases hw.symm.trans hu
    exact absurd (hinv.owned.joined w wk hw hj) (by rw [hpc]; exact nofun)
  · obtain ⟨u, hu, hd⟩ := hinv.logged.delay w x d hd
    cases hw.symm.trans hu
    exact hd
  · obtain hdone | ⟨⟨v, hjoining⟩, hthread, hworker⟩ := moveAssign_spec hinv hxy hstep
    · exact Or.inl hdone
    · refine Or.inr ⟨by rw [hjoining]; rfl, hworker, fun labels s₁ s₂ hlabels hrun hjoin => ?_⟩
      obtain ⟨htimer, hjoining'⟩ := timer_of_run hlabels hrun
      obtain ⟨log', inForce', hinv'⟩ := (hinv.step hstep).run hrun
      refine ⟨?_, handsOver_join hinv' (hjoining'.trans hjoining) hjoin⟩
      rw [← hthread, threadOf, threadOf, htimer]

/-- A one-shot timer has fired and cannot be started again. A periodic one is assigned to it, and
calls its callback while the worker of the one-shot is waited for. The timer is reset, another
is made from it, and that one is stopped during a callback, started again and destroyed. -/
def assignedAndDestroyed : List (Label ℕ Unit) :=
  [.construct 0 .oneShot 5 (), .construct 1 .periodic 7 (), .start 0, .start 1, .expire 0,
    .callbackReturns 0, .start 0, .moveAssign 0 1 (), .expire 1, .join, .callbackReturns 1,
    .reset 0 9, .noticeStop 1, .join, .moveConstruct 2 0 (), .expire 2, .stop 2,
    .callbackReturns 2, .noticeStop 2, .join, .start 2, .destroy 2, .noticeStop 3, .join]

theorem contract_of_reachable_assignedAndDestroyed :
    ∃ (s : Timers ℕ Unit) (r : Record ℕ),
      recorded.run recorded.init assignedAndDestroyed = some (s, r)
      ∧ r.log = [.started 0 0 (some 5), .started 1 1 (some 7), .fires 0, .fired 0, .fires 1,
          .ended 0, .fired 1, .ended 1, .started 2 0 (some 9), .fires 2, .fired 2, .ended 2,
          .started 3 2 (some 9), .ended 3]
      ∧ Contract s r := by
  have hreach : ∀ s r, recorded.run recorded.init assignedAndDestroyed = some (s, r) →
      recorded.Reachable (s, r) :=
    fun s r hrun => Machine.ReachableBy.init.run_of_forall (fun _ _ _ => trivial) hrun
  exact ⟨_, _, rfl, rfl, contract_of_reachable (hreach _ _ rfl)⟩

end Timers

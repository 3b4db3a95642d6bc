import SapCore.History
import SapCore.Timer

/-!
# The workers of timers

What is kept of workers, apart from the timers. `Owned` says whose they are: those that have
not been joined are the workers of the timers, and no two timers have the same one. `Logged`
says what the log has of each worker: that it was started, with its delay, that its callback was
called after that and at most once if it is a one-shot, and that nothing of it comes after it
was joined. Both are kept by each of the few things that happen to workers: one is started, one
takes a step or is asked to stop, one is joined, or is passed on to another timer.
-/

namespace Timers

variable {ν κ : Type}

/-! ## Whose the workers are -/

/-- A worker that has not been joined. -/
def Unjoined (worker : ℕ → Option (TimerWorker κ)) (w : ℕ) : Prop :=
  ∃ wk, worker w = some wk ∧ wk.joined = false

/-- Of the workers, only the one that is written may change. -/
theorem unjoined_update_of_ne {worker : ℕ → Option (TimerWorker κ)} {w v : ℕ}
    {o : Option (TimerWorker κ)} (hv : v ≠ w) :
    Unjoined (Function.update worker w o) v ↔ Unjoined worker v := by
  unfold Unjoined
  rw [Function.update_of_ne hv]

/-- **Workers, and the timers they belong to.** -/
structure Owned (thread : ν → Option ℕ) (worker : ℕ → Option (TimerWorker κ)) (threads : ℕ) :
    Prop where
  made : ∀ w, (worker w).isSome = true ↔ w < threads
  owned : ∀ w, Unjoined worker w ↔ ∃ x, thread x = some w
  apart : ∀ x y w, thread x = some w → thread y = some w → x = y
  joined : ∀ w wk, worker w = some wk → wk.joined = true → wk.pc = .returned

namespace Owned

variable {thread : ν → Option ℕ} {worker : ℕ → Option (TimerWorker κ)} {threads w : ℕ}
  {wk wk' : TimerWorker κ} {x y : ν}

/-- What a worker is after it was written, and the others are. -/
theorem update_some {worker : ℕ → Option (TimerWorker κ)} {v : ℕ} {u : TimerWorker κ}
    (hu : Function.update worker w (some wk') v = some u) :
    v = w ∧ u = wk' ∨ v ≠ w ∧ worker v = some u := by
  by_cases hv : v = w
  · subst hv
    rw [Function.update_self] at hu
    exact Or.inl ⟨rfl, (Option.some.inj hu).symm⟩
  · rw [Function.update_of_ne hv] at hu
    exact Or.inr ⟨hv, hu⟩

theorem lt_of_some (ho : Owned thread worker threads) (hw : worker w = some wk) : w < threads :=
  (ho.made w).mp (hw ▸ rfl)

/-- A worker that is there is written. -/
theorem made_update (ho : Owned thread worker threads) (hw : worker w = some wk) (v : ℕ) :
    (Function.update worker w (some wk') v).isSome = true ↔ v < threads := by
  by_cases hv : v = w
  · subst hv
    rw [Function.update_self]
    exact iff_of_true rfl (ho.lt_of_some hw)
  · rw [Function.update_of_ne hv]
    exact ho.made v

/-- A worker is there if a timer has it. -/
theorem unjoined (ho : Owned thread worker threads) (hx : thread x = some w) :
    Unjoined worker w :=
  (ho.owned w).mpr ⟨x, hx⟩

/-- **A worker takes a step**, or is asked to stop. -/
theorem modify (ho : Owned thread worker threads) (hw : worker w = some wk)
    (hjoined : wk'.joined = wk.joined) (hpc : wk.joined = true → wk'.pc = .returned) :
    Owned thread (Function.update worker w (some wk')) threads where
  made := ho.made_update hw
  owned v := by
    rw [← ho.owned v]
    by_cases hv : v = w
    · subst hv
      unfold Unjoined
      simp only [Function.update_self, hw, Option.some.injEq, exists_eq_left', hjoined]
    · exact unjoined_update_of_ne hv
  apart := ho.apart
  joined v u hu hj := by
    obtain ⟨rfl, rfl⟩ | ⟨-, hu⟩ := update_some hu
    · exact hpc (hjoined ▸ hj)
    · exact ho.joined v u hu hj

variable [DecidableEq ν]

/-- **A worker is started**, for a timer that has none. -/
theorem spawn (ho : Owned thread worker threads) (hx : thread x = none)
    (hjoined : wk'.joined = false) :
    Owned (Function.update thread x (some threads)) (Function.update worker threads (some wk'))
      (threads + 1) where
  made v := by
    by_cases hv : v = threads
    · subst hv
      rw [Function.update_self]
      exact iff_of_true rfl (Nat.lt_succ_self v)
    · rw [Function.update_of_ne hv, ho.made v]
      omega
  owned v := by
    by_cases hv : v = threads
    · subst hv
      exact iff_of_true ⟨wk', Function.update_self _ _ _, hjoined⟩
        ⟨x, Function.update_self _ _ _⟩
    · rw [unjoined_update_of_ne hv, ho.owned v]
      refine exists_congr (fun y => ?_)
      by_cases hy : y = x
      · subst hy
        rw [Function.update_self, hx]
        exact iff_of_false (fun h => nomatch h) (fun h => hv (Option.some.inj h).symm)
      · rw [Function.update_of_ne hy]
  apart y z v hy hz := by
    -- the new worker is none of those that timers had
    have hnew : ∀ u, thread u ≠ some threads := fun u hu => by
      obtain ⟨wk, hwk, -⟩ := ho.unjoined hu
      exact absurd (ho.lt_of_some hwk) (Nat.lt_irrefl _)
    by_cases hyx : y = x
    · by_cases hzx : z = x
      · rw [hyx, hzx]
      · rw [hyx, Function.update_self] at hy
        rw [Function.update_of_ne hzx, ← hy] at hz
        exact absurd hz (hnew z)
    · rw [Function.update_of_ne hyx] at hy
      by_cases hzx : z = x
      · rw [hzx, Function.update_self] at hz
        rw [← hz] at hy
        exact absurd hy (hnew y)
      · rw [Function.update_of_ne hzx] at hz
        exact ho.apart y z v hy hz
  joined v u hu hj := by
    obtain ⟨rfl, rfl⟩ | ⟨-, hu⟩ := update_some hu
    · rw [hjoined] at hj
      cases hj
    · exact ho.joined v u hu hj

/-- **A worker is joined** that has come to its end. -/
theorem join (ho : Owned thread worker threads) (hx : thread x = some w)
    (hw : worker w = some wk) (hpc : wk.pc = .returned) :
    Owned (Function.update thread x none)
      (Function.update worker w (some { wk with joined := true })) threads where
  made := ho.made_update hw
  owned v := by
    by_cases hv : v = w
    · subst hv
      refine iff_of_false ?_ ?_
      · rintro ⟨u, hu, hj⟩
        rw [Function.update_self] at hu
        cases hu
        cases hj
      · rintro ⟨y, hy⟩
        by_cases hyx : y = x
        · rw [hyx, Function.update_self] at hy
          cases hy
        · rw [Function.update_of_ne hyx] at hy
          exact hyx (ho.apart y x v hy hx)
    · rw [unjoined_update_of_ne hv, ho.owned v]
      refine exists_congr (fun y => ?_)
      by_cases hyx : y = x
      · rw [hyx, Function.update_self, hx]
        exact iff_of_false (fun h => hv (Option.some.inj h).symm) (fun h => nomatch h)
      · rw [Function.update_of_ne hyx]
  apart y z v hy hz := by
    by_cases hyx : y = x
    · rw [hyx, Function.update_self] at hy
      cases hy
    · by_cases hzx : z = x
      · rw [hzx, Function.update_self] at hz
        cases hz
      · rw [Function.update_of_ne hyx] at hy
        rw [Function.update_of_ne hzx] at hz
        exact ho.apart y z v hy hz
  joined v u hu hj := by
    obtain ⟨rfl, rfl⟩ | ⟨-, hu⟩ := update_some hu
    · exact hpc
    · exact ho.joined v u hu hj

/-- **A worker is passed on** to a timer that has none. -/
theorem pass (ho : Owned thread worker threads) (hx : thread x = none) (hxy : x ≠ y) :
    Owned (Function.update (Function.update thread x (thread y)) y none) worker threads := by
  -- what `x` has now is what `y` had, and the others have what they had
  have hcases : ∀ z v, Function.update (Function.update thread x (thread y)) y none z = some v →
      z = x ∧ thread y = some v ∨ z ≠ x ∧ z ≠ y ∧ thread z = some v := by
    intro z v hz
    by_cases hzy : z = y
    · rw [hzy, Function.update_self] at hz
      cases hz
    · rw [Function.update_of_ne hzy] at hz
      by_cases hzx : z = x
      · rw [hzx, Function.update_self] at hz
        exact Or.inl ⟨hzx, hz⟩
      · rw [Function.update_of_ne hzx] at hz
        exact Or.inr ⟨hzx, hzy, hz⟩
  refine ⟨ho.made, fun v => ?_, fun z u v hz hu => ?_, ho.joined⟩
  · rw [ho.owned v]
    constructor
    · rintro ⟨z, hz⟩
      by_cases hzy : z = y
      · subst hzy
        exact ⟨x, by rw [Function.update_of_ne hxy, Function.update_self]; exact hz⟩
      · have hzx : z ≠ x := fun heq => by
          rw [heq, hx] at hz
          cases hz
        exact ⟨z, by rw [Function.update_of_ne hzy, Function.update_of_ne hzx]; exact hz⟩
    · rintro ⟨z, hz⟩
      obtain ⟨-, hz⟩ | ⟨-, -, hz⟩ := hcases z v hz
      · exact ⟨y, hz⟩
      · exact ⟨z, hz⟩
  · obtain ⟨hzx, hz⟩ | ⟨-, hzy, hz⟩ := hcases z v hz
    · obtain ⟨hux, -⟩ | ⟨-, huy, hu⟩ := hcases u v hu
      · rw [hzx, hux]
      · exact absurd (ho.apart y u v hz hu).symm huy
    · obtain ⟨-, hu⟩ | ⟨-, -, hu⟩ := hcases u v hu
      · exact absurd (ho.apart z y v hz hu) hzy
      · exact ho.apart z u v hz hu

end Owned

/-! ## What the log has of the workers -/

/-- **A callback runs only while its worker may**: when it is called and when it returns, the
worker has been started, and the call that ends it has not returned. -/
def Timely (log : List (Event ν)) : Prop :=
  History.Each (fun before e => ∀ w, e = .fires w ∨ e = .fired w →
    (∃ x d, .started w x d ∈ before) ∧ .ended w ∉ before) log

/-- An event that is not of a callback comes at any time. -/
theorem Timely.concat {log : List (Event ν)} {e : Event ν} (ht : Timely log)
    (he : ∀ w, e ≠ .fires w ∧ e ≠ .fired w) : Timely (log ++ [e]) :=
  (History.each_concat log e).mpr
    ⟨ht, fun w hw => hw.elim (fun h => absurd h (he w).1) (fun h => absurd h (he w).2)⟩

/-- An event is of a worker's callback, or of its end if it was joined. -/
def Event.Concerns (w : ℕ) (joined : Bool) : Event ν → Prop
  | .started _ _ _ => False
  | .fires v => v = w
  | .fired v => v = w
  | .ended v => v = w ∧ joined = true

variable [DecidableEq ν]

/-- **The log is that of the workers.** -/
structure Logged (worker : ℕ → Option (TimerWorker κ)) (log : List (Event ν)) : Prop where
  started : ∀ w wk, worker w = some wk → ∃ x, .started w x (some wk.delayNs) ∈ log
  delay : ∀ w x d, .started w x d ∈ log → ∃ wk, worker w = some wk ∧ d = some wk.delayNs
  begun : ∀ w, .fires w ∈ log → (worker w).isSome = true
  ended : ∀ w, .ended w ∈ log → ∃ wk, worker w = some wk ∧ wk.joined = true
  once : ∀ w wk, worker w = some wk → wk.mode = .oneShot →
    log.count (.fires w) ≤ 1 ∧ (wk.pc = .waiting → .fires w ∉ log)
  timely : Timely log

namespace Logged

variable {worker : ℕ → Option (TimerWorker κ)} {log : List (Event ν)} {w : ℕ}
  {wk wk' : TimerWorker κ} {x : ν}

/-- **Something happens to a worker** that is there already. -/
theorem write (hl : Logged worker log) (hw : worker w = some wk) (wk' : TimerWorker κ)
    (now : List (Event ν)) (hdelay : wk'.delayNs = wk.delayNs)
    (hjoined : wk.joined = true → wk'.joined = true)
    (hnow : ∀ e ∈ now, e.Concerns w wk'.joined)
    (honce : wk'.mode = .oneShot → (log ++ now).count (.fires w) ≤ 1
      ∧ (wk'.pc = .waiting → .fires w ∉ log ++ now))
    (htimely : Timely (log ++ now)) :
    Logged (Function.update worker w (some wk')) (log ++ now) where
  started v u hu := by
    obtain ⟨rfl, rfl⟩ | ⟨-, hu⟩ := Owned.update_some hu
    · obtain ⟨x, hx⟩ := hl.started v wk hw
      exact ⟨x, List.mem_append_left _ (hdelay ▸ hx)⟩
    · obtain ⟨x, hx⟩ := hl.started v u hu
      exact ⟨x, List.mem_append_left _ hx⟩
  delay v x d hd := by
    obtain ⟨u, hu, rfl⟩ := hl.delay v x d ((List.mem_append.mp hd).resolve_right (hnow _))
    by_cases hv : v = w
    · subst hv
      cases hw.symm.trans hu
      exact ⟨wk', Function.update_self _ _ _, by rw [hdelay]⟩
    · exact ⟨u, (Function.update_of_ne hv _ _).trans hu, rfl⟩
  begun v hv := by
    by_cases hvw : v = w
    · rw [hvw, Function.update_self]
      rfl
    · rw [Function.update_of_ne hvw]
      exact hl.begun v ((List.mem_append.mp hv).resolve_right (fun h => hvw (hnow _ h)))
  ended v hv := by
    by_cases hvw : v = w
    · subst hvw
      refine ⟨wk', Function.update_self _ _ _, ?_⟩
      obtain hv | hv := List.mem_append.mp hv
      · obtain ⟨u, hu, hj⟩ := hl.ended v hv
        cases hw.symm.trans hu
        exact hjoined hj
      · exact (hnow _ hv).2
    · rw [Function.update_of_ne hvw]
      exact hl.ended v ((List.mem_append.mp hv).resolve_right (fun h => hvw (hnow _ h).1))
  once v u hu hmode := by
    obtain ⟨rfl, rfl⟩ | ⟨hvw, hu⟩ := Owned.update_some hu
    · exact honce hmode
    · have hv : .fires v ∉ now := fun hv => hvw (hnow _ hv)
      obtain ⟨hcount, hwaiting⟩ := hl.once v u hu hmode
      rw [List.count_append, List.count_eq_zero.mpr hv]
      exact ⟨hcount, fun hpc hmem => (List.mem_append.mp hmem).elim (hwaiting hpc) hv⟩
  timely := htimely

/-- A worker is asked to stop, or finds that it was. -/
theorem quiet (hl : Logged worker log) (hw : worker w = some wk)
    (hdelay : wk'.delayNs = wk.delayNs) (hmode : wk'.mode = wk.mode)
    (hjoined : wk'.joined = wk.joined) (hpc : wk'.pc = .waiting → wk.pc = .waiting) :
    Logged (Function.update worker w (some wk')) log := by
  have hwrite := hl.write hw wk' [] hdelay (fun h => hjoined.trans h)
    (fun e he => absurd he List.not_mem_nil)
  rw [List.append_nil] at hwrite
  refine hwrite (fun h => ?_) hl.timely
  obtain ⟨hcount, hwaiting⟩ := hl.once w wk hw (hmode ▸ h)
  exact ⟨hcount, fun h => hwaiting (hpc h)⟩

/-- What is logged of a worker's callback is timely. -/
theorem timely_callback (hl : Logged worker log) (hw : worker w = some wk)
    (hjoined : wk.joined = false) {e : Event ν} (he : e = .fires w ∨ e = .fired w) :
    Timely (log ++ [e]) := by
  refine (History.each_concat log e).mpr ⟨hl.timely, fun v hv => ?_⟩
  have hvw : v = w := by
    obtain rfl | rfl := he <;> obtain h | h := hv <;> cases h <;> rfl
  subst hvw
  obtain ⟨x, hx⟩ := hl.started v wk hw
  refine ⟨⟨x, _, hx⟩, fun hended => ?_⟩
  obtain ⟨u, hu, hj⟩ := hl.ended v hended
  cases hw.symm.trans hu
  rw [hjoined] at hj
  cases hj

/-- **The callback is called.** -/
theorem fires (hl : Logged worker log) (hw : worker w = some wk) (hjoined : wk.joined = false)
    (hpc : wk.pc = .waiting) :
    Logged (Function.update worker w (some { wk with pc := .calling })) (log ++ [.fires w]) := by
  refine hl.write hw _ [.fires w] rfl id (fun e he => List.mem_singleton.mp he ▸ rfl)
    (fun hmode => ⟨?_, fun h => nomatch h⟩) (hl.timely_callback hw hjoined (Or.inl rfl))
  have hnone : log.count (.fires w) = 0 := List.count_eq_zero.mpr ((hl.once w wk hw hmode).2 hpc)
  have hone : (log ++ [Event.fires w]).count (Event.fires w) = 1 := by
    rw [List.count_append, hnone, List.count_singleton_self, Nat.zero_add]
  exact Nat.le_of_eq hone

/-- **The callback returns.** -/
theorem fired (hl : Logged worker log) (hw : worker w = some wk) (hjoined : wk.joined = false) :
    Logged (Function.update worker w (some wk.called)) (log ++ [.fired w]) := by
  refine hl.write hw _ [.fired w] rfl id (fun e he => List.mem_singleton.mp he ▸ rfl)
    (fun hmode => ⟨?_, fun h => ?_⟩) (hl.timely_callback hw hjoined (Or.inr rfl))
  · have hnot : Event.fires w ∉ ([.fired w] : List (Event ν)) := by simp
    rw [List.count_append, List.count_eq_zero.mpr hnot]
    exact (hl.once w wk hw hmode).1
  · -- the loop of a one-shot is at its end
    have hone : wk.mode = .oneShot := hmode
    rw [TimerWorker.called, hone] at h
    cases h

/-- **The worker is joined.** -/
theorem join (hl : Logged worker log) (hw : worker w = some wk) :
    Logged (Function.update worker w (some { wk with joined := true }))
      (log ++ [.ended w]) := by
  refine hl.write hw _ [.ended w] rfl (fun _ => rfl)
    (fun e he => List.mem_singleton.mp he ▸ ⟨rfl, rfl⟩)
    (fun hmode => ?_) (hl.timely.concat (fun v => ⟨nofun, nofun⟩))
  have hnot : Event.fires w ∉ ([.ended w] : List (Event ν)) := by simp
  rw [List.count_append, List.count_eq_zero.mpr hnot]
  obtain ⟨hcount, hwaiting⟩ := hl.once w wk hw hmode
  exact ⟨hcount, fun h hmem => (List.mem_append.mp hmem).elim (hwaiting h) hnot⟩

/-- **A worker is started.** -/
theorem spawn (hl : Logged worker log) (hw : worker w = none) :
    Logged (Function.update worker w (some wk')) (log ++ [.started w x (some wk'.delayNs)]) where
  started v u hu := by
    obtain ⟨rfl, rfl⟩ | ⟨-, hu⟩ := Owned.update_some hu
    · exact ⟨x, List.mem_append_right _ (List.mem_singleton_self _)⟩
    · obtain ⟨y, hy⟩ := hl.started v u hu
      exact ⟨y, List.mem_append_left _ hy⟩
  delay v y d hd := by
    obtain hd | hd := List.mem_append.mp hd
    · obtain ⟨u, hu, rfl⟩ := hl.delay v y d hd
      have hvw : v ≠ w := fun h => by
        rw [h, hw] at hu
        cases hu
      exact ⟨u, (Function.update_of_ne hvw _ _).trans hu, rfl⟩
    · cases List.mem_singleton.mp hd
      exact ⟨wk', Function.update_self _ _ _, rfl⟩
  begun v hv := by
    by_cases hvw : v = w
    · rw [hvw, Function.update_self]
      rfl
    · rw [Function.update_of_ne hvw]
      obtain hv | hv := List.mem_append.mp hv
      · exact hl.begun v hv
      · cases List.mem_singleton.mp hv
  ended v hv := by
    obtain hv | hv := List.mem_append.mp hv
    · obtain ⟨u, hu, hj⟩ := hl.ended v hv
      have hvw : v ≠ w := fun h => by
        rw [h, hw] at hu
        cases hu
      exact ⟨u, (Function.update_of_ne hvw _ _).trans hu, hj⟩
    · cases List.mem_singleton.mp hv
  once v u hu hmode := by
    have hnot : Event.fires v ∉ ([.started w x (some wk'.delayNs)] : List (Event ν)) := by simp
    rw [List.count_append, List.count_eq_zero.mpr hnot, List.mem_append, or_iff_left hnot]
    obtain ⟨rfl, rfl⟩ | ⟨-, hu⟩ := Owned.update_some hu
    · have hnone : Event.fires v ∉ log := fun hv => by
        have hsome := hl.begun v hv
        rw [hw] at hsome
        cases hsome
      rw [List.count_eq_zero.mpr hnone]
      exact ⟨Nat.zero_le 1, fun _ => hnone⟩
    · exact hl.once v u hu hmode
  timely := hl.timely.concat (fun v => ⟨nofun, nofun⟩)

end Logged

end Timers

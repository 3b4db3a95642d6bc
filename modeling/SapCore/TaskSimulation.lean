import Mathlib.Logic.Relation
import Mathlib.Data.List.Range
import SapCore.TaskMachine

/-!
# The machine computes what direct evaluation does

The proof goes by induction on the program. Of a statement (`Executes`): started with
anything left to do in the body and any calls of `resume` open, it comes to its end as
it does directly, with the same effects, and leaves every frame as it was. Of a task
(`Runs`): when control is transferred to it after it was created, it comes to the end of
its body as it does directly, and touches no frames but its own and those of its
parameters. Of the rest of a `when_all` (`RunsAll`) likewise.

What ties them together is one `co_await` (`awaits`): the continuation is stored, the
task runs, transfers back, and the outcome is taken out of its promise.
-/

namespace Async

variable {ω υ ξ : Type} {W : World ω υ}

/-- **Some steps of the machine.** -/
def Steps (W : World ω υ) : Config ω υ ξ → Config ω υ ξ → Prop :=
  Relation.ReflTransGen (fun c c' => c.step W = some c')

theorem Steps.refl (c : Config ω υ ξ) : Steps W c c := Relation.ReflTransGen.refl

theorem Steps.head {c c₁ c₂ : Config ω υ ξ} (hstep : c.step W = some c₁) (hsteps : Steps W c₁ c₂) :
    Steps W c c₂ :=
  Relation.ReflTransGen.head hstep hsteps

theorem Steps.trans {c c₁ c₂ : Config ω υ ξ} (h₁ : Steps W c c₁) (h₂ : Steps W c₁ c₂) :
    Steps W c c₂ :=
  Relation.ReflTransGen.trans h₁ h₂

/-! ## Frames -/

/-- The frames not created yet are not there. -/
def Heap.Fresh (H : Heap ω υ ξ) : Prop := ∀ i, H.next ≤ i → H.frame i = none

theorem Heap.fresh_empty : (Heap.empty : Heap ω υ ξ).Fresh := fun _ _ => rfl

variable {H H' : Heap ω υ ξ} {f g : Frame ω υ ξ} {r i lo hi task : ℕ}

theorem Heap.Fresh.lt (hfresh : H.Fresh) (hf : H.frame r = some f) : r < H.next := by
  by_contra hle
  rw [hfresh r (Nat.le_of_not_lt hle)] at hf
  cases hf

@[simp] theorem Heap.set_frame_self : (H.set r f).frame r = some f := Function.update_self _ _ _

theorem Heap.set_frame_of_ne (hne : i ≠ r) : (H.set r f).frame i = H.frame i :=
  Function.update_of_ne hne _ _

theorem Heap.Fresh.set (hfresh : H.Fresh) (hr : r < H.next) : (H.set r f).Fresh := by
  intro i hi
  have hi' : H.next ≤ i := hi
  rw [Heap.set_frame_of_ne (by omega)]
  exact hfresh i hi'

theorem Heap.Fresh.alloc (hfresh : H.Fresh) : (H.alloc f).2.Fresh := by
  intro i hi
  have hi' : H.next + 1 ≤ i := hi
  show Function.update H.frame H.next _ i = none
  rw [Function.update_of_ne (by omega)]
  exact hfresh i (by omega)

theorem Heap.Fresh.of_frame_eq (hfresh : H.Fresh) (hframe : H'.frame = H.frame)
    (hnext : H.next ≤ H'.next) : H'.Fresh := by
  intro i hi
  rw [hframe]
  exact hfresh i (Nat.le_trans hnext hi)

/-! ## Tasks that were created -/

mutual

/-- **A task is as it was created**, but for what its promise holds: its frame is `r`, and
those of its parameters begin with `lo`. -/
def Built (F : ℕ → Option (Frame ω υ ξ)) : Task ω υ ξ → Promise υ ξ → ℕ → ℕ → Prop
  | .call body, p, lo, r => lo = r ∧ F r = some ⟨p, false, .start body, []⟩
  | .whenAll tasks, p, lo, r =>
    ∃ ids, BuiltAll F tasks lo ids r
      ∧ F r = some ⟨p, false, .startAll ids, List.range' lo (r - lo)⟩

/-- The arguments of `when_all` are as they were created, in the frames from `lo` up to
`hi`. -/
def BuiltAll (F : ℕ → Option (Frame ω υ ξ)) : Pack ω υ ξ → ℕ → List ℕ → ℕ → Prop
  | .nil, lo, ids, hi => ids = [] ∧ lo = hi
  | .cons task tasks, lo, ids, hi =>
    ∃ id rest, ids = id :: rest ∧ Built F task .new lo id ∧ BuiltAll F tasks (id + 1) rest hi

end

variable {F F' : ℕ → Option (Frame ω υ ξ)} {p p' : Promise υ ξ}

mutual

theorem Built.le : ∀ {t : Task ω υ ξ} {p : Promise υ ξ} {lo r : ℕ}, Built F t p lo r → lo ≤ r
  | .call _, _, _, _, h => Nat.le_of_eq h.1
  | .whenAll _, _, _, _, h => by
    obtain ⟨ids, hall, -⟩ := h
    exact hall.le

theorem BuiltAll.le : ∀ {ts : Pack ω υ ξ} {lo hi : ℕ} {ids : List ℕ},
    BuiltAll F ts lo ids hi → lo ≤ hi
  | .nil, _, _, _, h => Nat.le_of_eq h.2
  | .cons _ _, _, _, _, h => by
    obtain ⟨id, rest, -, hbuilt, hall⟩ := h
    have hle := hbuilt.le
    have hle' := hall.le
    omega

end

mutual

/-- Only the frames of a task and of its parameters matter. -/
theorem Built.congr : ∀ {t : Task ω υ ξ} {p : Promise υ ξ} {lo r : ℕ}, Built F t p lo r →
    (∀ i, lo ≤ i → i ≤ r → F' i = F i) → Built F' t p lo r
  | .call _, _, _, r, h, hsame => ⟨h.1, (hsame r (Nat.le_of_eq h.1) (Nat.le_refl r)).trans h.2⟩
  | .whenAll _, _, _, r, h, hsame => by
    obtain ⟨ids, hall, hr⟩ := h
    refine ⟨ids, hall.congr (fun i hlo hi => hsame i hlo (Nat.le_of_lt hi)), ?_⟩
    exact (hsame r hall.le (Nat.le_refl r)).trans hr

theorem BuiltAll.congr : ∀ {ts : Pack ω υ ξ} {lo hi : ℕ} {ids : List ℕ},
    BuiltAll F ts lo ids hi → (∀ i, lo ≤ i → i < hi → F' i = F i) → BuiltAll F' ts lo ids hi
  | .nil, _, _, _, h, _ => h
  | .cons _ _, _, _, _, h, hsame => by
    obtain ⟨id, rest, hids, hbuilt, hall⟩ := h
    have hle := hbuilt.le
    have hle' := hall.le
    refine ⟨id, rest, hids, hbuilt.congr (fun i hlo hi => ?_), hall.congr (fun i hlo hi => ?_)⟩
    · exact hsame i hlo (by omega)
    · exact hsame i (by omega) hi

end

/-- The frame of a task that was created. -/
theorem Built.root {t : Task ω υ ξ} (h : Built F t p lo r) :
    ∃ code, F r = some ⟨p, false, code, List.range' lo (r - lo)⟩ ∧ code.done = false := by
  cases t with
  | call body =>
    obtain ⟨rfl, hr⟩ := h
    refine ⟨.start body, ?_, rfl⟩
    rw [hr, Nat.sub_self]
    rfl
  | whenAll tasks =>
    obtain ⟨ids, -, hr⟩ := h
    exact ⟨_, hr, rfl⟩

/-- The promise of a task that was created is written to. -/
theorem Built.setPromise {t : Task ω υ ξ} (h : Built F t p lo r)
    (hsame : ∀ i, lo ≤ i → i < r → F' i = F i)
    (hroot : ∀ f, F r = some f → F' r = some { f with promise := p' }) : Built F' t p' lo r := by
  cases t with
  | call body => exact ⟨h.1, hroot _ h.2⟩
  | whenAll tasks =>
    obtain ⟨ids, hall, hr⟩ := h
    exact ⟨ids, hall.congr hsame, hroot _ hr⟩

mutual

/-- **A task is created** in new frames. -/
theorem Task.create_spec : ∀ (t : Task ω υ ξ) {H : Heap ω υ ξ}, H.Fresh →
    Built (t.create H).2.frame t .new H.next (t.create H).1
      ∧ (t.create H).2.next = (t.create H).1 + 1 ∧ (t.create H).2.Fresh
      ∧ ∀ i, i < H.next → (t.create H).2.frame i = H.frame i
  | .call body, H, hfresh => by
    refine ⟨⟨rfl, Function.update_self _ _ _⟩, rfl, hfresh.alloc, fun i hi => ?_⟩
    exact Function.update_of_ne (Nat.ne_of_lt hi) _ _
  | .whenAll tasks, H, hfresh => by
    obtain ⟨hall, hfresh', hbelow⟩ := tasks.create_spec hfresh
    have hle := hall.le
    refine ⟨⟨(tasks.create H).1, hall.congr (fun i _ hi => ?_), Function.update_self _ _ _⟩, rfl,
      hfresh'.alloc, fun i hi => ?_⟩
    · exact Function.update_of_ne (Nat.ne_of_lt hi) _ _
    · rw [← hbelow i hi]
      exact Function.update_of_ne (Nat.ne_of_lt (Nat.lt_of_lt_of_le hi hle)) _ _

theorem Pack.create_spec : ∀ (ts : Pack ω υ ξ) {H : Heap ω υ ξ}, H.Fresh →
    BuiltAll (ts.create H).2.frame ts H.next (ts.create H).1 (ts.create H).2.next
      ∧ (ts.create H).2.Fresh ∧ ∀ i, i < H.next → (ts.create H).2.frame i = H.frame i
  | .nil, _, hfresh => ⟨⟨rfl, rfl⟩, hfresh, fun _ _ => rfl⟩
  | .cons task tasks, H, hfresh => by
    obtain ⟨hbuilt, hnext, hfresh₁, hbelow₁⟩ := task.create_spec hfresh
    obtain ⟨hall, hfresh₂, hbelow₂⟩ := tasks.create_spec hfresh₁
    have hle := hbuilt.le
    rw [hnext] at hall hbelow₂
    refine ⟨⟨_, _, rfl, hbuilt.congr (fun i _ hi => ?_), hall⟩, hfresh₂, fun i hi => ?_⟩
    · exact hbelow₂ i (by omega)
    · exact (hbelow₂ i (by omega)).trans (hbelow₁ i hi)

end

/-! ## What is proved of programs -/

/-- **A statement comes to its end as it does directly**, and leaves the frames as they
were. -/
def Executes (W : World ω υ) (s : Stmt ω υ ξ) : Prop :=
  ∀ (H : Heap ω υ ξ) (r : ℕ) (f : Frame ω υ ξ) (K : List (Ctx ω υ ξ)) (R : List (Resumer ω υ ξ))
    (released : Bool) (trace : List ω), H.Fresh → H.frame r = some f → f.code = .running →
    ∃ H', H'.frame = H.frame ∧ H.next ≤ H'.next
      ∧ Steps W ⟨H, .exec r s K, R, released, trace⟩
        ⟨H', .flow r (s.eval W trace).1 K, R, released, (s.eval W trace).2⟩

/-- **A task to which control is transferred comes to the end of its body as it does
directly**, and touches its own frames only. -/
def Runs (W : World ω υ) (t : Task ω υ ξ) : Prop :=
  ∀ (H : Heap ω υ ξ) (lo r : ℕ) (p : Promise υ ξ) (R : List (Resumer ω υ ξ)) (released : Bool)
    (trace : List ω), H.Fresh → Built H.frame t p lo r →
    ∃ H' f, H.next ≤ H'.next ∧ (∀ i, i < lo ∨ r < i → H'.frame i = H.frame i)
      ∧ H'.frame r = some ⟨p, false, .running, List.range' lo (r - lo)⟩
      ∧ f.outcome = (t.eval W trace).1
      ∧ Steps W ⟨H, .transfer (some r), R, released, trace⟩
        ⟨H', .flow r f [], R, released, (t.eval W trace).2⟩

/-- **The rest of a `when_all` comes to its end as it does directly.** -/
def RunsAll (W : World ω υ) (ts : Pack ω υ ξ) : Prop :=
  ∀ (H : Heap ω υ ξ) (lo hi r : ℕ) (ids : List ℕ) (g : Frame ω υ ξ) (got : List υ)
    (R : List (Resumer ω υ ξ)) (released : Bool) (trace : List ω),
    H.Fresh → BuiltAll H.frame ts lo ids hi → hi ≤ r → H.frame r = some g → g.code = .running →
    ∃ H' f, H.next ≤ H'.next ∧ (∀ i, i < lo ∨ hi ≤ i → H'.frame i = H.frame i)
      ∧ f.outcome = (ts.eval W got trace).1
      ∧ Steps W ⟨H, .pack r ids got [], R, released, trace⟩
        ⟨H', .flow r f [], R, released, (ts.eval W got trace).2⟩

/-! ## One `co_await` -/

section

variable {K : List (Ctx ω υ ξ)} {R : List (Resumer ω υ ξ)} {released temporary : Bool}
variable {trace : List ω} {o : Outcome υ ξ}

theorem Promise.outcome_store (hexc : p.exc = none) (o : Outcome υ ξ) :
    (p.store o).outcome = some o := by
  cases o with
  | value v =>
    unfold store outcome
    dsimp only
    rw [hexc]
  | exception e => rfl

theorem step_await (hf : H.frame task = some f) (hg : H.frame r = some g)
    (hdone : f.code.done = false) :
    Config.step W ⟨H, .await r task temporary K, R, released, trace⟩
      = some ⟨(H.set r { g with code := .awaiting task temporary K }).set task
          { f with promise := { f.promise with continuation := some r } },
        .transfer (some task), R, released, trace⟩ := by
  simp [Config.step, Config.await, hf, hg, hdone]

/-- A task that is not detached transfers control to its continuation. -/
theorem step_complete (hf : H.frame r = some f) (hwait : f.wait = false)
    (hdetached : f.promise.detached = false) (fl : Flow υ ξ) :
    Config.step W ⟨H, .flow r fl [], R, released, trace⟩
      = some ⟨H.set r (f.finish fl.outcome), .transfer f.promise.continuation, R, released, trace⟩ := by
  simp [Config.step, Config.flow, Config.complete, Config.finalSuspend, Config.go, Frame.finish, hf,
    hwait, hdetached]

/-- A coroutine goes on after its `co_await`. -/
theorem step_resume (hg : H.frame r = some g) (hcode : g.code = .awaiting task temporary K) :
    Config.step W ⟨H, .transfer (some r), R, released, trace⟩
      = Config.awaitResume ⟨H.set r { g with code := .running }, .transfer (some r), R, released, trace⟩
        r task temporary K := by
  simp [Config.step, Config.resume, hg, hcode]

theorem Heap.destroy_eq (hf : H.frame r = some f) :
    H.destroy r
      = some { H with frame := fun i => if i = r ∨ i ∈ f.params then none else H.frame i } := by
  simp [Heap.destroy, hf]

/-- The frames after a `co_await`: those of a temporary task are destroyed. -/
def Heap.leave (H : Heap ω υ ξ) (temporary : Bool) (task : ℕ) (params : List ℕ) : Heap ω υ ξ :=
  { H with frame := fun i => if temporary = true ∧ (i = task ∨ i ∈ params) then none else H.frame i }

/-- The outcome of a task is taken out of its promise. -/
theorem awaitResume_eq {control : Control ω υ ξ} (hf : H.frame task = some f)
    (ho : f.promise.outcome = some o) :
    Config.awaitResume ⟨H, control, R, released, trace⟩ r task temporary K
      = some ⟨H.leave temporary task f.params, .flow r (.ofOutcome o) K, R, released, trace⟩ := by
  cases temporary with
  | true => simp [Config.awaitResume, hf, ho, Heap.destroy_eq hf, Heap.leave]
  | false => simp [Config.awaitResume, hf, ho, Config.go, Heap.leave]

/-- The promise of a task that is awaited. -/
def Promise.awaitedBy (r : ℕ) : Promise υ ξ := { Promise.new with continuation := some r }

/-- **The first half of a `co_await`**: the continuation is stored, and the task runs to
the end of its body. -/
theorem Runs.awaited {t : Task ω υ ξ} (ht : Runs W t) (hfresh : H.Fresh)
    (hbuilt : Built H.frame t .new lo task) (hr : H.frame r = some g)
    (houtside : r < lo ∨ task < r) :
    ∃ H₁ fl, H.next ≤ H₁.next ∧ (∀ i, i ≠ r → i < lo ∨ task < i → H₁.frame i = H.frame i)
      ∧ H₁.frame r = some { g with code := .awaiting task temporary K }
      ∧ H₁.frame task = some ⟨.awaitedBy r, false, .running, List.range' lo (task - lo)⟩
      ∧ fl.outcome = (t.eval W trace).1
      ∧ Steps W ⟨H, .await r task temporary K, R, released, trace⟩
        ⟨H₁, .flow task fl [], R, released, (t.eval W trace).2⟩ := by
  obtain ⟨code, htask, hdone⟩ := hbuilt.root
  have hle := hbuilt.le
  have hne : r ≠ task := by omega
  let H₀ := (H.set r { g with code := .awaiting task temporary K }).set task
    ⟨.awaitedBy r, false, code, List.range' lo (task - lo)⟩
  have hH₀ : ∀ i, i ≠ r → i ≠ task → H₀.frame i = H.frame i := fun i hi hi' => by
    rw [Heap.set_frame_of_ne hi', Heap.set_frame_of_ne hi]
  have hfresh₀ : H₀.Fresh := (hfresh.set (hfresh.lt hr)).set (hfresh.lt htask)
  have hbuilt₀ : Built H₀.frame t (.awaitedBy r) lo task := by
    refine hbuilt.setPromise (fun i hlo hi => hH₀ i (by omega) (by omega)) (fun f hf => ?_)
    cases htask.symm.trans hf
    exact Heap.set_frame_self
  obtain ⟨H₁, fl, hnext, hsame, hself, hfl, hsteps⟩ := ht H₀ lo task _ R released trace hfresh₀ hbuilt₀
  refine ⟨H₁, fl, hnext, fun i hi hi' => ?_, ?_, hself, hfl, .head (step_await htask hr hdone) hsteps⟩
  · rw [hsame i hi', hH₀ i hi (by omega)]
  · rw [hsame r houtside, Heap.set_frame_of_ne hne, Heap.set_frame_self]

/-- **The second half**: the task transfers back, and its outcome is taken. -/
theorem takes_back {params : List ℕ} (hrunning : g.code = .running) (hne : r ≠ task)
    (hr : H.frame r = some { g with code := .awaiting task temporary K })
    (htask : H.frame task = some ⟨.awaitedBy r, false, .running, params⟩) (fl : Flow υ ξ) :
    ∃ f : Frame ω υ ξ, Steps W ⟨H, .flow task fl [], R, released, trace⟩
      ⟨((H.set task f).set r g).leave temporary task params, .flow r (.ofOutcome fl.outcome) K, R,
        released, trace⟩ := by
  let f : Frame ω υ ξ := Frame.finish ⟨.awaitedBy r, false, .running, params⟩ fl.outcome
  have hr' : (H.set task f).frame r = some { g with code := .awaiting task temporary K } := by
    rw [Heap.set_frame_of_ne hne, hr]
  have htask' : ((H.set task f).set r g).frame task = some f := by
    rw [Heap.set_frame_of_ne (Ne.symm hne), Heap.set_frame_self]
  have hrestore : { { g with code := .awaiting task temporary K } with code := .running } = g := by
    rw [← hrunning]
  refine ⟨f, .head (step_complete htask rfl rfl fl) (.head ?_ (.refl _))⟩
  refine (step_resume hr' rfl).trans ?_
  rw [hrestore]
  exact awaitResume_eq htask' (Promise.outcome_store rfl _)

/-- **A `co_await` has the outcome of the task.** The awaiting coroutine is none of the
task's frames; of these, nothing is left where the task was a temporary. -/
theorem Runs.awaits {t : Task ω υ ξ} (ht : Runs W t) (temporary : Bool) (K : List (Ctx ω υ ξ))
    (R : List (Resumer ω υ ξ)) (released : Bool) (trace : List ω) (hfresh : H.Fresh)
    (hbuilt : Built H.frame t .new lo task) (hr : H.frame r = some g) (hrunning : g.code = .running)
    (houtside : r < lo ∨ task < r) :
    ∃ H', H.next ≤ H'.next ∧ (∀ i, i < lo ∨ task < i → H'.frame i = H.frame i)
      ∧ (temporary = true → ∀ i, lo ≤ i → i ≤ task → H'.frame i = none)
      ∧ Steps W ⟨H, .await r task temporary K, R, released, trace⟩
        ⟨H', .flow r (.ofOutcome (t.eval W trace).1) K, R, released, (t.eval W trace).2⟩ := by
  have hle := hbuilt.le
  have hne : r ≠ task := by omega
  obtain ⟨H₁, fl, hnext, hsame, hself, htask, hfl, hsteps⟩ := ht.awaited hfresh hbuilt hr houtside
  obtain ⟨f, hback⟩ := takes_back hrunning hne hself htask fl
  rw [hfl] at hback
  refine ⟨((H₁.set task f).set r g).leave temporary task (List.range' lo (task - lo)), hnext,
    fun i hi => ?_, fun htemporary i hlo hi => ?_, hsteps.trans hback⟩
  · have hnot : ¬ (i = task ∨ i ∈ List.range' lo (task - lo)) := by
      rw [List.mem_range'_1]
      omega
    refine (if_neg (fun hand => hnot hand.2)).trans ?_
    by_cases hir : i = r
    · rw [hir, Heap.set_frame_self, hr]
    · rw [Heap.set_frame_of_ne hir, Heap.set_frame_of_ne (by omega), hsame i hir hi]
  · have hin : i = task ∨ i ∈ List.range' lo (task - lo) := by
      rw [List.mem_range'_1]
      omega
    exact if_pos ⟨htemporary, hin⟩

/-! ## Statements -/

theorem Executes.of_step {s : Stmt ω υ ξ}
    (hstep : ∀ (H : Heap ω υ ξ) r K R released trace,
      Config.step W ⟨H, .exec r s K, R, released, trace⟩
        = some ⟨H, .flow r (s.eval W trace).1 K, R, released, (s.eval W trace).2⟩) :
    Executes W s :=
  fun H r _ K R released trace _ _ _ =>
    ⟨H, rfl, Nat.le_refl _, .head (hstep H r K R released trace) (.refl _)⟩

theorem Executes.bind {first : Stmt ω υ ξ} {next : υ → Stmt ω υ ξ} (hfirst : Executes W first)
    (hnext : ∀ v, Executes W (next v)) : Executes W (.bind first next) := by
  intro H r f K R released trace hfresh hr hrunning
  obtain ⟨H₁, hframe, hle, hsteps⟩ := hfirst H r f (.bind next :: K) R released trace hfresh hr hrunning
  rw [Stmt.eval]
  cases heval : first.eval W trace with
  | mk fl trace' =>
    rw [heval] at hsteps
    cases fl with
    | next v =>
      have hr₁ : H₁.frame r = some f := by rw [hframe, hr]
      obtain ⟨H₂, hframe₂, hle₂, hsteps₂⟩ :=
        hnext v H₁ r f K R released trace' (hfresh.of_frame_eq hframe hle) hr₁ hrunning
      exact ⟨H₂, hframe₂.trans hframe, Nat.le_trans hle hle₂,
        .head rfl (hsteps.trans (.head rfl hsteps₂))⟩
    | ret v => exact ⟨H₁, hframe, hle, .head rfl (hsteps.trans (.head rfl (.refl _)))⟩
    | exc e => exact ⟨H₁, hframe, hle, .head rfl (hsteps.trans (.head rfl (.refl _)))⟩

theorem Executes.tryCatch {block : Stmt ω υ ξ} {handler : ξ → Stmt ω υ ξ} (hblock : Executes W block)
    (hhandler : ∀ e, Executes W (handler e)) : Executes W (.tryCatch block handler) := by
  intro H r f K R released trace hfresh hr hrunning
  obtain ⟨H₁, hframe, hle, hsteps⟩ :=
    hblock H r f (.catch handler :: K) R released trace hfresh hr hrunning
  rw [Stmt.eval]
  cases heval : block.eval W trace with
  | mk fl trace' =>
    rw [heval] at hsteps
    cases fl with
    | exc e =>
      have hr₁ : H₁.frame r = some f := by rw [hframe, hr]
      obtain ⟨H₂, hframe₂, hle₂, hsteps₂⟩ :=
        hhandler e H₁ r f K R released trace' (hfresh.of_frame_eq hframe hle) hr₁ hrunning
      exact ⟨H₂, hframe₂.trans hframe, Nat.le_trans hle hle₂,
        .head rfl (hsteps.trans (.head rfl hsteps₂))⟩
    | next v => exact ⟨H₁, hframe, hle, .head rfl (hsteps.trans (.head rfl (.refl _)))⟩
    | ret v => exact ⟨H₁, hframe, hle, .head rfl (hsteps.trans (.head rfl (.refl _)))⟩

/-- Frames that agree below what was created, and of what was created leave nothing, are
those there were. -/
theorem frame_eq_of_created {H₁ : Heap ω υ ξ} (hfresh : H.Fresh) (hfresh₁ : H₁.Fresh)
    (hnext : H₁.next = task + 1) (hbelow : ∀ i, i < H.next → H₁.frame i = H.frame i)
    (houtside : ∀ i, i < H.next ∨ task < i → H'.frame i = H₁.frame i)
    (hgone : ∀ i, H.next ≤ i → i ≤ task → H'.frame i = none) : H'.frame = H.frame := by
  funext i
  by_cases hi : i < H.next
  · rw [houtside i (Or.inl hi), hbelow i hi]
  · rw [hfresh i (Nat.le_of_not_lt hi)]
    by_cases hi' : i ≤ task
    · exact hgone i (Nat.le_of_not_lt hi) hi'
    · rw [houtside i (Or.inr (Nat.lt_of_not_le hi'))]
      exact hfresh₁ i (by omega)

theorem Executes.coAwait {t : Task ω υ ξ} (ht : Runs W t) : Executes W (.coAwait t) := by
  intro H r f K R released trace hfresh hr hrunning
  obtain ⟨hbuilt, hnext, hfresh₁, hbelow⟩ := t.create_spec hfresh
  have hlt := hfresh.lt hr
  have hle := hbuilt.le
  have hr₁ : (t.create H).2.frame r = some f := (hbelow r hlt).trans hr
  obtain ⟨H', hle', houtside, hgone, hsteps⟩ :=
    ht.awaits true K R released trace hfresh₁ hbuilt hr₁ hrunning (Or.inl hlt)
  refine ⟨H', ?_, by omega, .head rfl hsteps⟩
  exact frame_eq_of_created hfresh hfresh₁ hnext hbelow houtside (hgone rfl)

/-- The promise of a task that is detached. -/
def Promise.detachedNew : Promise υ ξ := { Promise.new with detached := true }

/-- A detached task destroys its frame. -/
theorem step_complete_detached {params : List ℕ}
    (hf : H.frame r = some ⟨.detachedNew, false, .running, params⟩) (fl : Flow υ ξ) :
    ∃ f : Frame ω υ ξ, Config.step W ⟨H, .flow r fl [], R, released, trace⟩
      = some ⟨(H.set r f).leave true r params, .transfer none, R, released, trace⟩ := by
  refine ⟨Frame.finish ⟨.detachedNew, false, .running, params⟩ fl.outcome, ?_⟩
  simp [Config.step, Config.flow, Config.complete, Config.finalSuspend, Frame.finish,
    Promise.detachedNew, Heap.destroy, Heap.leave, hf]

theorem step_detach {t : Task ω υ ξ} (hf : (t.create H).2.frame (t.create H).1 = some f) :
    Config.step W ⟨H, .exec r (.detach t) K, R, released, trace⟩
      = some ⟨(t.create H).2.set (t.create H).1 { f with promise := { f.promise with detached := true } },
        .transfer (some (t.create H).1), .detach r K :: R, released, trace⟩ := by
  simp [Config.step, Config.exec, hf]

theorem Executes.detach {t : Task ω υ ξ} (ht : Runs W t) : Executes W (.detach t) := by
  intro H r g K R released trace hfresh hr hrunning
  obtain ⟨hbuilt, hnext, hfresh₁, hbelow⟩ := t.create_spec hfresh
  obtain ⟨code, htask, -⟩ := hbuilt.root
  have hle := hbuilt.le
  let H₂ := (t.create H).2.set (t.create H).1
    ⟨.detachedNew, false, code, List.range' H.next ((t.create H).1 - H.next)⟩
  have hbuilt₂ : Built H₂.frame t .detachedNew H.next (t.create H).1 := by
    refine hbuilt.setPromise (fun i _ hi => Heap.set_frame_of_ne (Nat.ne_of_lt hi)) (fun f hf => ?_)
    cases htask.symm.trans hf
    exact Heap.set_frame_self
  obtain ⟨H₃, fl, hle₃, hsame, hself, -, hsteps⟩ :=
    ht H₂ _ _ _ (.detach r K :: R) released trace (hfresh₁.set (by omega)) hbuilt₂
  obtain ⟨f, hcomplete⟩ := step_complete_detached hself fl
  have hle₂ : (t.create H).2.next ≤ H₃.next := hle₃
  refine ⟨(H₃.set (t.create H).1 f).leave true (t.create H).1
      (List.range' H.next ((t.create H).1 - H.next)), ?_, ?_,
    .head (step_detach htask) (hsteps.trans (.head hcomplete (.head rfl (.refl _))))⟩
  · refine frame_eq_of_created hfresh hfresh₁ hnext hbelow (fun i hi => ?_) (fun i hlo hi => ?_)
    · have hnot : ¬ (i = (t.create H).1
          ∨ i ∈ List.range' H.next ((t.create H).1 - H.next)) := by
        rw [List.mem_range'_1]
        omega
      refine (if_neg (fun hand => hnot hand.2)).trans ?_
      rw [Heap.set_frame_of_ne (by omega), hsame i hi, Heap.set_frame_of_ne (by omega)]
    · refine if_pos ⟨rfl, ?_⟩
      rw [List.mem_range'_1]
      omega
  · show H.next ≤ H₃.next
    omega

/-! ## Tasks -/

theorem Runs.call {body : Stmt ω υ ξ} (hbody : Executes W body) : Runs W (.call body) := by
  intro H lo r p R released trace hfresh hbuilt
  obtain ⟨rfl, hr⟩ := hbuilt
  have hstep : Config.step W ⟨H, .transfer (some lo), R, released, trace⟩
      = some ⟨H.set lo ⟨p, false, .running, []⟩, .exec lo body [], R, released, trace⟩ := by
    simp [Config.step, Config.resume, Config.go, hr]
  obtain ⟨H', hframe, hle, hsteps⟩ := hbody (H.set lo ⟨p, false, .running, []⟩) lo _ [] R released
    trace (hfresh.set (hfresh.lt hr)) Heap.set_frame_self rfl
  refine ⟨H', (body.eval W trace).1, hle, fun i hi => ?_, ?_, rfl, .head hstep hsteps⟩
  · rw [hframe, Heap.set_frame_of_ne (by omega)]
  · rw [hframe, Heap.set_frame_self, Nat.sub_self]
    rfl

theorem Runs.whenAll {ts : Pack ω υ ξ} (hts : RunsAll W ts) : Runs W (.whenAll ts) := by
  intro H lo r p R released trace hfresh hbuilt
  obtain ⟨ids, hall, hr⟩ := hbuilt
  have hle := hall.le
  let H₁ := H.set r ⟨p, false, .running, List.range' lo (r - lo)⟩
  have hstep : Config.step W ⟨H, .transfer (some r), R, released, trace⟩
      = some ⟨H₁, .pack r ids [] [], R, released, trace⟩ := by
    simp [Config.step, Config.resume, Config.go, hr, H₁]
  have hall₁ : BuiltAll H₁.frame ts lo ids r :=
    hall.congr (fun i _ hi => Heap.set_frame_of_ne (Nat.ne_of_lt hi))
  obtain ⟨H', fl, hle', hsame, hfl, hsteps⟩ := hts H₁ lo r r ids _ [] R released trace
    (hfresh.set (hfresh.lt hr)) hall₁ (Nat.le_refl r) Heap.set_frame_self rfl
  refine ⟨H', fl, hle', fun i hi => ?_, ?_, hfl, .head hstep hsteps⟩
  · rw [hsame i (by omega), Heap.set_frame_of_ne (by omega)]
  · rw [hsame r (Or.inr (Nat.le_refl r)), Heap.set_frame_self]

theorem RunsAll.nil : RunsAll W (.nil : Pack ω υ ξ) := by
  intro H lo hi r ids g got R released trace hfresh hall hle hr hrunning
  obtain ⟨rfl, rfl⟩ := hall
  exact ⟨H, .ret (W.tuple got), Nat.le_refl _, fun _ _ => rfl, rfl, .head rfl (.refl _)⟩

theorem RunsAll.cons {t : Task ω υ ξ} {ts : Pack ω υ ξ} (ht : Runs W t) (hts : RunsAll W ts) :
    RunsAll W (.cons t ts) := by
  intro H lo hi r ids g got R released trace hfresh hall hle hr hrunning
  obtain ⟨id, rest, rfl, hbuilt, hrest⟩ := hall
  have hlo := hbuilt.le
  have hhi := hrest.le
  obtain ⟨H₁, hle₁, hsame₁, -, hsteps₁⟩ := ht.awaits false [.all rest got] R released trace hfresh
    hbuilt hr hrunning (Or.inr (by omega))
  rw [Pack.eval]
  cases heval : t.eval W trace with
  | mk o trace' =>
    rw [heval] at hsteps₁
    cases o with
    | exception e =>
      refine ⟨H₁, .exc e, hle₁, fun i hi => hsame₁ i (by omega), rfl, ?_⟩
      exact .head rfl (hsteps₁.trans (.head rfl (.refl _)))
    | value v =>
      have hfresh₁ : H₁.Fresh := by
        intro i hi
        have hlt := hfresh.lt hr
        rw [hsame₁ i (by omega)]
        exact hfresh i (by omega)
      have hrest₁ : BuiltAll H₁.frame ts (id + 1) rest hi :=
        hrest.congr (fun i hlo' _ => hsame₁ i (by omega))
      have hr₁ : H₁.frame r = some g := (hsame₁ r (by omega)).trans hr
      obtain ⟨H₂, fl, hle₂, hsame₂, hfl, hsteps₂⟩ := hts H₁ (id + 1) hi r rest g (got ++ [v]) R
        released trace' hfresh₁ hrest₁ hle hr₁ hrunning
      refine ⟨H₂, fl, Nat.le_trans hle₁ hle₂, fun i hi => ?_, hfl, ?_⟩
      · rw [hsame₂ i (by omega), hsame₁ i (by omega)]
      · exact .head rfl (hsteps₁.trans (.head rfl hsteps₂))

end

/-! ## Every program -/

mutual

theorem executes (W : World ω υ) : ∀ s : Stmt ω υ ξ, Executes W s
  | .value _ => .of_step (fun _ _ _ _ _ _ => rfl)
  | .coReturn _ => .of_step (fun _ _ _ _ _ _ => rfl)
  | .throw _ => .of_step (fun _ _ _ _ _ _ => rfl)
  | .effect _ => .of_step (fun _ _ _ _ _ _ => rfl)
  | .bind first next => .bind (executes W first) (fun v => executes W (next v))
  | .tryCatch block handler => .tryCatch (executes W block) (fun e => executes W (handler e))
  | .coAwait task => .coAwait (runs W task)
  | .detach task => .detach (runs W task)

theorem runs (W : World ω υ) : ∀ t : Task ω υ ξ, Runs W t
  | .call body => .call (executes W body)
  | .whenAll tasks => .whenAll (runsAll W tasks)

theorem runsAll (W : World ω υ) : ∀ ts : Pack ω υ ξ, RunsAll W ts
  | .nil => .nil
  | .cons task tasks => .cons (runs W task) (runsAll W tasks)

end

/-! ## `sync_wait` -/

/-- The end of the runner's body releases the semaphore, and `sync_wait` takes the
outcome. -/
theorem steps_acquire (hr : H.frame r = some ⟨.new, true, .running, []⟩) (fl : Flow υ ξ)
    (trace : List ω) :
    ∃ H', Steps W ⟨H, .flow r fl [], [.syncWait r], false, trace⟩
      ⟨H', .returned fl.outcome, [], false, trace⟩ := by
  let f : Frame ω υ ξ := Frame.finish ⟨.new, true, .running, []⟩ fl.outcome
  have hcomplete : Config.step W ⟨H, .flow r fl [], [.syncWait r], false, trace⟩
      = some ⟨H.set r f, .transfer none, [.syncWait r], true, trace⟩ := by
    simp [Config.step, Config.flow, Config.complete, Config.finalSuspend, Frame.finish, hr, f]
  have houtcome : f.promise.outcome = some fl.outcome := Promise.outcome_store rfl _
  have hacquire : Config.step W ⟨H.set r f, .acquire r, [], true, trace⟩
      = some ⟨H.set r f, .returned fl.outcome, [], false, trace⟩ := by
    simp [Config.step, Config.acquire, houtcome]
  exact ⟨H.set r f, .head hcomplete (.head rfl (.head hacquire (.refl _)))⟩

/-- The runner returns what it awaited, or lets the exception pass. -/
theorem steps_runner (hr : H.frame r = some ⟨.new, true, .running, []⟩) (o : Outcome υ ξ)
    (trace : List ω) :
    ∃ H', Steps W ⟨H, .flow r (.ofOutcome o) [.bind .coReturn], [.syncWait r], false, trace⟩
      ⟨H', .returned o, [], false, trace⟩ := by
  cases o with
  | value v =>
    obtain ⟨H', hsteps⟩ := steps_acquire (W := W) hr (.ret v) trace
    exact ⟨H', .head rfl (.head rfl hsteps)⟩
  | exception e =>
    obtain ⟨H', hsteps⟩ := steps_acquire (W := W) hr (.exc e) trace
    exact ⟨H', .head rfl hsteps⟩

theorem step_startWait {R : List (Resumer ω υ ξ)} {released : Bool} {trace : List ω}
    (hr : H.frame r = some (runner task)) :
    Config.step W ⟨H, .transfer (some r), R, released, trace⟩
      = some ⟨H.set r ⟨.new, true, .running, []⟩, .await r task false [.bind .coReturn], R, released,
        trace⟩ := by
  simp [Config.step, Config.resume, Config.go, runner, hr]

/-- **The machine comes to the end of `sync_wait`**, with what direct evaluation gives. -/
theorem steps_start (W : World ω υ) (t : Task ω υ ξ) :
    ∃ H, Steps W (start t) ⟨H, .returned (t.eval W []).1, [], false, (t.eval W []).2⟩ := by
  obtain ⟨hbuilt, hnext, hfresh, -⟩ := t.create_spec (H := Heap.empty) Heap.fresh_empty
  let r := (t.create Heap.empty).2.next
  let H₀ := ((t.create Heap.empty).2.alloc (runner (t.create Heap.empty).1)).2
  let H₁ := H₀.set r ⟨.new, true, .running, []⟩
  have hr₀ : H₀.frame r = some (runner (t.create Heap.empty).1) := Function.update_self _ _ _
  have hsame : ∀ i, i < r → H₁.frame i = (t.create Heap.empty).2.frame i := fun i hi => by
    rw [Heap.set_frame_of_ne (Nat.ne_of_lt hi)]
    exact Function.update_of_ne (Nat.ne_of_lt hi) _ _
  have hbuilt₁ : Built H₁.frame t .new 0 (t.create Heap.empty).1 :=
    hbuilt.congr (fun i _ hi => hsame i (by omega))
  have hfresh₁ : H₁.Fresh := hfresh.alloc.set (hfresh.alloc.lt hr₀)
  obtain ⟨H₂, -, hsame₂, -, hsteps⟩ := (runs W t).awaits false [.bind .coReturn] [.syncWait r] false []
    hfresh₁ hbuilt₁ Heap.set_frame_self rfl (Or.inr (by omega))
  have hr₂ : H₂.frame r = some ⟨.new, true, .running, []⟩ := by
    rw [hsame₂ r (Or.inr (by omega))]
    exact Heap.set_frame_self
  obtain ⟨H₃, hend⟩ := steps_runner hr₂ (t.eval W []).1 (t.eval W []).2
  exact ⟨H₃, .head (step_startWait hr₀) (hsteps.trans hend)⟩

/-- Enough fuel for some steps to the end. -/
theorem run_of_steps {c c' : Config ω υ ξ} {o : Outcome υ ξ} (hsteps : Steps W c c')
    (hreturned : c'.control = .returned o) :
    ∃ fuel, ∀ more, c.run W (fuel + more) = some (o, c'.trace) := by
  induction hsteps using Relation.ReflTransGen.head_induction_on with
  | refl =>
    refine ⟨1, fun more => ?_⟩
    rw [Nat.add_comm, Config.run, hreturned]
  | @head c c₁ hstep _ ih =>
    obtain ⟨fuel, hfuel⟩ := ih
    refine ⟨fuel + 1, fun more => ?_⟩
    rw [Nat.add_right_comm, Config.run]
    split
    · rename_i o' hcontrol
      unfold Config.step at hstep
      rw [hcontrol] at hstep
      cases hstep
    · rw [hstep]
      exact hfuel more

/-- **`sync_wait` terminates, performs the effects of direct evaluation in their order, and
returns its value or rethrows its exception**, for every program of tasks. -/
theorem syncWait_eq_eval (W : World ω υ) (t : Task ω υ ξ) :
    ∃ fuel, ∀ more, syncWait W (fuel + more) t = some (t.eval W []) := by
  obtain ⟨H, hsteps⟩ := steps_start W t
  exact run_of_steps hsteps rfl

end Async

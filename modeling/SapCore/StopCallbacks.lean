import Mathlib.Algebra.GroupWithZero.Nat
import Mathlib.Algebra.Order.BigOperators.Group.List
import Mathlib.Algebra.Order.Group.Nat
import Mathlib.Data.List.Perm.Basic
import SapCore.StopState

/-!
# Stop callbacks

A stop fires the callbacks that are registered, and the callbacks are free to use
the stop state they are called from: to destroy nodes, the ones still waiting
among them, to arm others, and to request the stop again. The loop of
`request_stop` therefore takes the node at the head afresh at every turn.

Such code is a finite program (`Prog`) of calls, each of which may go on
differently with what the last one returned, and arms nodes with programs of
their own. A run is its execution, one step at a time, with a stack of the code
and of the loops that are interrupted by a callback.
-/

namespace StopState

/-- **Code that uses a stop state**: a callback, or a whole run. A node is armed
with a function, or with none. -/
inductive Prog (ν : Type*) where
  | done
  | destroy (cb : ν) (rest : Prog ν)
  | arm (cb : ν) (fn : Prog ν) (rest : Bool → Prog ν)
  | armNull (cb : ν) (rest : Bool → Prog ν)
  | requestStop (rest : Bool → Prog ν)

/-- What is on the stack: code, and the loop of a call of `request_stop`, with the
number of the call. -/
inductive Frame (ν : Type*) where
  | code (p : Prog ν)
  | loop (call : ℕ)

/-- **A run**: the stop state and the stack, and the history – the nodes that were
armed, the last one first, those the loop has fired, in order, those that fired at
once when they were armed, those destroyed, the number of calls of `request_stop`
and what they have returned. A null function fires as well, as nothing. -/
structure Run (ν : Type*) where
  stop : StopState ν (Prog ν)
  stack : List (Frame ν)
  armed : List ν
  fired : List ν
  immediate : List ν
  destroyed : List ν
  requests : ℕ
  returned : List (ℕ × Bool)

namespace Run

variable {ν : Type*}

/-- The run of a program, before its first call. -/
def start (p : Prog ν) : Run ν := ⟨.new, [.code p], [], [], [], [], 0, []⟩

/-- The code of a function, on top of the stack; a null function has none. -/
def call (fn : Option (Prog ν)) (stack : List (Frame ν)) : List (Frame ν) :=
  match fn with
  | some p => .code p :: stack
  | none => stack

/-- The calls of `request_stop` whose loops are on the stack. -/
def loops : List (Frame ν) → List ℕ :=
  List.filterMap (fun frame => match frame with
    | .loop number => some number
    | .code _ => none)

@[simp] theorem loops_code (p : Prog ν) (frames : List (Frame ν)) :
    loops (.code p :: frames) = loops frames := rfl

@[simp] theorem loops_loop (number : ℕ) (frames : List (Frame ν)) :
    loops (.loop number :: frames) = number :: loops frames := rfl

@[simp] theorem loops_call (fn : Option (Prog ν)) (frames : List (Frame ν)) :
    loops (call fn frames) = loops frames := by
  cases fn with
  | none => rfl
  | some p => rfl

variable [DecidableEq ν]

/-- `_arm`, with the rest of the code. -/
def arm (s : Run ν) (cb : ν) (fn : Option (Prog ν)) (rest : Bool → Prog ν)
    (frames : List (Frame ν)) : Run ν :=
  match s.stop.arm cb fn with
  | (stop, true) =>
    { s with
      stop := stop
      stack := call fn (.code (rest true) :: frames)
      armed := cb :: s.armed
      immediate := s.immediate ++ [cb] }
  | (stop, false) =>
    { s with
      stop := stop
      stack := .code (rest false) :: frames
      armed := cb :: s.armed }

/-- `request_stop`, up to its loop, with the rest of the code. -/
def requestStop (s : Run ν) (rest : Bool → Prog ν) (frames : List (Frame ν)) : Run ν :=
  if s.stop.stopped then
    { s with
      stack := .code (rest false) :: frames
      requests := s.requests + 1
      returned := s.returned ++ [(s.requests, false)] }
  else
    { s with
      stop := { s.stop with stopped := true }
      stack := .loop s.requests :: .code (rest true) :: frames
      requests := s.requests + 1 }

/-- A turn of the loop of `request_stop`, or its end. -/
def turn (s : Run ν) (number : ℕ) (frames : List (Frame ν)) : Run ν :=
  match s.stop.unlinkHead with
  | some (cb, stop) =>
    { s with
      stop := stop
      stack := call (stop.fn cb) (.loop number :: frames)
      fired := s.fired ++ [cb] }
  | none =>
    { s with
      stack := frames
      returned := s.returned ++ [(number, true)] }

/-- **One step of a run.** A run that has come to its end stays there. -/
def step (s : Run ν) : Run ν :=
  match s.stack with
  | [] => s
  | .code .done :: frames => { s with stack := frames }
  | .code (.destroy cb rest) :: frames =>
    { s with
      stop := s.stop.destroy cb
      stack := .code rest :: frames
      destroyed := cb :: s.destroyed }
  | .code (.arm cb fn rest) :: frames => s.arm cb (some fn) rest frames
  | .code (.armNull cb rest) :: frames => s.arm cb none rest frames
  | .code (.requestStop rest) :: frames => s.requestStop rest frames
  | .loop number :: frames => s.turn number frames

/-- The run of a program, after some steps. -/
def after (p : Prog ν) : ℕ → Run ν
  | 0 => start p
  | k + 1 => (after p k).step

/-- The call on top of the stack arms a node that was not armed before, and does
nothing with one that was destroyed. -/
def AllowedCall (armed destroyed : List ν) : List (Frame ν) → Prop
  | .code (.arm cb _ _) :: _ => cb ∉ armed ∧ cb ∉ destroyed
  | .code (.armNull cb _) :: _ => cb ∉ armed ∧ cb ∉ destroyed
  | .code (.destroy cb _) :: _ => cb ∉ destroyed
  | _ => True

/-- **The next call is allowed.** -/
def Allowed (s : Run ν) : Prop := AllowedCall s.armed s.destroyed s.stack

instance (armed destroyed : List ν) (stack : List (Frame ν)) :
    Decidable (AllowedCall armed destroyed stack) :=
  match stack with
  | .code (.arm cb _ _) :: _ => inferInstanceAs (Decidable (cb ∉ armed ∧ cb ∉ destroyed))
  | .code (.armNull cb _) :: _ => inferInstanceAs (Decidable (cb ∉ armed ∧ cb ∉ destroyed))
  | .code (.destroy cb _) :: _ => inferInstanceAs (Decidable (cb ∉ destroyed))
  | .code .done :: _ => inferInstanceAs (Decidable True)
  | .code (.requestStop _) :: _ => inferInstanceAs (Decidable True)
  | .loop _ :: _ => inferInstanceAs (Decidable True)
  | [] => inferInstanceAs (Decidable True)

instance (s : Run ν) : Decidable s.Allowed :=
  inferInstanceAs (Decidable (AllowedCall s.armed s.destroyed s.stack))

/-- The nodes that were armed and have neither fired nor been destroyed, the last
one armed first. -/
def waiting (s : Run ν) : List ν :=
  s.armed.filter (fun n => n ∉ s.fired ∧ n ∉ s.immediate ∧ n ∉ s.destroyed)

variable {s : Run ν} {cb : ν} {frames : List (Frame ν)}

/-! ## The nodes that wait -/

theorem mem_waiting {n : ν} :
    n ∈ s.waiting ↔ n ∈ s.armed ∧ n ∉ s.fired ∧ n ∉ s.immediate ∧ n ∉ s.destroyed := by
  unfold waiting
  rw [List.mem_filter, decide_eq_true_eq]

/-- A node fired or destroyed no longer waits. -/
theorem waiting_without (cb : ν) (hnodup : s.armed.Nodup) {s' : Run ν} (harmed : s'.armed = s.armed)
    (himmediate : s'.immediate = s.immediate)
    (hgone : ∀ n, (n ∉ s'.fired ∧ n ∉ s'.destroyed) ↔ (n ∉ s.fired ∧ n ∉ s.destroyed) ∧ n ≠ cb) :
    s'.waiting = s.waiting.erase cb := by
  unfold waiting
  rw [(hnodup.filter _).erase_eq_filter, List.filter_filter, harmed, himmediate]
  refine List.filter_congr (fun n _ => ?_)
  have hn := hgone n
  simp only [Bool.decide_and]
  grind

/-! ## The invariant -/

/-- **What holds in every run**: the stop state holds the nodes that wait; the loop
has fired a part of the nodes in the order in which they were listed, and none
twice; every call of `request_stop` has returned or is in its loop, the first one
only; and when that has returned nothing waits. -/
structure Inv (s : Run ν) : Prop where
  holds : s.stop.Holds s.waiting
  armed_nodup : s.armed.Nodup
  order : (s.fired ++ s.waiting).Sublist s.armed
  once : (s.fired ++ s.immediate).Nodup
  immediate_armed : ∀ n ∈ s.immediate, n ∈ s.armed
  calls : (s.returned.map Prod.fst ++ loops s.stack).Perm (List.range s.requests)
  loops_eq : ∀ number ∈ loops s.stack, number = 0
  results : ∀ r ∈ s.returned, r.2 = true ↔ r.1 = 0
  stopped_iff : s.stop.stopped = true ↔ 0 < s.requests
  unstopped : s.stop.stopped = false → s.fired = [] ∧ s.immediate = []
  emptied : (0, true) ∈ s.returned → s.waiting = []

theorem inv_start (p : Prog ν) : Inv (start p) where
  holds := holds_new
  armed_nodup := List.nodup_nil
  order := List.Sublist.refl _
  once := List.nodup_nil
  immediate_armed _ hmem := absurd hmem (List.not_mem_nil)
  calls := List.Perm.refl _
  loops_eq _ hmem := absurd hmem (List.not_mem_nil)
  results _ hmem := absurd hmem (List.not_mem_nil)
  stopped_iff := by simp [start, StopState.new]
  unstopped _ := ⟨rfl, rfl⟩
  emptied _ := rfl

theorem Inv.fired_armed (hs : Inv s) {n : ν} (hn : n ∈ s.fired) : n ∈ s.armed :=
  hs.order.subset (List.mem_append_left _ hn)

/-- Before the stop no call of `request_stop` was made. -/
theorem Inv.requests_eq (hs : Inv s) (hstopped : s.stop.stopped = false) : s.requests = 0 := by
  have hiff := hs.stopped_iff
  rw [hstopped] at hiff
  simpa using hiff

/-- What a step of the code alone keeps. -/
theorem Inv.setStack (hs : Inv s) {stack : List (Frame ν)} (hloops : loops stack = loops s.stack) :
    Inv { s with stack := stack } where
  holds := hs.holds
  armed_nodup := hs.armed_nodup
  order := hs.order
  once := hs.once
  immediate_armed := hs.immediate_armed
  calls := by
    show (_ ++ loops stack).Perm _
    rw [hloops]
    exact hs.calls
  loops_eq := by
    show ∀ number ∈ loops stack, number = 0
    rw [hloops]
    exact hs.loops_eq
  results := hs.results
  stopped_iff := hs.stopped_iff
  unstopped := hs.unstopped
  emptied := hs.emptied

theorem waiting_destroy (hs : Inv s) (cb : ν) :
    waiting { s with stop := s.stop.destroy cb, destroyed := cb :: s.destroyed }
      = s.waiting.erase cb :=
  waiting_without cb hs.armed_nodup rfl rfl (fun n => by simp only [List.mem_cons]; tauto)

theorem Inv.destroy (hs : Inv s) (cb : ν) :
    Inv { s with stop := s.stop.destroy cb, destroyed := cb :: s.destroyed } := by
  have hwaiting := waiting_destroy hs cb
  have hstopped : (s.stop.destroy cb).stopped = s.stop.stopped := by
    unfold StopState.destroy
    split
    · rfl
    · rfl
  exact {
    hs with
    holds := by
      rw [hwaiting]
      exact hs.holds.destroy cb
    order := by
      rw [hwaiting]
      exact (List.Sublist.append_left List.erase_sublist s.fired).trans hs.order
    stopped_iff := by
      show (s.stop.destroy cb).stopped = true ↔ _
      rw [hstopped]
      exact hs.stopped_iff
    unstopped := by
      show (s.stop.destroy cb).stopped = false → _
      rw [hstopped]
      exact hs.unstopped
    emptied := fun hmem => by
      rw [hwaiting, hs.emptied hmem]
      rfl }

/-- Arming a node after the stop: it fires at once. -/
theorem arm_of_stopped (hstopped : s.stop.stopped = true) (cb : ν) (fn : Option (Prog ν))
    (rest : Bool → Prog ν) (frames : List (Frame ν)) :
    s.arm cb fn rest frames
      = { s with
          stop := { s.stop with fn := Function.update s.stop.fn cb fn }
          stack := call fn (.code (rest true) :: frames)
          armed := cb :: s.armed
          immediate := s.immediate ++ [cb] } := by
  unfold arm StopState.arm
  simp [hstopped]

/-- Arming a node before the stop: it is linked. -/
theorem arm_of_not_stopped (hstopped : s.stop.stopped = false) (cb : ν) (fn : Option (Prog ν))
    (rest : Bool → Prog ν) (frames : List (Frame ν)) :
    s.arm cb fn rest frames
      = { s with
          stop := StopState.link { s.stop with fn := Function.update s.stop.fn cb fn } cb
          stack := .code (rest false) :: frames
          armed := cb :: s.armed } := by
  unfold arm StopState.arm
  simp [hstopped]

/-- A node armed before the stop waits, in front of the others; after the stop they
wait as before. -/
theorem waiting_arm (hs : Inv s) (hcb : cb ∉ s.armed) (hdestroyed : cb ∉ s.destroyed)
    (fn : Option (Prog ν)) (rest : Bool → Prog ν) (frames : List (Frame ν)) :
    (s.arm cb fn rest frames).waiting
      = if s.stop.stopped then s.waiting else cb :: s.waiting := by
  have hfired : cb ∉ s.fired := fun hmem => hcb (hs.fired_armed hmem)
  have himmediate : cb ∉ s.immediate := fun hmem => hcb (hs.immediate_armed cb hmem)
  unfold waiting
  cases hstopped : s.stop.stopped with
  | true =>
    rw [arm_of_stopped hstopped, if_pos rfl]
    dsimp only
    rw [List.filter_cons_of_neg (by simp)]
    refine List.filter_congr (fun n hn => ?_)
    have hne : n ≠ cb := fun heq => hcb (heq ▸ hn)
    simp [hne]
  | false =>
    rw [arm_of_not_stopped hstopped, if_neg (by simp)]
    dsimp only
    rw [List.filter_cons_of_pos (by simp [hfired, himmediate, hdestroyed])]

theorem Inv.arm (hs : Inv s) (hloops : loops frames = loops s.stack) (hcb : cb ∉ s.armed)
    (hdestroyed : cb ∉ s.destroyed) (fn : Option (Prog ν)) (rest : Bool → Prog ν) :
    Inv (s.arm cb fn rest frames) := by
  have hnodup : (cb :: s.armed).Nodup := List.nodup_cons.mpr ⟨hcb, hs.armed_nodup⟩
  have hwaiting := waiting_arm hs hcb hdestroyed fn rest frames
  cases hstopped : s.stop.stopped with
  | true =>
    rw [hstopped, if_pos rfl, arm_of_stopped hstopped] at hwaiting
    rw [arm_of_stopped hstopped]
    exact {
      hs with
      holds := by
        rw [hwaiting]
        exact hs.holds.setFn _
      armed_nodup := hnodup
      order := by
        rw [hwaiting]
        exact hs.order.cons cb
      once := by
        show (s.fired ++ (s.immediate ++ [cb])).Nodup
        rw [← List.append_assoc, List.nodup_append]
        refine ⟨hs.once, List.nodup_singleton cb, fun n hn m hm heq => hcb ?_⟩
        rw [← List.mem_singleton.mp hm, ← heq]
        exact (List.mem_append.mp hn).elim hs.fired_armed (hs.immediate_armed n)
      immediate_armed := fun n hn => by
        obtain hn | hn := List.mem_append.mp hn
        · exact List.mem_cons_of_mem _ (hs.immediate_armed n hn)
        · rw [List.mem_singleton.mp hn]
          exact List.mem_cons_self
      calls := by simpa [hloops] using hs.calls
      loops_eq := by simpa [hloops] using hs.loops_eq
      unstopped := fun hnot => absurd hstopped (by simpa using hnot)
      emptied := fun hmem => hwaiting.trans (hs.emptied hmem) }
  | false =>
    rw [hstopped, if_neg (by simp), arm_of_not_stopped hstopped] at hwaiting
    rw [arm_of_not_stopped hstopped]
    obtain ⟨hnone, -⟩ := hs.unstopped hstopped
    exact {
      hs with
      holds := by
        rw [hwaiting]
        exact (hs.holds.setFn _).link (fun hmem => hcb (mem_waiting.mp hmem).1)
      armed_nodup := hnodup
      order := by
        have horder := hs.order
        rw [hnone] at horder
        show (s.fired ++ waiting _).Sublist _
        rw [hwaiting, hnone]
        exact horder.cons_cons cb
      immediate_armed := fun n hn => List.mem_cons_of_mem _ (hs.immediate_armed n hn)
      calls := by simpa [hloops] using hs.calls
      loops_eq := by simpa [hloops] using hs.loops_eq
      emptied := fun hmem => by
        -- no call has been made, so none has returned
        have hcall := hs.calls.subset (List.mem_append_left _ (List.mem_map_of_mem hmem))
        rw [hs.requests_eq hstopped] at hcall
        exact absurd hcall List.not_mem_nil }

theorem Inv.requestStop (hs : Inv s) (hloops : loops frames = loops s.stack)
    (rest : Bool → Prog ν) : Inv (s.requestStop rest frames) := by
  unfold Run.requestStop
  split
  · rename_i hstopped
    have hpos := hs.stopped_iff.mp hstopped
    refine Inv.setStack (s := {
        s with
        requests := s.requests + 1
        returned := s.returned ++ [(s.requests, false)] }) ?_ (by simp [hloops])
    exact {
      hs with
      calls := by
        show ((s.returned ++ [(s.requests, false)]).map Prod.fst ++ _).Perm (List.range (_ + 1))
        rw [List.range_succ, List.map_append, List.append_assoc]
        refine List.Perm.trans ?_ (hs.calls.append_right [s.requests])
        rw [List.append_assoc]
        exact List.perm_append_comm.append_left _
      results := fun r hr => by
        obtain hr | hr := List.mem_append.mp hr
        · exact hs.results r hr
        · rw [List.mem_singleton.mp hr]
          simp only [Bool.false_eq_true, false_iff]
          exact Nat.ne_of_gt hpos
      stopped_iff := ⟨fun _ => Nat.succ_pos _, fun _ => hstopped⟩
      emptied := fun hmem => by
        obtain hmem | hmem := List.mem_append.mp hmem
        · exact hs.emptied hmem
        · simp at hmem }
  · rename_i hstopped
    rw [Bool.not_eq_true] at hstopped
    have hzero := hs.requests_eq hstopped
    have hcalls := hs.calls
    rw [hzero, List.range_zero, List.perm_nil, List.append_eq_nil_iff] at hcalls
    obtain ⟨hreturned, hnoloops⟩ := hcalls
    rw [← hloops] at hnoloops
    exact {
      hs with
      holds := hs.holds.setStopped true
      calls := by
        show (s.returned.map Prod.fst ++ loops (.loop s.requests :: .code (rest true) :: frames)).Perm
          (List.range (s.requests + 1))
        rw [hreturned, loops_loop, loops_code, hnoloops, hzero]
        exact List.Perm.refl _
      loops_eq := fun number hmem => by
        rw [loops_loop, loops_code, hnoloops, List.mem_singleton] at hmem
        rw [hmem, hzero]
      stopped_iff := ⟨fun _ => Nat.succ_pos _, fun _ => rfl⟩
      unstopped := fun hnot => absurd hnot (by simp)
      emptied := hs.emptied }

/-- The loop at its end: nothing waits. -/
theorem turn_of_nil (hs : Inv s) (hwaiting : s.waiting = []) (number : ℕ)
    (frames : List (Frame ν)) :
    s.turn number frames
      = { s with stack := frames, returned := s.returned ++ [(number, true)] } := by
  have hholds := hs.holds
  rw [hwaiting] at hholds
  unfold turn
  rw [hholds.unlinkHead_nil]

/-- A turn of the loop: the first node that waits fires. -/
theorem turn_of_cons (hs : Inv s) {later : List ν} (hwaiting : s.waiting = cb :: later)
    (number : ℕ) (frames : List (Frame ν)) :
    s.turn number frames
      = { s with
          stop := s.stop.unlink cb
          stack := call (s.stop.fn cb) (.loop number :: frames)
          fired := s.fired ++ [cb] } := by
  have hholds := hs.holds
  rw [hwaiting] at hholds
  unfold turn
  rw [hholds.unlinkHead_cons.1]
  rfl

/-- After a turn the others wait. -/
theorem waiting_turn (hs : Inv s) {later : List ν} (hwaiting : s.waiting = cb :: later) {s' : Run ν}
    (harmed : s'.armed = s.armed) (hfired : s'.fired = s.fired ++ [cb])
    (himmediate : s'.immediate = s.immediate) (hdestroyed : s'.destroyed = s.destroyed) :
    s'.waiting = later := by
  rw [waiting_without cb hs.armed_nodup harmed himmediate (fun n => by
    rw [hfired, hdestroyed]
    simp only [List.mem_append, List.mem_singleton]
    tauto), hwaiting, List.erase_cons_head]

theorem Inv.turn (hs : Inv s) {number : ℕ} (hstack : s.stack = .loop number :: frames) :
    Inv (s.turn number frames) := by
  have hloops := hs.loops_eq
  have hcalls := hs.calls
  rw [hstack, loops_loop] at hloops hcalls
  have hzero : number = 0 := hloops number List.mem_cons_self
  have hstopped : s.stop.stopped = true := by
    have hmem : number ∈ List.range s.requests :=
      hcalls.subset (List.mem_append_right _ List.mem_cons_self)
    exact hs.stopped_iff.mpr (Nat.lt_of_le_of_lt (Nat.zero_le _) (List.mem_range.mp hmem))
  cases hwaiting : s.waiting with
  | nil =>
    rw [turn_of_nil hs hwaiting]
    exact {
      hs with
      calls := by
        show ((s.returned ++ [(number, true)]).map Prod.fst ++ loops frames).Perm _
        rw [List.map_append, List.append_assoc]
        exact hcalls
      loops_eq := fun k hk => hloops k (List.mem_cons_of_mem _ hk)
      results := fun r hr => by
        obtain hr | hr := List.mem_append.mp hr
        · exact hs.results r hr
        · rw [List.mem_singleton.mp hr]
          simp [hzero]
      emptied := fun _ => hwaiting }
  | cons cb later =>
    rw [turn_of_cons hs hwaiting]
    have hmem : cb ∈ s.waiting := by
      rw [hwaiting]
      exact List.mem_cons_self
    obtain ⟨-, hfired, himmediate, -⟩ := mem_waiting.mp hmem
    refine Inv.setStack (s := {
        s with
        stop := s.stop.unlink cb
        fired := s.fired ++ [cb] }) ?_ (by simp [hstack])
    have hwaiting' : waiting {
        s with
        stop := s.stop.unlink cb
        fired := s.fired ++ [cb] } = later := waiting_turn hs hwaiting rfl rfl rfl rfl
    exact {
      hs with
      holds := by
        have hholds := hs.holds
        rw [hwaiting] at hholds
        rw [hwaiting']
        exact hholds.unlinkHead_cons.2
      order := by
        have horder := hs.order
        rw [hwaiting] at horder
        rw [hwaiting', List.append_assoc]
        exact horder
      once := by
        show (s.fired ++ [cb] ++ s.immediate).Nodup
        have hperm : (s.fired ++ [cb] ++ s.immediate).Perm (cb :: (s.fired ++ s.immediate)) := by
          rw [List.append_assoc]
          exact List.perm_middle
        rw [hperm.nodup_iff, List.nodup_cons, List.mem_append]
        exact ⟨fun hor => hor.elim hfired himmediate, hs.once⟩
      unstopped := fun hnot => absurd (hstopped.symm.trans hnot) (by simp)
      emptied := fun hreturned => by
        have hnone := hs.emptied hreturned
        rw [hwaiting] at hnone
        cases hnone }

/-- **Every step keeps the invariant**, if its call is allowed. -/
theorem inv_step (hs : Inv s) (hallowed : s.Allowed) : Inv s.step := by
  unfold step
  unfold Allowed at hallowed
  split
  · exact hs
  · rename_i frames hstack
    exact hs.setStack (by rw [hstack]; rfl)
  · rename_i cb rest frames hstack
    exact (hs.destroy cb).setStack (by rw [show _ = s.stack from rfl, hstack]; rfl)
  · rename_i cb fn rest frames hstack
    rw [hstack] at hallowed
    exact hs.arm (by rw [hstack]; rfl) hallowed.1 hallowed.2 _ rest
  · rename_i cb rest frames hstack
    rw [hstack] at hallowed
    exact hs.arm (by rw [hstack]; rfl) hallowed.1 hallowed.2 _ rest
  · rename_i rest frames hstack
    exact hs.requestStop (by rw [hstack]; rfl) rest
  · rename_i number frames hstack
    exact hs.turn hstack

theorem inv_after (p : Prog ν) (hallowed : ∀ k, (after p k).Allowed) (k : ℕ) : Inv (after p k) := by
  induction k with
  | zero => exact inv_start p
  | succ k ih => exact inv_step ih (hallowed k)

/-! ## The end of a run -/

end Run

namespace Prog

variable {ν : Type*}

/-- The number of calls in a program, in any way it may go on. -/
def size : Prog ν → ℕ
  | .done => 1
  | .destroy _ rest => rest.size + 1
  | .arm _ fn rest => fn.size + (rest true).size + (rest false).size + 2
  | .armNull _ rest => (rest true).size + (rest false).size + 2
  | .requestStop rest => (rest true).size + (rest false).size + 2

end Prog

namespace Run

variable {ν : Type*} [DecidableEq ν] {s : Run ν} {cb : ν} {frames : List (Frame ν)}

/-- What is left to do on the stack. -/
def stackSize (stack : List (Frame ν)) : ℕ :=
  (stack.map (fun frame => match frame with
    | .code p => p.size
    | .loop _ => 1)).sum

/-- What is left to do for a node that waits: its function, and the turn. -/
def fnSize (fn : Option (Prog ν)) : ℕ :=
  match fn with
  | some p => p.size + 1
  | none => 1

/-- What is left to do in a run. -/
def size (s : Run ν) : ℕ :=
  stackSize s.stack + (s.waiting.map (fun n => fnSize (s.stop.fn n))).sum

omit [DecidableEq ν] in
@[simp] theorem stackSize_code (p : Prog ν) (frames : List (Frame ν)) :
    stackSize (.code p :: frames) = p.size + stackSize frames := rfl

omit [DecidableEq ν] in
@[simp] theorem stackSize_loop (number : ℕ) (frames : List (Frame ν)) :
    stackSize (.loop number :: frames) = 1 + stackSize frames := rfl

omit [DecidableEq ν] in
theorem stackSize_call (fn : Option (Prog ν)) (frames : List (Frame ν)) :
    stackSize (call fn frames) + 1 = fnSize fn + stackSize frames := by
  cases fn with
  | none => exact Nat.add_comm _ _
  | some p =>
    show p.size + stackSize frames + 1 = p.size + 1 + stackSize frames
    omega

/-- Arming a node does not change what the others are armed with. -/
theorem sum_fnSize_update {l : List ν} (hcb : cb ∉ l) (f : ν → Option (Prog ν))
    (fn : Option (Prog ν)) :
    (l.map (fun n => fnSize (Function.update f cb fn n))).sum = (l.map (fun n => fnSize (f n))).sum := by
  refine congrArg List.sum (List.map_congr_left (fun n hn => ?_))
  have hne : n ≠ cb := fun heq => hcb (heq ▸ hn)
  rw [Function.update_of_ne hne]

/-- The rest of the code after arming a node, and its function, are less than both. -/
theorem size_arm_lt (hs : Inv s) (hcb : cb ∉ s.armed) (hdestroyed : cb ∉ s.destroyed)
    (fn : Option (Prog ν)) (rest : Bool → Prog ν) (frames : List (Frame ν)) (total : ℕ)
    (htotal : fnSize fn + (rest true).size + (rest false).size < total) :
    (s.arm cb fn rest frames).size
      < total + stackSize frames + (s.waiting.map (fun n => fnSize (s.stop.fn n))).sum := by
  have hsum := sum_fnSize_update (fun hmem => hcb (mem_waiting.mp hmem).1) s.stop.fn fn
  unfold size
  rw [waiting_arm hs hcb hdestroyed]
  cases hstopped : s.stop.stopped with
  | true =>
    have hcall := stackSize_call fn (.code (rest true) :: frames)
    rw [stackSize_code] at hcall
    rw [arm_of_stopped hstopped, if_pos rfl]
    simp only [hsum]
    omega
  | false =>
    rw [arm_of_not_stopped hstopped, if_neg (by simp)]
    simp only [StopState.link, List.map_cons, List.sum_cons, Function.update_self, hsum,
      stackSize_code]
    omega

/-- Destroying a node leaves no more to do for the others. -/
theorem size_destroy_le (hs : Inv s) (cb : ν) :
    ((waiting { s with stop := s.stop.destroy cb, destroyed := cb :: s.destroyed }).map
        (fun n => fnSize ((s.stop.destroy cb).fn n))).sum
      ≤ (s.waiting.map (fun n => fnSize (s.stop.fn n))).sum := by
  have hfn : (s.stop.destroy cb).fn = s.stop.fn := by
    unfold StopState.destroy
    split
    · rfl
    · rfl
  rw [hfn, waiting_destroy hs cb]
  exact (List.erase_sublist.map _).sum_le_sum (fun _ _ => Nat.zero_le _)

/-- A turn of the loop, or its end, leaves less to do. -/
theorem size_turn_lt (hs : Inv s) (number : ℕ) (frames : List (Frame ν)) :
    (s.turn number frames).size
      < 1 + stackSize frames + (s.waiting.map (fun n => fnSize (s.stop.fn n))).sum := by
  cases hwaiting : s.waiting with
  | nil =>
    rw [turn_of_nil hs hwaiting, ← hwaiting]
    show stackSize frames + _ < _
    exact Nat.add_lt_add_right (by omega) _
  | cons cb later =>
    have hlater : (s.turn number frames).waiting = later := by
      rw [turn_of_cons hs hwaiting]
      exact waiting_turn hs hwaiting rfl rfl rfl rfl
    have hcall := stackSize_call (s.stop.fn cb) (.loop number :: frames)
    unfold size
    rw [hlater, turn_of_cons hs hwaiting]
    simp only [StopState.unlink, List.map_cons, List.sum_cons, stackSize_loop] at hcall ⊢
    omega

/-- **Every step leaves less to do.** -/
theorem size_step_lt (hs : Inv s) (hallowed : s.Allowed) (hstack : s.stack ≠ []) :
    s.step.size < s.size := by
  have hsize : s.size
    = stackSize s.stack + (s.waiting.map (fun n => fnSize (s.stop.fn n))).sum := rfl
  unfold Allowed at hallowed
  unfold step
  split
  · rename_i hnil
    exact absurd hnil hstack
  · rename_i frames hcode
    rw [hsize, hcode]
    exact Nat.add_lt_add_right (by simp [Prog.size]) _
  · rename_i cb rest frames hcode
    rw [hsize, hcode]
    exact Nat.add_lt_add_of_lt_of_le (by simp [Prog.size]) (size_destroy_le hs cb)
  · rename_i cb fn rest frames hcode
    rw [hcode] at hallowed
    rw [hsize, hcode]
    exact size_arm_lt hs hallowed.1 hallowed.2 (some fn) rest frames _
      (by simp only [fnSize, Prog.size]; omega)
  · rename_i cb rest frames hcode
    rw [hcode] at hallowed
    rw [hsize, hcode]
    exact size_arm_lt hs hallowed.1 hallowed.2 none rest frames _
      (by simp only [fnSize, Prog.size]; omega)
  · rename_i rest frames hcode
    rw [hsize, hcode]
    unfold requestStop
    split
    · exact Nat.add_lt_add_right (by simp only [stackSize_code, Prog.size]; omega) _
    · exact Nat.add_lt_add_right (by simp only [stackSize_code, stackSize_loop, Prog.size]; omega) _
  · rename_i number frames hcode
    rw [hsize, hcode]
    exact size_turn_lt hs number frames

/-- **Every run of allowed calls comes to its end.** -/
theorem exists_end (p : Prog ν) (hallowed : ∀ k, (after p k).Allowed) :
    ∃ k, (after p k).stack = [] := by
  by_contra hnever
  rw [not_exists] at hnever
  have hbound : ∀ k, (after p k).size + k ≤ (start p).size := by
    intro k
    induction k with
    | zero => exact Nat.le_refl _
    | succ k ih =>
      have hlt := size_step_lt (inv_after p hallowed k) (hallowed k) (hnever k)
      have hstep : after p (k + 1) = (after p k).step := rfl
      rw [hstep]
      omega
  have htoo := hbound ((start p).size + 1)
  omega

/-! ## Nodes that do not fire -/

/-- **A node destroyed before it was reached is not fired by any step.** -/
theorem unfired_step (hs : Inv s) (hallowed : s.Allowed) {n : ν} (hdestroyed : n ∈ s.destroyed)
    (hunfired : n ∉ s.fired ++ s.immediate) :
    n ∈ s.step.destroyed ∧ n ∉ s.step.fired ++ s.step.immediate := by
  have harm : ∀ cb fn rest frames, cb ∉ s.destroyed →
      n ∈ (s.arm cb fn rest frames).destroyed
        ∧ n ∉ (s.arm cb fn rest frames).fired ++ (s.arm cb fn rest frames).immediate := by
    intro cb fn rest frames hcb
    have hne : n ≠ cb := fun heq => hcb (heq ▸ hdestroyed)
    cases hstopped : s.stop.stopped with
    | true =>
      rw [arm_of_stopped hstopped]
      refine ⟨hdestroyed, fun hmem => ?_⟩
      rw [← List.append_assoc, List.mem_append, List.mem_singleton] at hmem
      exact hmem.elim hunfired hne
    | false =>
      rw [arm_of_not_stopped hstopped]
      exact ⟨hdestroyed, hunfired⟩
  unfold Allowed at hallowed
  unfold step
  split
  · exact ⟨hdestroyed, hunfired⟩
  · exact ⟨hdestroyed, hunfired⟩
  · exact ⟨List.mem_cons_of_mem _ hdestroyed, hunfired⟩
  · rename_i cb fn rest frames hstack
    rw [hstack] at hallowed
    exact harm cb _ rest frames hallowed.2
  · rename_i cb rest frames hstack
    rw [hstack] at hallowed
    exact harm cb _ rest frames hallowed.2
  · unfold requestStop
    split
    · exact ⟨hdestroyed, hunfired⟩
    · exact ⟨hdestroyed, hunfired⟩
  · rename_i number frames hstack
    cases hwaiting : s.waiting with
    | nil =>
      rw [turn_of_nil hs hwaiting]
      exact ⟨hdestroyed, hunfired⟩
    | cons cb later =>
      -- the node that is reached waits, so it was not destroyed
      have hcb : cb ∉ s.destroyed :=
        (mem_waiting.mp (by rw [hwaiting]; exact List.mem_cons_self)).2.2.2
      rw [turn_of_cons hs hwaiting]
      refine ⟨hdestroyed, fun hmem => ?_⟩
      simp only [List.mem_append, List.mem_singleton] at hmem hunfired
      obtain (hmem | rfl) | hmem := hmem
      · exact hunfired (Or.inl hmem)
      · exact hcb hdestroyed
      · exact hunfired (Or.inr hmem)

theorem unfired_after (p : Prog ν) (hallowed : ∀ k, (after p k).Allowed) {n : ν} {j k : ℕ}
    (hle : j ≤ k) (hdestroyed : n ∈ (after p j).destroyed)
    (hunfired : n ∉ (after p j).fired ++ (after p j).immediate) :
    n ∈ (after p k).destroyed ∧ n ∉ (after p k).fired ++ (after p k).immediate := by
  induction hle with
  | refl => exact ⟨hdestroyed, hunfired⟩
  | step _ ih => exact unfired_step (inv_after p hallowed _) (hallowed _) ih.1 ih.2

/-- **At the end everything has returned**, and if there was a stop, the list is
empty and every node that was armed has fired once, or was destroyed before. -/
theorem Inv.at_end (hs : Inv s) (hstack : s.stack = []) :
    (s.returned.map Prod.fst).Perm (List.range s.requests)
      ∧ (0 < s.requests → s.waiting = [] ∧ ∀ n ∈ s.armed,
        (s.fired ++ s.immediate).count n = 1
          ∨ n ∈ s.destroyed ∧ n ∉ s.fired ++ s.immediate) := by
  have hcalls := hs.calls
  rw [hstack, show loops ([] : List (Frame ν)) = [] from rfl, List.append_nil] at hcalls
  refine ⟨hcalls, fun hpos => ?_⟩
  obtain ⟨r, hr, hzero⟩ := List.mem_map.mp (hcalls.symm.subset (List.mem_range.mpr hpos))
  have hreturned : r = (0, true) := Prod.ext hzero ((hs.results r hr).mpr hzero)
  rw [hreturned] at hr
  have hnone := hs.emptied hr
  refine ⟨hnone, fun n harmed => ?_⟩
  by_cases hfired : n ∈ s.fired ++ s.immediate
  · exact Or.inl (List.count_eq_one_of_mem hs.once hfired)
  · refine Or.inr ⟨?_, hfired⟩
    by_contra hdestroyed
    rw [List.mem_append, not_or] at hfired
    have hwaits := mem_waiting.mpr ⟨harmed, hfired.1, hfired.2, hdestroyed⟩
    rw [hnone] at hwaits
    exact absurd hwaits List.not_mem_nil

/-- **The callbacks of a stop state.** In the run of every program that arms
distinct nodes and does nothing with a node that was destroyed:

* at all times the links spell the nodes that were armed and have not fired or been
  destroyed, the last one armed first; no node fires twice; the loop fires them in
  the order of the list; of the calls of `request_stop` exactly the first returns
  true, and then the list is empty;
* a node destroyed before it is reached never fires;
* a node armed after the stop fires at once, and is not linked;
* the run comes to its end. Every call of `request_stop` has then returned, and if
  there was one, the list is empty and every node that was armed has fired exactly
  once, unless it was destroyed before it was reached. -/
theorem callbacks_correct (p : Prog ν) (hallowed : ∀ k, (after p k).Allowed) :
    (∀ k, (after p k).stop.links.Spells (after p k).waiting
        ∧ ((after p k).fired ++ (after p k).immediate).Nodup
        ∧ (after p k).fired.Sublist (after p k).armed
        ∧ (∀ r ∈ (after p k).returned, r.2 = true ↔ r.1 = 0)
        ∧ ((0, true) ∈ (after p k).returned → (after p k).waiting = []))
      ∧ (∀ j k n, j ≤ k → n ∈ (after p j).destroyed →
        n ∉ (after p j).fired ++ (after p j).immediate →
          n ∉ (after p k).fired ++ (after p k).immediate)
      ∧ (∀ k cb fn rest frames, (after p k).stop.stopped = true →
        (after p k).stack = .code (.arm cb fn rest) :: frames →
          (after p (k + 1)).stack = .code fn :: .code (rest true) :: frames
            ∧ (after p (k + 1)).immediate = (after p k).immediate ++ [cb]
            ∧ (after p (k + 1)).stop.links = (after p k).stop.links)
      ∧ ∃ k, (after p k).stack = []
        ∧ ((after p k).returned.map Prod.fst).Perm (List.range (after p k).requests)
        ∧ (0 < (after p k).requests → (after p k).waiting = [] ∧ ∀ n ∈ (after p k).armed,
          ((after p k).fired ++ (after p k).immediate).count n = 1
            ∨ n ∈ (after p k).destroyed ∧ n ∉ (after p k).fired ++ (after p k).immediate) := by
  have hinv := inv_after p hallowed
  refine ⟨fun k => ?_, fun j k n hle hdestroyed hunfired =>
    (unfired_after p hallowed hle hdestroyed hunfired).2, fun k cb fn rest frames hstopped hstack => ?_,
    ?_⟩
  · exact ⟨(hinv k).holds.spells, (hinv k).once,
      (List.sublist_append_left _ _).trans (hinv k).order, (hinv k).results, (hinv k).emptied⟩
  · have hstep : after p (k + 1) = (after p k).arm cb (some fn) rest frames := by
      show (after p k).step = _
      unfold step
      rw [hstack]
    rw [hstep, arm_of_stopped hstopped]
    exact ⟨rfl, rfl, rfl⟩
  · obtain ⟨k, hend⟩ := exists_end p hallowed
    exact ⟨k, hend, (hinv k).at_end hend⟩

/-- Three nodes, and a stop: the last one armed destroys the second, arms another and
requests the stop again. -/
def reentrant : Prog ℕ :=
  .arm 0 .done fun _ => .arm 1 .done fun _ =>
    .arm 2 (.destroy 1 (.arm 3 .done fun _ => .requestStop fun _ => .done)) fun _ =>
      .requestStop fun _ => .done

/-- A run that has come to its end stays there. -/
theorem after_of_end {p : Prog ν} {j k : ℕ} (hend : (after p j).stack = []) (hle : j ≤ k) :
    after p k = after p j := by
  induction hle with
  | refl => rfl
  | step _ ih =>
    show (after p _).step = _
    rw [ih]
    unfold step
    rw [hend]

/-- In that run the third node fires, then the fourth at once, and then the first; the
second does not, and only the first call returns true. -/
theorem callbacks_correct_reentrant :
    (∀ k, (after reentrant k).Allowed)
      ∧ (after reentrant 14).fired = [2, 0] ∧ (after reentrant 14).immediate = [3]
      ∧ (after reentrant 14).returned = [(1, false), (0, true)]
      ∧ (after reentrant 14).stop.links.Spells [] := by
  have hend : (after reentrant 14).stack = [] := by
    rw [← List.length_eq_zero_iff]
    decide
  have hallowed : ∀ k, (after reentrant k).Allowed := by
    intro k
    by_cases hk : k < 14
    · have hall : ∀ k < 14, (after reentrant k).Allowed := by decide
      exact hall k hk
    · rw [after_of_end hend (Nat.le_of_not_lt hk)]
      decide
  obtain ⟨halways, -⟩ := callbacks_correct reentrant hallowed
  refine ⟨hallowed, by decide, by decide, by decide, ?_⟩
  have hspells := (halways 14).1
  rwa [show (after reentrant 14).waiting = [] by decide] at hspells

end Run

end StopState

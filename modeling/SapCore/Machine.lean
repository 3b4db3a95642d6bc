import Mathlib.Data.Nat.Notation
import Mathlib.Logic.Basic

/-!
# Machines that take labelled steps

A concurrent program is modelled as a machine whose labels say who moves: a
step is a partial function of the state and the label, and a schedule is a list
of labels. Every interleaving is then a list, so a statement about every
interleaving is a statement about every reachable state.

Two things are wanted of a run. That it can be carried out on a concrete
schedule: `run` does that, and `ReachableBy.run` says that where it ends is
reachable. And that what a step preserves is preserved by runs:
`ReachableBy.invariant`. Both take a condition `C` on the steps, so that the
runs in question can be those whose steps all meet it; a condition on labels
alone (who may do what) and a condition on the state before the step are both
of that form.

That a run can be brought to an end is a statement about schedules again:
`Leads` says that some schedule goes from one state to another, and
`leads_of_decreasing` finds one where each step that is still needed makes a
measure smaller.
-/

/-- **A labelled machine**: where it starts, and what a label does in a state –
nothing, where the label does not apply. -/
structure Machine (σ ι : Type) where
  /-- The state it starts in. -/
  init : σ
  /-- One step. -/
  step : σ → ι → Option σ

namespace Machine

variable {σ ι : Type} (M : Machine σ ι)

/-- **A state reached by a run whose steps all meet a condition.** -/
inductive ReachableBy (C : σ → ι → Prop) : σ → Prop where
  | init : ReachableBy C M.init
  | step {s s' : σ} {a : ι} :
      ReachableBy C s → C s a → M.step s a = some s' → ReachableBy C s'

/-- A state reached by any run at all. -/
def Reachable : σ → Prop := M.ReachableBy (fun _ _ => True)

/-- Carry out a schedule. -/
def run : σ → List ι → Option σ
  | s, [] => some s
  | s, a :: as => (M.step s a).bind (fun s' => run s' as)

/-- Every step of a schedule meets a condition. -/
def Along (C : σ → ι → Prop) : σ → List ι → Prop
  | _, [] => True
  | s, a :: as => C s a ∧ ∀ s', M.step s a = some s' → Along C s' as

variable {M} {C D : σ → ι → Prop}

/-- Whether every step of a schedule meets a condition is decided by carrying it out. -/
instance decidableAlong [∀ s a, Decidable (C s a)] : ∀ s as, Decidable (M.Along C s as)
  | _, [] => .isTrue trivial
  | s, a :: as =>
    have : ∀ s', Decidable (M.Along C s' as) := fun s' => decidableAlong s' as
    decidable_of_iff (C s a ∧ ∀ s' ∈ M.step s a, M.Along C s' as) Iff.rfl

theorem Along.cons {s s₁ : σ} {a : ι} {as : List ι} (hC : C s a) (hstep : M.step s a = some s₁)
    (hrest : M.Along C s₁ as) : M.Along C s (a :: as) := by
  refine ⟨hC, fun s' hstep' => ?_⟩
  cases hstep.symm.trans hstep'
  exact hrest

theorem run_cons {s s₁ : σ} {a : ι} (hstep : M.step s a = some s₁) (as : List ι) :
    M.run s (a :: as) = M.run s₁ as := by
  rw [Machine.run, hstep, Option.bind_some]

/-- **The invariant rule.** What holds at the start and is preserved by every
step that meets the condition holds in every state such a run reaches. The
step may use that the state before it is reachable. -/
theorem ReachableBy.invariant {I : σ → Prop} (hinit : I M.init)
    (hstep : ∀ s a s', M.ReachableBy C s → I s → C s a → M.step s a = some s' → I s')
    {s : σ} (h : M.ReachableBy C s) : I s := by
  induction h with
  | init => exact hinit
  | step hs hC hstep' ih => exact hstep _ _ _ hs ih hC hstep'

/-- A run that meets a condition meets a weaker one. -/
theorem ReachableBy.mono (hCD : ∀ s a, C s a → D s a) {s : σ} (h : M.ReachableBy C s) :
    M.ReachableBy D s := by
  induction h with
  | init => exact ReachableBy.init
  | step _ hC hstep ih => exact ReachableBy.step ih (hCD _ _ hC) hstep

theorem ReachableBy.reachable {s : σ} (h : M.ReachableBy C s) : M.Reachable s :=
  h.mono (fun _ _ _ => trivial)

/-- **A condition that the runs meet by themselves.** Where the states reached
under one condition all allow only steps that meet another, the runs meet
both. -/
theorem ReachableBy.strengthen {s : σ}
    (hD : ∀ s a s', M.ReachableBy C s → C s a → M.step s a = some s' → D s a)
    (h : M.ReachableBy C s) : M.ReachableBy (fun s a => C s a ∧ D s a) s := by
  induction h with
  | init => exact ReachableBy.init
  | step hs hC hstep ih => exact ReachableBy.step ih ⟨hC, hD _ _ _ hs hC hstep⟩ hstep

/-- **Where a schedule leads whose steps meet the condition.** -/
theorem ReachableBy.run_along {s s' : σ} {labels : List ι} (hs : M.ReachableBy C s)
    (halong : M.Along C s labels) (hrun : M.run s labels = some s') : M.ReachableBy C s' := by
  induction labels generalizing s with
  | nil =>
    cases hrun
    exact hs
  | cons a labels ih =>
    rw [Machine.run, Option.bind_eq_some_iff] at hrun
    obtain ⟨s₁, hstep, hrest⟩ := hrun
    exact ih (ReachableBy.step hs halong.1 hstep) (halong.2 s₁ hstep) hrest

/-- A condition on labels that holds in every state holds along every schedule of them. -/
theorem along_of_forall {s : σ} {labels : List ι} (hC : ∀ a ∈ labels, ∀ s, C s a) :
    M.Along C s labels := by
  induction labels generalizing s with
  | nil => trivial
  | cons a labels ih =>
    refine ⟨hC a List.mem_cons_self s, fun s' _ => ih (fun b hb => ?_)⟩
    exact hC b (List.mem_cons_of_mem a hb)

/-- **The exactness rule.** Where a step does what it is to do exactly if it meets the
condition, and then keeps the invariant, all steps of a schedule do what they are to do exactly
if they all meet it. -/
theorem along_iff {I : σ → Prop} {P : σ → ι → σ → Prop} (hP : ∀ s a s', P s a s' → I s')
    (hstep : ∀ s a, I s → ((∀ s', M.step s a = some s' → P s a s') ↔ C s a)) {s : σ}
    {labels : List ι} (hs : I s) :
    M.Along (fun s a => ∀ s', M.step s a = some s' → P s a s') s labels ↔ M.Along C s labels := by
  induction labels generalizing s with
  | nil => exact Iff.rfl
  | cons a labels ih =>
    have hiff := hstep s a hs
    refine ⟨fun h => ⟨hiff.mp h.1, fun s' hs' => ?_⟩, fun h => ⟨hiff.mpr h.1, fun s' hs' => ?_⟩⟩
    · exact (ih (hP _ _ _ (h.1 s' hs'))).mp (h.2 s' hs')
    · exact (ih (hP _ _ _ (hiff.mpr h.1 s' hs'))).mpr (h.2 s' hs')

/-- **The exactness rule for runs**, where the labels of the schedule are of a kind and all its
steps can be taken. -/
theorem run_along_iff {I : σ → Prop} {L : ι → Prop} {P : σ → ι → σ → Prop}
    (hP : ∀ s a s', I s → L a → M.step s a = some s' → P s a s' → I s')
    (hstep : ∀ s a s', I s → L a → M.step s a = some s' → (P s a s' ↔ C s a)) {s s' : σ}
    {labels : List ι} (hs : I s) (hL : ∀ a ∈ labels, L a) (hrun : M.run s labels = some s') :
    M.Along (fun s a => ∀ s', M.step s a = some s' → P s a s') s labels ↔ M.Along C s labels := by
  induction labels generalizing s with
  | nil => exact Iff.rfl
  | cons a labels ih =>
    rw [Machine.run, Option.bind_eq_some_iff] at hrun
    obtain ⟨s₁, hs₁, hrest⟩ := hrun
    have ha := hL a List.mem_cons_self
    have hiff := hstep s a s₁ hs ha hs₁
    have hnext : P s a s₁ → (M.Along (fun s a => ∀ s', M.step s a = some s' → P s a s') s₁ labels
        ↔ M.Along C s₁ labels) := fun hstepped =>
      ih (hP s a s₁ hs ha hs₁ hstepped) (fun b hb => hL b (List.mem_cons_of_mem a hb)) hrest
    constructor
    · rintro ⟨hstepped, hrest'⟩
      exact .cons (hiff.mp (hstepped s₁ hs₁)) hs₁
        ((hnext (hstepped s₁ hs₁)).mp (hrest' s₁ hs₁))
    · rintro ⟨hC, hrest'⟩
      have hstepped := hiff.mpr hC
      refine .cons (fun s' hs' => ?_) hs₁ ((hnext hstepped).mpr (hrest' s₁ hs₁))
      cases hs₁.symm.trans hs'
      exact hstepped

/-- Where a schedule leads whose labels meet the condition in every state. -/
theorem ReachableBy.run_of_forall {s s' : σ} {labels : List ι} (hs : M.ReachableBy C s)
    (hC : ∀ a ∈ labels, ∀ s, C s a) (hrun : M.run s labels = some s') : M.ReachableBy C s' :=
  hs.run_along (along_of_forall hC) hrun

/-- Where a schedule of labels that meet a condition ends is reachable. -/
theorem ReachableBy.run {L : ι → Prop} {s s' : σ} {labels : List ι}
    (hs : M.ReachableBy (fun _ a => L a) s) (hL : ∀ a ∈ labels, L a)
    (hrun : M.run s labels = some s') : M.ReachableBy (fun _ a => L a) s' :=
  hs.run_of_forall (fun a ha _ => hL a ha) hrun

/-- One schedule after another. -/
theorem run_append (s : σ) (as bs : List ι) :
    M.run s (as ++ bs) = (M.run s as).bind (fun s' => M.run s' bs) := by
  induction as generalizing s with
  | nil => rfl
  | cons a as ih =>
    rw [List.cons_append, Machine.run, Machine.run, Option.bind_assoc]
    exact congrArg _ (funext ih)

/-! ## Records

What a run has done can be read off its last state only as far as the state remembers it. A
machine that records takes the steps of another and enters each of them in a record, which no
step looks at: its runs are those of the other machine. -/

section Recording

variable {ρ : Type} {enter : σ → ι → σ → ρ → ρ} {r₀ : ρ}

/-- **A machine with a record.** -/
def recording (M : Machine σ ι) (enter : σ → ι → σ → ρ → ρ) (r₀ : ρ) : Machine (σ × ρ) ι where
  init := (M.init, r₀)
  step d a := (M.step d.1 a).map (fun s' => (s', enter d.1 a s' d.2))

theorem recording_step {d d' : σ × ρ} {a : ι} (h : (M.recording enter r₀).step d a = some d') :
    M.step d.1 a = some d'.1 ∧ d'.2 = enter d.1 a d'.1 d.2 := by
  obtain ⟨s', hstep, rfl⟩ := Option.map_eq_some_iff.mp h
  exact ⟨hstep, rfl⟩

/-- **A run that is recorded is a run.** -/
theorem ReachableBy.of_recording {d : σ × ρ}
    (h : (M.recording enter r₀).ReachableBy (fun d a => C d.1 a) d) : M.ReachableBy C d.1 := by
  induction h with
  | init => exact ReachableBy.init
  | step _ hC hstep ih => exact ReachableBy.step ih hC (recording_step hstep).1

/-- Every run can be recorded. -/
theorem ReachableBy.recorded (enter : σ → ι → σ → ρ → ρ) (r₀ : ρ) {s : σ}
    (h : M.ReachableBy C s) :
    ∃ r, (M.recording enter r₀).ReachableBy (fun d a => C d.1 a) (s, r) := by
  induction h with
  | init => exact ⟨r₀, .init⟩
  | @step s s' a _ hC hstep ih =>
    obtain ⟨r, hr⟩ := ih
    have hrecorded : (M.recording enter r₀).step (s, r) a = some (s', enter s a s' r) :=
      Option.map_eq_some_iff.mpr ⟨s', hstep, rfl⟩
    exact ⟨_, ReachableBy.step hr hC hrecorded⟩

/-- **A schedule that enters nothing.** Where the steps of a schedule keep an invariant under
which nothing is entered, the record is at its end what it was. -/
theorem run_recording_of_keeps {I : σ → Prop} {L : ι → Prop}
    (hkeeps : ∀ s a s', I s → L a → M.step s a = some s' → I s' ∧ ∀ r, enter s a s' r = r)
    {s s' : σ} {labels : List ι} (hs : I s) (hL : ∀ a ∈ labels, L a)
    (hrun : M.run s labels = some s') (r : ρ) :
    (M.recording enter r₀).run (s, r) labels = some (s', r) := by
  induction labels generalizing s with
  | nil =>
    cases hrun
    rfl
  | cons a labels ih =>
    rw [Machine.run, Option.bind_eq_some_iff] at hrun
    obtain ⟨s₁, hstep, hrest⟩ := hrun
    obtain ⟨hs₁, hsame⟩ := hkeeps s a s₁ hs (hL a List.mem_cons_self) hstep
    have hrecorded : (M.recording enter r₀).step (s, r) a = some (s₁, r) :=
      Option.map_eq_some_iff.mpr ⟨s₁, hstep, by rw [hsame]⟩
    rw [run_cons hrecorded]
    exact ih hs₁ (fun b hb => hL b (List.mem_cons_of_mem a hb)) hrest

end Recording

/-! ## Runs that can be brought to an end -/

variable {L : ι → Prop}

/-- **A schedule of permitted labels leads from one state to another.** -/
def Leads (M : Machine σ ι) (L : ι → Prop) (s s' : σ) : Prop :=
  ∃ labels : List ι, (∀ a ∈ labels, L a) ∧ M.run s labels = some s'

theorem Leads.refl (s : σ) : M.Leads L s s := ⟨[], by simp, rfl⟩

theorem Leads.trans {s₁ s₂ s₃ : σ} (h : M.Leads L s₁ s₂) (h' : M.Leads L s₂ s₃) :
    M.Leads L s₁ s₃ := by
  obtain ⟨as, has, hrun⟩ := h
  obtain ⟨bs, hbs, hrun'⟩ := h'
  refine ⟨as ++ bs, fun a ha => ?_, ?_⟩
  · obtain ha | ha := List.mem_append.mp ha
    · exact has a ha
    · exact hbs a ha
  · rw [run_append, hrun]
    exact hrun'

/-- One permitted step. -/
theorem Leads.step {s s' : σ} {a : ι} (ha : L a) (hstep : M.step s a = some s') :
    M.Leads L s s' := by
  refine ⟨[a], by simpa using ha, ?_⟩
  rw [Machine.run, hstep]
  rfl

/-- A schedule stays one when more labels are permitted. -/
theorem Leads.mono {L' : ι → Prop} (hL : ∀ a, L a → L' a) {s s' : σ} (h : M.Leads L s s') :
    M.Leads L' s s' := by
  obtain ⟨labels, hlabels, hrun⟩ := h
  exact ⟨labels, fun a ha => hL a (hlabels a ha), hrun⟩

/-- Where a schedule leads from a reachable state is reachable. -/
theorem ReachableBy.leads {s s' : σ} (hs : M.ReachableBy (fun _ a => L a) s)
    (h : M.Leads L s s') : M.ReachableBy (fun _ a => L a) s' := by
  obtain ⟨labels, hlabels, hrun⟩ := h
  exact hs.run hlabels hrun

/-- **The progress rule.** Where each state that has not reached the goal has a
permitted step that keeps the invariant and makes the measure smaller, some
schedule leads to the goal. -/
theorem leads_of_decreasing {I G : σ → Prop} (measure : σ → ℕ)
    (hstep : ∀ s, I s → ¬ G s →
      ∃ a s', L a ∧ M.step s a = some s' ∧ I s' ∧ measure s' < measure s)
    {s : σ} (hs : I s) : ∃ s', M.Leads L s s' ∧ I s' ∧ G s' := by
  induction hm : measure s using Nat.strongRecOn generalizing s with
  | _ m ih =>
    subst hm
    by_cases hG : G s
    · exact ⟨s, Leads.refl s, hs, hG⟩
    · obtain ⟨a, s₁, ha, hrun, hI, hlt⟩ := hstep s hs hG
      obtain ⟨s', hleads, hI', hG'⟩ := ih (measure s₁) hlt hI rfl
      exact ⟨s', (Leads.step ha hrun).trans hleads, hI', hG'⟩

end Machine

import SapCore.JobSystemIdle
import SapCore.JobSystemProgress

/-!
# Every run can be completed

Nothing in the job system blocks for ever. From every state that one thread can
bring it to, a schedule leads to the end of the destructor (`can_complete`): a
call of `submit` returns, the workers can run down their queues one after the
other so that `wait_idle` returns, and when they have been asked to stop they
exit, so that they can be joined.
-/

namespace JobSystem

variable {n : ℕ} {s s' : State} {w : ℕ}

/-- A schedule in which client zero makes every call. -/
abbrev Leads (n : ℕ) : State → State → Prop := (machine n).Leads SingleThread

/-- What a thread brings about by itself, one thread in charge can have done. -/
theorem Leads.of_alone {τ : Thread} (h : LeadsAlone n τ s s') : Leads n s s' :=
  h.mono (by rintro a rfl; trivial)

/-! ## The workers -/

/-- With one submitter no worker is inside `submit`. -/
theorem call_worker_of_single (h : Single n s) (w : ℕ) : s.call (.worker w) = none := by
  cases hcall : s.call (.worker w) with
  | none => rfl
  | some c => cases (orderly_of_reachable oneSubmitter_of_single h).calls _ c hcall

theorem soundAlone_of_single (hn : 0 < n) (h : Single n s) (w : ℕ) : SoundAlone n w s :=
  (sound_of_submitter hn oneSubmitter_of_single h).alone_of_reachable h w

/-- A worker that has exited has subtracted all that was pushed to it. -/
theorem subtracted_of_exited (hn : 0 < n) (h : Single n s) (hw : w < n)
    (hexited : s.workers w = .exited) : s.subtracted w = s.pushed w := by
  rw [subtracted_eq_popped (kept_of_reachable h) (by rw [hexited]; rfl) (by rw [hexited]; rfl)]
  exact drained_of_submitter hn oneSubmitter_of_single h w hw hexited

/-- What every worker can bring about by itself, all can, one after the
other. -/
theorem all_workers {P : State → ℕ → Prop} (hrest : ∀ s s' v w, WorkerOnly w s s' → v ≠ w →
      P s v → P s' v) (hone : ∀ s₁ w, Single n s₁ → s₁.stopRequested = s.stopRequested → w < n →
      ∃ s', LeadsAlone n (.worker w) s₁ s' ∧ WorkerOnly w s₁ s' ∧ P s' w)
    (h : Single n s) : ∀ k, k ≤ n → ∃ s', Leads n s s' ∧ Single n s' ∧ s'.clients = s.clients
      ∧ s'.stopRequested = s.stopRequested ∧ ∀ w, w < k → P s' w := by
  intro k
  induction k with
  | zero => exact fun _ => ⟨s, Machine.Leads.refl s, h, rfl, rfl, fun w hw => absurd hw (by simp)⟩
  | succ k ih =>
    intro hk
    obtain ⟨s₁, hleads₁, h₁, hclients₁, hstop₁, hall₁⟩ := ih (Nat.le_of_succ_le hk)
    obtain ⟨s₂, halone, honly, hk₂⟩ := hone s₁ k h₁ hstop₁ hk
    have hleads₂ := Leads.of_alone halone
    refine ⟨s₂, hleads₁.trans hleads₂, h₁.leads hleads₂, honly.clients.trans hclients₁,
      honly.stopRequested.trans hstop₁, fun w hw => ?_⟩
    obtain hlt | rfl := Nat.lt_succ_iff_lt_or_eq.mp hw
    · exact hrest s₁ s₂ w k honly (Nat.ne_of_lt hlt) (hall₁ w hlt)
    · exact hk₂

/-! ## The calls of client zero return -/

/-- A step of client zero outside `submit` is a step of the job system. -/
theorem step_client (hcall : s.call (.client 0) = none) (hnext : clientNext n s 0 = some s') :
    (machine n).step s (.next (.client 0)) = some s' := by
  show step n s (.next (.client 0)) = some s'
  simp only [step, hcall]
  exact hnext

/-- **`wait_idle` can return**: once the workers have run down their queues the
counter is zero. -/
theorem waitIdle_returns (hn : 0 < n) (h : Single n s) {since : List Job}
    (hpc : s.clients 0 = .waiting since) :
    ∃ s', Leads n s s' ∧ Single n s' ∧ s'.clients 0 = .idle := by
  obtain ⟨s₁, hleads, h₁, hclients, -, hall⟩ := all_workers
    (P := fun s w => s.subtracted w = s.pushed w)
    (fun s s' v w honly hv hdone => by rw [honly.subtracted v hv, honly.pushed, hdone])
    (fun s₁ w h₁ _ hw => by
      by_cases hexited : s₁.workers w = .exited
      · exact ⟨s₁, Machine.Leads.refl s₁, WorkerOnly.refl w s₁,
          subtracted_of_exited hn h₁ hw hexited⟩
      · obtain ⟨s₂, halone, -, honly, hdone⟩ := worker_runsDown hn (soundAlone_of_single hn h₁ w)
          (call_worker_of_single h₁ w) hw hexited
        exact ⟨s₂, halone, honly, hdone⟩)
    h n (le_refl n)
  have hpc₁ : s₁.clients 0 = .waiting since := by rw [hclients, hpc]
  have hcall : s₁.call (.client 0) = none := by
    rw [State.call, hpc₁]
    rfl
  have hzero := pendingJobs_eq_zero (counted_of_reachable h₁)
    (tallied_of_reachable hn oneSubmitter_of_single h₁) hall hcall
  have hstep := step_client (n := n) hcall (by simp only [clientNext, hpc₁, hzero]; rfl)
  refine ⟨_, hleads.trans (Machine.Leads.step (a := .next (.client 0)) trivial hstep),
    h₁.step (a := .next (.client 0)) trivial hstep, ?_⟩
  simp

/-- How much is left of the destructor, with `n` workers to stop and to join. -/
def Client.rank (n : ℕ) : Client → ℕ
  | .stopping i => n - i + n + 2
  | .joining i => n - i + 1
  | _ => 0

/-- **The destructor asks every worker to stop.** -/
theorem stopping_ends (h : Single n s) {i : ℕ} (hpc : s.clients 0 = .stopping i) :
    ∃ s', Leads n s s' ∧ Single n s' ∧ s'.clients 0 = .joining 0 := by
  have hprogress : ∀ s, (Single n s ∧ (s.clients 0 = .joining 0 ∨ ∃ i, s.clients 0 = .stopping i)) →
      ¬ s.clients 0 = .joining 0 → ∃ a s', SingleThread a ∧ (machine n).step s a = some s'
        ∧ (Single n s' ∧ (s'.clients 0 = .joining 0 ∨ ∃ i, s'.clients 0 = .stopping i))
        ∧ (s'.clients 0).rank n < (s.clients 0).rank n := by
    rintro s ⟨h, hpc⟩ hnot
    obtain ⟨i, hpc⟩ := hpc.resolve_left hnot
    have hcall : s.call (.client 0) = none := by
      rw [State.call, hpc]
      rfl
    by_cases hi : i < n
    · have hstep := step_client (n := n) hcall (by simp only [clientNext, hpc, if_pos hi]; rfl)
      refine ⟨.next (.client 0), _, trivial, hstep,
        ⟨h.step (a := .next (.client 0)) trivial hstep, Or.inr ⟨i + 1, by simp⟩⟩, ?_⟩
      simp only [hpc, Function.update_self, Client.rank]
      omega
    · have hstep := step_client (n := n) hcall (by simp only [clientNext, hpc, if_neg hi]; rfl)
      refine ⟨.next (.client 0), _, trivial, hstep,
        ⟨h.step (a := .next (.client 0)) trivial hstep, Or.inl (by simp)⟩, ?_⟩
      simp only [hpc, Function.update_self, Client.rank]
      omega
  obtain ⟨s', hleads, ⟨hsingle, -⟩, hdone⟩ := Machine.leads_of_decreasing
    (fun s : State => (s.clients 0).rank n) hprogress ⟨h, Or.inr ⟨i, hpc⟩⟩
  exact ⟨s', hleads, hsingle, hdone⟩

/-- **The destructor joins every worker**, where all have exited. -/
theorem joining_ends (h : Single n s) (hexited : ∀ w, w < n → s.workers w = .exited) {i : ℕ}
    (hpc : s.clients 0 = .joining i) :
    ∃ s', Leads n s s' ∧ Single n s' ∧ s'.clients 0 = .destroyed := by
  have hprogress : ∀ s, (Single n s ∧ (∀ w, w < n → s.workers w = .exited)
        ∧ (s.clients 0 = .destroyed ∨ ∃ i, s.clients 0 = .joining i)) →
      ¬ s.clients 0 = .destroyed → ∃ a s', SingleThread a ∧ (machine n).step s a = some s'
        ∧ (Single n s' ∧ (∀ w, w < n → s'.workers w = .exited)
          ∧ (s'.clients 0 = .destroyed ∨ ∃ i, s'.clients 0 = .joining i))
        ∧ (s'.clients 0).rank n < (s.clients 0).rank n := by
    rintro s ⟨h, hexited, hpc⟩ hnot
    obtain ⟨i, hpc⟩ := hpc.resolve_left hnot
    have hcall : s.call (.client 0) = none := by
      rw [State.call, hpc]
      rfl
    by_cases hi : i < n
    · have hstep := step_client (n := n) hcall
        (by simp only [clientNext, hpc, if_pos hi, if_pos (hexited i hi)]; rfl)
      refine ⟨.next (.client 0), _, trivial, hstep, ⟨h.step (a := .next (.client 0)) trivial hstep,
        hexited, Or.inr ⟨i + 1, by simp⟩⟩, ?_⟩
      simp only [hpc, Function.update_self, Client.rank]
      omega
    · have hstep := step_client (n := n) hcall (by simp only [clientNext, hpc, if_neg hi]; rfl)
      refine ⟨.next (.client 0), _, trivial, hstep, ⟨h.step (a := .next (.client 0)) trivial hstep,
        hexited, Or.inl (by simp)⟩, ?_⟩
      simp [hpc, Client.rank]
  obtain ⟨s', hleads, ⟨hsingle, -, -⟩, hdone⟩ := Machine.leads_of_decreasing
    (fun s : State => (s.clients 0).rank n) hprogress ⟨h, hexited, Or.inr ⟨i, hpc⟩⟩
  exact ⟨s', hleads, hsingle, hdone⟩

/-- Once every worker has been asked to stop, the destructor can return. -/
theorem joining_returns (hn : 0 < n) (h : Single n s) {i : ℕ} (hpc : s.clients 0 = .joining i) :
    ∃ s', Leads n s s' ∧ Single n s' ∧ s'.clients 0 = .destroyed := by
  have hasked : ∀ w, w < n → s.stopRequested w = true := fun w hw =>
    (orderly_of_reachable oneSubmitter_of_single h).asked w hw (by rw [hpc]; trivial)
  obtain ⟨s₁, hleads₁, h₁, hclients, -, hexited⟩ := all_workers
    (P := fun s w => s.workers w = .exited)
    (fun s s' v w honly hv hdone => by rw [honly.workers v hv, hdone])
    (fun s₁ w h₁ hstop hw => by
      obtain ⟨s₂, halone, -, honly, hexited⟩ := worker_exits hn (soundAlone_of_single hn h₁ w)
        (call_worker_of_single h₁ w) hw (by rw [hstop, hasked w hw])
      exact ⟨s₂, halone, honly, hexited⟩)
    h n (le_refl n)
  obtain ⟨s₂, hleads₂, h₂, hdone⟩ := joining_ends h₁ hexited (by rw [hclients, hpc])
  exact ⟨s₂, hleads₁.trans hleads₂, h₂, hdone⟩

/-- The destructor can be called and can return. -/
theorem stopping_returns (hn : 0 < n) (h : Single n s) {i : ℕ}
    (hpc : s.clients 0 = .stopping i) :
    ∃ s', Leads n s s' ∧ Single n s' ∧ s'.clients 0 = .destroyed := by
  obtain ⟨s₁, hleads₁, h₁, hpc₁⟩ := stopping_ends h hpc
  obtain ⟨s₂, hleads₂, h₂, hdone⟩ := joining_returns hn h₁ hpc₁
  exact ⟨s₂, hleads₁.trans hleads₂, h₂, hdone⟩

theorem idle_completes (hn : 0 < n) (h : Single n s) (hpc : s.clients 0 = .idle) :
    ∃ s', Leads n s s' ∧ Single n s' ∧ s'.clients 0 = .destroyed := by
  have hstep : (machine n).step s (.destroy 0)
      = some { s with clients := Function.update s.clients 0 (.stopping 0) } := by
    show step n s (.destroy 0) = _
    simp only [step, if_pos hpc]
  obtain ⟨s₁, hleads₁, h₁, hdone⟩ := stopping_returns hn
    (h.step (a := .destroy 0) rfl hstep) (i := 0) (by simp)
  have hcalled : Leads n s _ := Machine.Leads.step (a := Action.destroy 0) rfl hstep
  exact ⟨s₁, hcalled.trans hleads₁, h₁, hdone⟩

/-- **Every run of one thread can be completed**: from every state it reaches, a
schedule leads to the end of the destructor. -/
theorem can_complete (hn : 0 < n) (h : Single n s) :
    ∃ s', Leads n s s' ∧ Single n s' ∧ s'.clients 0 = .destroyed := by
  cases hpc : s.clients 0 with
  | idle => exact idle_completes hn h hpc
  | submitting call =>
    have hcall : s.call (.client 0) = some call := by
      rw [State.call, hpc]
      rfl
    obtain ⟨s₁, halone, hidle, hnone, -⟩ := submit_returns (n := n) hcall
    have hleads₁ := Leads.of_alone halone
    obtain ⟨s₂, hleads₂, h₂, hdone⟩ := idle_completes hn (h.leads hleads₁)
      (hidle.trans (by rw [hnone]; rfl))
    exact ⟨s₂, hleads₁.trans hleads₂, h₂, hdone⟩
  | waiting since =>
    obtain ⟨s₁, hleads₁, h₁, hidle⟩ := waitIdle_returns hn h hpc
    obtain ⟨s₂, hleads₂, h₂, hdone⟩ := idle_completes hn h₁ hidle
    exact ⟨s₂, hleads₁.trans hleads₂, h₂, hdone⟩
  | stopping i => exact stopping_returns hn h hpc
  | joining i => exact joining_returns hn h hpc
  | destroyed => exact ⟨s, Machine.Leads.refl s, h, hpc⟩

end JobSystem

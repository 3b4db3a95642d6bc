import Mathlib.Algebra.Order.BigOperators.Group.Finset
import SapCore.JobSystemLedger
import SapCore.JobSystemMemory

/-!
# Which jobs are where

The first part of what holds in every state of the job system: where its jobs are, and that its
queues are in order. Nothing here depends on what the loads get, but for the queues themselves,
whose invariant is that of `SpscQueueMemory`; a queue is not disturbed by operations on other
locations (`Inv.op`), those of the other queues among them.

The counts at the end are about `m_pending_jobs`. It is behind the queues by at most one job on
one side, which is pushed before it is counted, and by what the queues and the workers can hold on
the other, so that 32 bits are enough for it as long as there are fewer than `2 ^ 20` workers.
-/

namespace JobSystemMemory

open JobSystem (Submit Client Thread queueIndex queueIndex_lt queueCapacity)
open SpscQueue (Push Pop)

/-! ## The owner -/

/-- The job a client has pushed and not counted. -/
def uncounted : Client → List Job
  | .submitting (.count job) => [job]
  | _ => []

/-- The first job that has not been pushed and can still be, where `k` have been submitted. -/
def nextJob (k : ℕ) : Client → Job
  | .submitting (.fetchQueue _) => k
  | .submitting (.push _ _ _) => k
  | _ => k + 1

/-- **The jobs of the owner**: a call is made with the last job submitted, jobs are pushed once and
to queues that are there, and what was pushed was counted or is about to be. -/
structure OwnerOk (n : ℕ) (owner : Client) (inputs : List ℕ) (pushed : ℕ → List Job)
    (accepted : List Job) : Prop where
  call : ∀ c, owner.call = some c → c.job = inputs.length ∧ 0 < c.job
  range : ∀ w, ∀ j ∈ pushed w, 0 < j ∧ j < nextJob inputs.length owner
  nodup : ∀ w, (pushed w).Nodup
  apart : ∀ v w j, j ∈ pushed v → j ∈ pushed w → v = w
  unused : ∀ w, n ≤ w → pushed w = []
  total : ∑ w ∈ Finset.range n, (pushed w).length = accepted.length + (uncounted owner).length
  counted : ∀ j, j ∈ accepted ++ uncounted owner → ∃ w, j ∈ pushed w

variable {n : ℕ} {work : Job → ℕ → ℕ} {s s' : State} {client client' : Client} {inputs : List ℕ}
  {pushed popped finished : ℕ → List Job} {accepted : List Job}

namespace OwnerOk

variable (h : OwnerOk n client inputs pushed accepted)
include h

/-- The owner goes elsewhere with the job it has. -/
theorem move (hcall : ∀ c, client'.call = some c → ∃ d, client.call = some d ∧ c.job = d.job)
    (hnext : nextJob inputs.length client ≤ nextJob inputs.length client')
    (hcount : uncounted client' = uncounted client) :
    OwnerOk n client' inputs pushed accepted where
  call c hc := by
    obtain ⟨d, hd, hjob⟩ := hcall c hc
    rw [hjob]
    exact h.call d hd
  range w j hj := ⟨(h.range w j hj).1, (h.range w j hj).2.trans_le hnext⟩
  nodup := h.nodup
  apart := h.apart
  unused := h.unused
  total := by rw [hcount]; exact h.total
  counted := by rw [hcount]; exact h.counted

/-- The owner goes from one place outside `submit` to another. -/
theorem outside (hclient : client.call = none) (hclient' : client'.call = none) :
    OwnerOk n client' inputs pushed accepted := by
  refine h.move (fun c hc => ?_) ?_ ?_
  · rw [hclient'] at hc
    cases hc
  · cases client <;> cases client' <;> simp_all [nextJob, Client.call]
  · cases client <;> cases client' <;> simp_all [uncounted, Client.call]

/-- A call of `submit` begins. -/
theorem submit (hidle : client = .idle) (x : ℕ) :
    OwnerOk n (.submitting (.fetchQueue (inputs.length + 1))) (inputs ++ [x]) pushed accepted := by
  subst hidle
  refine ⟨?_, fun w j hj => ?_, h.nodup, h.apart, h.unused, h.total, h.counted⟩
  · rintro c ⟨⟩
    rw [List.length_append]
    exact ⟨rfl, Nat.succ_pos _⟩
  · rw [List.length_append]
    exact h.range w j hj

/-- **The job of a call is pushed.** -/
theorem push {v start round : ℕ} {pc : Push Job}
    (hclient : client = .submitting (.push start round pc)) (hv : v < n) :
    OwnerOk n (.submitting (.count pc.item)) inputs
      (Function.update pushed v (pushed v ++ [pc.item])) accepted := by
  subst hclient
  obtain ⟨hjob, hpos⟩ := h.call _ rfl
  change pc.item = inputs.length at hjob
  change 0 < pc.item at hpos
  have hfresh : ∀ w, pc.item ∉ pushed w := fun w hmem => by
    have hlt : pc.item < inputs.length := (h.range w _ hmem).2
    exact absurd hjob (ne_of_lt hlt)
  have hmem : ∀ w j, j ∈ Function.update pushed v (pushed v ++ [pc.item]) w →
      j ∈ pushed w ∨ (w = v ∧ j = pc.item) := by
    intro w j hj
    rw [Function.update_apply] at hj
    split at hj
    · rename_i hw
      rw [hw]
      obtain hj | hj := List.mem_append.mp hj
      · exact .inl hj
      · exact .inr ⟨rfl, List.mem_singleton.mp hj⟩
    · exact .inl hj
  refine ⟨?_, ?_, ?_, ?_, ?_, ?_, ?_⟩
  · rintro c ⟨⟩
    exact ⟨hjob, hpos⟩
  · intro w j hj
    obtain hj | ⟨-, rfl⟩ := hmem w j hj
    · exact ⟨(h.range w j hj).1, (h.range w j hj).2.trans (Nat.lt_succ_self _)⟩
    · exact ⟨hpos, hjob.le.trans_lt (Nat.lt_succ_self _)⟩
  · intro w
    rw [Function.update_apply]
    split
    · refine List.Nodup.append (h.nodup v) (List.nodup_singleton _) ?_
      intro j hj hj'
      rw [List.mem_singleton.mp hj'] at hj
      exact hfresh v hj
    · exact h.nodup w
  · intro a b j ha hb
    obtain ha | ⟨ha, hja⟩ := hmem a j ha <;> obtain hb | ⟨hb, hjb⟩ := hmem b j hb
    · exact h.apart a b j ha hb
    · exact absurd (hjb ▸ ha) (hfresh a)
    · exact absurd (hja ▸ hb) (hfresh b)
    · rw [ha, hb]
  · intro w hw
    rw [Function.update_of_ne (by omega)]
    exact h.unused w hw
  · rw [JobSystem.sum_length_update pushed hv, h.total]
    rfl
  · intro j hj
    rw [List.mem_append] at hj
    obtain hj | hj := hj
    · obtain ⟨w, hw⟩ := h.counted j (List.mem_append_left _ hj)
      refine ⟨w, ?_⟩
      rw [Function.update_apply]
      split
      · rename_i hwv
        exact List.mem_append_left _ (hwv ▸ hw)
      · exact hw
    · refine ⟨v, ?_⟩
      rw [Function.update_self, List.mem_singleton.mp hj]
      exact List.mem_append_right _ (List.mem_singleton_self _)

/-- The job of a call is counted. -/
theorem count {job : Job} (hclient : client = .submitting (.count job)) :
    OwnerOk n .idle inputs pushed (accepted ++ [job]) := by
  subst hclient
  refine ⟨nofun, h.range, h.nodup, h.apart, h.unused, ?_, ?_⟩
  · rw [List.length_append]
    exact h.total
  · intro j hj
    exact h.counted j (by simpa [uncounted] using hj)

end OwnerOk

/-! ## The workers -/

/-- The job a worker has taken and not finished. -/
def Worker.holding : Worker → List Job
  | .readInput _ job => [job]
  | .writeOutput _ job _ => [job]
  | _ => []

/-- The job a worker has finished and not subtracted. -/
def Worker.owing : Worker → List Job
  | .subtract _ job => [job]
  | _ => []

/-- The job that an entry subtracts for a worker. -/
def Entry.subtractedBy (w : ℕ) : Entry → Option Job
  | .added _ => none
  | .subtracted v job => if v = w then some job else none

/-- The number of jobs added in a ledger. -/
def additions (ledger : List Entry) : ℕ := (ledger.filterMap Entry.accepted).length

/-- The number of jobs subtracted. -/
def subtractions (ledger : List Entry) : ℕ := ledger.countP (fun e => e.accepted.isNone)

@[simp] theorem additions_added (ledger : List Entry) (job : Job) :
    additions (ledger ++ [.added job]) = additions ledger + 1 := by
  simp [additions, Entry.accepted]

@[simp] theorem additions_subtracted (ledger : List Entry) (w : ℕ) (job : Job) :
    additions (ledger ++ [.subtracted w job]) = additions ledger := by
  simp [additions, Entry.accepted]

@[simp] theorem subtractions_added (ledger : List Entry) (job : Job) :
    subtractions (ledger ++ [.added job]) = subtractions ledger := by
  simp [subtractions, Entry.accepted]

@[simp] theorem subtractions_subtracted (ledger : List Entry) (w : ℕ) (job : Job) :
    subtractions (ledger ++ [.subtracted w job]) = subtractions ledger + 1 := by
  simp [subtractions, Entry.accepted]

/-- The jobs a worker has subtracted. -/
def subtracted (ledger : List Entry) (w : ℕ) : List Job := ledger.filterMap (Entry.subtractedBy w)

@[simp] theorem subtracted_added (ledger : List Entry) (job : Job) :
    subtracted (ledger ++ [.added job]) = subtracted ledger := by
  funext w
  simp [subtracted, Entry.subtractedBy]

@[simp] theorem subtracted_subtracted (ledger : List Entry) (v : ℕ) (job : Job) :
    subtracted (ledger ++ [.subtracted v job])
      = Function.update (subtracted ledger) v (subtracted ledger v ++ [job]) := by
  funext w
  rw [Function.update_apply]
  by_cases hv : w = v
  · simp [subtracted, Entry.subtractedBy, hv]
  · simp [subtracted, Entry.subtractedBy, hv, Ne.symm hv]

theorem mem_subtracted {ledger : List Entry} {w : ℕ} {job : Job} :
    job ∈ subtracted ledger w ↔ .subtracted w job ∈ ledger := by
  rw [subtracted, List.mem_filterMap]
  constructor
  · rintro ⟨e, he, hjob⟩
    cases e with
    | added j => cases hjob
    | subtracted v j =>
      rw [Entry.subtractedBy, Option.ite_none_right_eq_some] at hjob
      obtain ⟨rfl, hjob⟩ := hjob
      cases hjob
      exact he
  · intro hmem
    exact ⟨_, hmem, if_pos rfl⟩

/-- **The jobs of the workers**: what one has taken it has finished or holds, and what it has
finished it has subtracted or is about to. -/
structure WorkersOk (n : ℕ) (workers : ℕ → Worker) (popped finished : ℕ → List Job)
    (ledger : List Entry) : Prop where
  popped : ∀ w, popped w = finished w ++ (workers w).holding
  finished : ∀ w, finished w = subtracted ledger w ++ (workers w).owing
  total : ∑ w ∈ Finset.range n, (subtracted ledger w).length = subtractions ledger

variable {workers : ℕ → Worker} {ledger : List Entry}

namespace WorkersOk

variable (h : WorkersOk n workers popped finished ledger)
include h

/-- A worker goes elsewhere with the jobs it has. -/
theorem move {w : ℕ} {pc : Worker} (hholding : pc.holding = (workers w).holding)
    (howing : pc.owing = (workers w).owing) :
    WorkersOk n (Function.update workers w pc) popped finished ledger := by
  have hsame : ∀ {f : Worker → List Job}, f pc = f (workers w) → ∀ v,
      f (Function.update workers w pc v) = f (workers v) := by
    intro f hf v
    rw [Function.update_apply]
    split
    · rename_i hv
      rw [hf, hv]
    · rfl
  refine ⟨fun v => ?_, fun v => ?_, h.total⟩
  · rw [hsame hholding, h.popped]
  · rw [hsame howing, h.finished]

/-- A worker takes what `try_pop` has taken. -/
theorem take {w : ℕ} {pc : Worker} {jobs : List Job} (hnone : (workers w).holding = [])
    (hholding : pc.holding = jobs) (howing : pc.owing = (workers w).owing) :
    WorkersOk n (Function.update workers w pc) (Function.update popped w (popped w ++ jobs))
      finished ledger := by
  refine ⟨fun v => ?_, fun v => ?_, h.total⟩
  · by_cases hv : v = w
    · subst hv
      rw [Function.update_self, Function.update_self, h.popped, hnone, hholding, List.append_nil]
    · rw [Function.update_of_ne hv, Function.update_of_ne hv, h.popped]
  · by_cases hv : v = w
    · subst hv
      rw [Function.update_self, howing, h.finished]
    · rw [Function.update_of_ne hv, h.finished]

/-- A worker finishes the job it holds. -/
theorem finish {w : ℕ} {pc : Worker} {job : Job} (hjob : (workers w).holding = [job])
    (hnone : (workers w).owing = []) (hholding : pc.holding = []) (howing : pc.owing = [job]) :
    WorkersOk n (Function.update workers w pc) popped
      (Function.update finished w (finished w ++ [job])) ledger := by
  refine ⟨fun v => ?_, fun v => ?_, h.total⟩
  · by_cases hv : v = w
    · subst hv
      rw [Function.update_self, Function.update_self, h.popped, hjob, hholding, List.append_nil]
    · rw [Function.update_of_ne hv, Function.update_of_ne hv, h.popped]
  · by_cases hv : v = w
    · subst hv
      rw [Function.update_self, Function.update_self, howing, h.finished, hnone, List.append_nil]
    · rw [Function.update_of_ne hv, Function.update_of_ne hv, h.finished]

/-- A worker subtracts the job it has finished. -/
theorem subtract {w : ℕ} {pc : Worker} {job : Job} (hw : w < n) (hjob : (workers w).owing = [job])
    (hnone : (workers w).holding = []) (hholding : pc.holding = []) (howing : pc.owing = []) :
    WorkersOk n (Function.update workers w pc) popped finished
      (ledger ++ [.subtracted w job]) := by
  refine ⟨fun v => ?_, fun v => ?_, ?_⟩
  · by_cases hv : v = w
    · subst hv
      rw [Function.update_self, h.popped, hnone, hholding]
    · rw [Function.update_of_ne hv, h.popped]
  · rw [subtracted_subtracted]
    by_cases hv : v = w
    · subst hv
      rw [Function.update_self, Function.update_self, howing, h.finished, hjob, List.append_nil]
    · rw [Function.update_of_ne hv, Function.update_of_ne hv, h.finished]
  · rw [subtracted_subtracted, subtractions_subtracted, JobSystem.sum_length_update _ hw, h.total]
    rfl

theorem count (job : Job) :
    WorkersOk n workers popped finished (ledger ++ [.added job]) := by
  refine ⟨h.popped, fun w => ?_, ?_⟩
  · rw [subtracted_added]
    exact h.finished w
  · rw [subtracted_added, subtractions_added]
    exact h.total

end WorkersOk

/-! ## Steps -/

/-- **Every step keeps the jobs of the owner in order.** -/
theorem ownerOk_step (hn : 0 < n) (h : OwnerOk n s.owner s.inputs s.pushed s.accepted)
    (hmove : Moves n work s s') : OwnerOk n s'.owner s'.inputs s'.pushed s'.accepted := by
  cases hmove with
  | submit x howner => exact h.submit howner x
  | waitIdle howner => exact h.outside (by rw [howner]; rfl) rfl
  | destroy howner => exact h.outside (by rw [howner]; rfl) rfl
  | @fetchQueue job v M howner hfetch =>
    rw [howner] at h
    exact h.move (fun c hc => ⟨_, rfl, by cases hc; rfl⟩) (le_refl _) rfl
  | @push start round i pc M out howner hpush =>
    obtain ⟨hmore, hfull, hdone⟩ := SpscQueue.Site.tryPush_published hpush
    cases out with
    | inl pc' =>
      obtain ⟨hnone, hitem⟩ := hmore pc' rfl
      rw [hnone, List.append_nil, Function.update_eq_self]
      rw [howner] at h
      exact h.move (fun c hc => ⟨_, rfl, by cases hc; exact hitem⟩) (le_refl _) rfl
    | inr result =>
      cases result with
      | true =>
        rw [hdone rfl]
        exact h.push howner (queueIndex_lt hn _ _)
      | false =>
        rw [hfull rfl, List.append_nil, Function.update_eq_self]
        rw [howner] at h
        rw [afterPush]
        split
        · exact h.move (fun c hc => ⟨_, rfl, by cases hc; rfl⟩) (le_refl _) rfl
        · exact h.move (fun c hc => nomatch hc) (Nat.le_succ _) rfl
  | @count job v M howner hfetch =>
    rw [State.accepted, List.filterMap_append]
    exact h.count howner
  | @wait since i v M howner hload =>
    refine h.outside (by rw [howner]; rfl) ?_
    split <;> rfl
  | stop howner hw => exact h.outside (by rw [howner]; rfl) rfl
  | stopped howner => exact h.outside (by rw [howner]; rfl) rfl
  | join howner hw hexited => exact h.outside (by rw [howner]; rfl) rfl
  | joined howner hw => exact h.outside (by rw [howner]; rfl) rfl
  | checkStop hw hworker hload => exact h
  | pop hw hworker hpop => exact h
  | readInput hw hworker => exact h
  | writeOutput hw hworker => exact h
  | subtract hw hworker hfetch =>
    rw [State.accepted, List.filterMap_append]
    exact (List.append_nil s.accepted).symm ▸ h

/-- **Every step keeps the jobs of the workers in order.** -/
theorem workersOk_step (h : WorkersOk n s.workers s.popped s.finished s.ledger)
    (hmove : Moves n work s s') : WorkersOk n s'.workers s'.popped s'.finished s'.ledger := by
  cases hmove with
  | submit x howner => exact h
  | waitIdle howner => exact h
  | destroy howner => exact h
  | fetchQueue howner hfetch => exact h
  | push howner hpush => exact h
  | count howner hfetch => exact h.count _
  | wait howner hload => exact h
  | stop howner hw => exact h
  | stopped howner => exact h
  | join howner hw hexited => exact h
  | joined howner hw => exact h
  | checkStop hw hworker hload => exact h.move (by rw [hworker]; rfl) (by rw [hworker]; rfl)
  | @pop w i draining pc M out hw hworker hpop =>
    obtain ⟨hmore, hnone, hitem⟩ := SpscQueue.Site.tryPop_taken hpop
    refine h.take (by rw [hworker]; rfl) ?_ ?_
    · cases out with
      | inl pc' => rw [hmore pc' rfl]; rfl
      | inr result =>
        cases result with
        | none => rw [hnone rfl, afterPop]; split <;> rfl
        | some job => rw [hitem job rfl]; rfl
    · rw [hworker]
      cases out with
      | inl pc' => rfl
      | inr result =>
        cases result with
        | none => rw [afterPop]; split <;> rfl
        | some job => rfl
  | readInput hw hworker => exact h.move (by rw [hworker]; rfl) (by rw [hworker]; rfl)
  | writeOutput hw hworker =>
    exact h.finish (by rw [hworker]; rfl) (by rw [hworker]; rfl) rfl rfl
  | @subtract w v draining job M hw hworker hfetch =>
    refine h.subtract hw (by rw [hworker]; rfl) (by rw [hworker]; rfl) ?_ ?_
    · rw [afterJob]
      split <;> rfl
    · rw [afterJob]
      split <;> rfl

/-! ## The queues -/

/-- **The queues are in order**, and the calls inside them know what they need to. -/
structure QueuesOk (n : ℕ) (M : Memory) (client : Client) (workers : ℕ → Worker)
    (pushed popped : ℕ → List Job) : Prop where
  inv : ∀ w, (queue w).Inv (2 ^ 12) M (pushed w) (popped w)
  push : ∀ start round pc, client = .submitting (.push start round pc) →
    (queue (queueIndex n start round)).PushOk (2 ^ 12) M (pushed (queueIndex n start round)) pc
  pop : ∀ w draining pc, workers w = .pop draining pc →
    (queue w).PopOk (2 ^ 12) M (pushed w) (popped w) pc

variable {M M' : Memory}

namespace QueuesOk

variable (h : QueuesOk n M client workers pushed popped)
include h

theorem sound : M.Sound := (h.inv 0).sound

/-- **An operation that does not touch the queues.** -/
theorem op {t : Thread} {target : Option (Location ⊕ Cell)} (hop : M.Op t target M')
    (hhead : ∀ w, target ≠ some (.inl (.head w))) (htail : ∀ w, target ≠ some (.inl (.tail w)))
    (hslot : ∀ w i, target ≠ some (.inr (.slot w i))) :
    QueuesOk n M' client workers pushed popped where
  inv w := (h.inv w).op hop (hhead w) (htail w) (hslot w)
  push start round pc hpc := (h.push start round pc hpc).mono (hop.seen_le h.sound _ _)
    (fun i => congrArg SharedMemory.Cell.value (hop.cell_eq (hslot _ i)))
  pop w draining pc hpc := (h.pop w draining pc hpc).mono (hop.seen_le h.sound _ _)

/-- The owner goes elsewhere. -/
theorem setClient (hclient : ∀ start round pc, client' = .submitting (.push start round pc) →
      pc = .loadHead pc.item) : QueuesOk n M client' workers pushed popped where
  inv := h.inv
  push start round pc hpc := by
    rw [hclient start round pc hpc]
    trivial
  pop := h.pop

/-- A worker goes elsewhere. -/
theorem setWorker {w : ℕ} {pc : Worker} (hpc : ∀ draining pc', pc = .pop draining pc' →
      pc' = .loadTail) : QueuesOk n M client (Function.update workers w pc) pushed popped where
  inv := h.inv
  push := h.push
  pop v draining pc' hpc' := by
    rw [Function.update_apply] at hpc'
    split at hpc'
    · rw [hpc draining pc' hpc']
      trivial
    · exact h.pop v draining pc' hpc'

/-- An access to queue `v` leaves the others in order. -/
theorem effect {v : ℕ} {t : Thread} {l : Location} {items : List Job}
    (heffect : (queue v).Effect M t l items M') (hl : l = .head v ∨ l = .tail v) {w : ℕ}
    (hw : w ≠ v) : (queue w).Inv (2 ^ 12) M' (pushed w) (popped w) := by
  refine (h.inv w).effect heffect ?_ ?_ ?_
  · rintro rfl
    obtain heq | heq := hl <;> cases heq
    exact hw rfl
  · rintro rfl
    obtain heq | heq := hl <;> cases heq
    exact hw rfl
  · intro a b heq
    cases heq
    exact hw rfl

/-- **An access of `try_push`** in a call of `submit`. -/
theorem tryPush {start round i : ℕ} {pc : Push Job} {out : Push Job ⊕ Bool}
    (hclient : client = .submitting (.push start round pc))
    (hpush : (queue (queueIndex n start round)).tryPush (2 ^ 12) M i pc = some (M', out)) :
    QueuesOk n M' (afterPush n start round pc.item out) workers
      (Function.update pushed (queueIndex n start round)
        (pushed (queueIndex n start round) ++ pc.published)) popped := by
  obtain ⟨hinv, hok, -⟩ := SpscQueue.Site.tryPush_spec (h.inv _) (h.push _ _ _ hclient) hpush
  have heffect := SpscQueue.Site.tryPush_effect (h.inv _) hpush
  have hseen := heffect.seen_le h.sound
  refine ⟨fun w => ?_, fun start' round' pc' hpc' => ?_, fun w draining pc' hpc' => ?_⟩
  · rw [Function.update_apply]
    split
    · rename_i hw
      exact hw ▸ hinv
    · exact h.effect heffect (.inl rfl) ‹_›
  · cases out with
    | inl pc'' =>
      cases hpc'
      rw [Function.update_self]
      exact hok _ rfl
    | inr result =>
      cases result with
      | true => cases hpc'
      | false =>
        rw [afterPush] at hpc'
        split at hpc'
        · cases hpc'
          trivial
        · cases hpc'
  · have hpop : (queue w).PopOk (2 ^ 12) M' (pushed w) (popped w) pc' :=
      (h.pop w draining pc' hpc').mono (hseen _ _)
    rw [Function.update_apply]
    split
    · rename_i hw
      exact hw ▸ hpop.append _
    · exact hpop

/-- **An access of `try_pop`** in `worker_main`. -/
theorem tryPop {w i : ℕ} {draining : Bool} {pc : Pop Job} {out : Pop Job ⊕ Option Job}
    (hworker : workers w = .pop draining pc)
    (hpop : (queue w).tryPop (2 ^ 12) M i pc = some (M', out)) :
    QueuesOk n M' client (Function.update workers w (afterPop draining out)) pushed
      (Function.update popped w (popped w ++ pc.taken)) := by
  obtain ⟨hinv, hok, -⟩ := SpscQueue.Site.tryPop_spec (h.inv w) (h.pop _ _ _ hworker) hpop
  have heffect := SpscQueue.Site.tryPop_effect (h.inv w) hpop
  have hseen := heffect.seen_le h.sound
  refine ⟨fun v => ?_, fun start round pc' hpc' => ?_, fun v draining' pc' hpc' => ?_⟩
  · rw [Function.update_apply]
    split
    · rename_i hv
      exact hv ▸ hinv
    · exact h.effect heffect (.inr rfl) ‹_›
  · exact (h.push start round pc' hpc').mono (hseen _ _)
      (fun i => SpscQueue.Site.tryPop_value hpop _)
  · by_cases hv : v = w
    · subst hv
      rw [Function.update_self] at hpc' ⊢
      cases out with
      | inl pc'' =>
        cases hpc'
        exact hok _ rfl
      | inr result =>
        cases result with
        | some job => cases hpc'
        | none =>
          rw [afterPop] at hpc'
          split at hpc' <;> cases hpc'
    · rw [Function.update_of_ne hv] at hpc' ⊢
      exact (h.pop v draining' pc' hpc').mono (hseen _ _)

end QueuesOk

/-- **Every step keeps the queues in order.** -/
theorem queuesOk_step (h : QueuesOk n s.memory s.owner s.workers s.pushed s.popped)
    (hmove : Moves n work s s') :
    QueuesOk n s'.memory s'.owner s'.workers s'.pushed s'.popped := by
  cases hmove with
  | submit x howner => exact (h.op (.write (.input _) x) nofun nofun nofun).setClient nofun
  | waitIdle howner => exact h.setClient nofun
  | destroy howner => exact h.setClient nofun
  | fetchQueue howner hfetch =>
    refine (h.op (SharedMemory.op_fetchRelaxed hfetch) nofun nofun nofun).setClient ?_
    rintro start round pc ⟨⟩
    rfl
  | push howner hpush => exact h.tryPush howner hpush
  | count howner hfetch =>
    exact (h.op (SharedMemory.op_fetchRelease hfetch) nofun nofun nofun).setClient nofun
  | wait howner hload =>
    refine (h.op (SharedMemory.op_loadAcquire hload) nofun nofun nofun).setClient ?_
    intro start round pc hpc
    split at hpc <;> cases hpc
  | @stop w howner hw =>
    exact (h.op (.store (.thread owner) (.stop w) 1) nofun nofun nofun).setClient nofun
  | stopped howner => exact h.setClient nofun
  | @join w howner hw hexited =>
    exact (h.op (.join (.thread (.worker w))) nofun nofun nofun).setClient nofun
  | joined howner hw => exact h.setClient nofun
  | checkStop hw hworker hload =>
    refine (h.op (SharedMemory.op_loadAcquire hload) nofun nofun nofun).setWorker ?_
    rintro draining pc ⟨⟩
    rfl
  | pop hw hworker hpop => exact h.tryPop hworker hpop
  | readInput hw hworker => exact (h.op (.read (.input _)) nofun nofun nofun).setWorker nofun
  | writeOutput hw hworker =>
    exact (h.op (.write (.output _) _) nofun nofun nofun).setWorker nofun
  | @subtract w v draining job M hw hworker hfetch =>
    refine (h.op (SharedMemory.op_fetchRelease hfetch) nofun nofun nofun).setWorker ?_
    intro draining' pc hpc
    rw [afterJob] at hpc
    split at hpc
    · cases hpc
      rfl
    · cases hpc

/-! ## Counts -/

/-- **What `m_pending_jobs` can be behind by**: the jobs that were pushed are counted but for one,
and those that were subtracted are all but what the queues and the workers hold. -/
theorem balance (howner : OwnerOk n client inputs pushed (ledger.filterMap Entry.accepted))
    (hworkers : WorkersOk n workers popped finished ledger)
    (hqueues : QueuesOk n M client workers pushed popped) :
    additions ledger ≤ subtractions ledger + n * 4096
      ∧ subtractions ledger ≤ additions ledger + (uncounted client).length := by
  have htotal := howner.total
  have hsubtracted := hworkers.total
  have hupper : ∑ w ∈ Finset.range n, (pushed w).length
      ≤ ∑ w ∈ Finset.range n, ((subtracted ledger w).length + 4096) := by
    refine Finset.sum_le_sum (fun w _ => ?_)
    have hfree := (hqueues.inv w).free
    have hpopped := congrArg List.length (hworkers.popped w)
    have hfinished := congrArg List.length (hworkers.finished w)
    rw [List.length_append] at hpopped hfinished
    have hone : (workers w).holding.length + (workers w).owing.length ≤ 1 := by
      cases workers w <;> simp [Worker.holding, Worker.owing]
    omega
  have hlower : ∑ w ∈ Finset.range n, (subtracted ledger w).length
      ≤ ∑ w ∈ Finset.range n, (pushed w).length := by
    refine Finset.sum_le_sum (fun w _ => ?_)
    have hle := (hqueues.inv w).fifo.length_le
    have hpopped := congrArg List.length (hworkers.popped w)
    have hfinished := congrArg List.length (hworkers.finished w)
    rw [List.length_append] at hpopped hfinished
    omega
  rw [Finset.sum_add_distrib, Finset.sum_const_nat (fun _ _ => rfl), Finset.card_range] at hupper
  rw [additions]
  omega

end JobSystemMemory

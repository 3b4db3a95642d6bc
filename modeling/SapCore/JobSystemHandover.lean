import SapCore.JobSystemMemoryQueues
import SapCore.JobSystemOneSubmitter

/-!
# What the job system hands over

A job works on what was written before it was submitted, and what it writes is to be read after
`wait_idle` or the destructor. Nothing but the atomics of the job system orders these accesses, and
each hand-over goes a way of its own.

The inputs go with the heads of the queues: a view that has seen the head after `i` jobs knows the
inputs of those jobs (`KnowsInputs`), and a worker has seen it when it takes the job. The outputs
go with `m_pending_jobs`. A `fetch_sub` acquires nothing, so that a view that has seen the counter
need not know the outputs; but the messages of the counter are one release sequence, and each hands
on what the workers knew that changed it before (`PendingOk.known`). The owner acquires such a
message in `wait_idle`, and as it has seen its own additions, a zero is the last message
(`PendingOk.last_of_zero`): it cannot be one from before a job was counted.

On destruction the stop flag hands the heads of the queues to the workers, so that a worker that
drains its queue cannot miss a job by an old head (`StopsOk.exited`), and joining it hands its
outputs to the owner.
-/

namespace JobSystemMemory

open JobSystem (Submit Client Thread queueIndex)
open SharedMemory (View Message)
open SpscQueue (Push Pop)

variable {n : ℕ} {work : Job → ℕ → ℕ} {s s' : State} {client client' : Client} {inputs : List ℕ}
  {pushed popped finished : ℕ → List Job} {workers : ℕ → Worker} {ledger : List Entry}
  {M M' : Memory} {t : Thread} {target : Option (Location ⊕ Cell)}

/-! ## Inputs -/

/-- The clock of the write to an input. -/
def inputClock (M : Memory) (j : Job) : ℕ := (M.cell (.input j)).writes owner

/-- **What a view knows of the inputs**: those of the jobs before a head that it has seen. -/
def KnowsInputs (clock : Job → ℕ) (pushed : ℕ → List Job) (V : View Thread Location) : Prop :=
  ∀ w i j, i < V.seen (.head w) → (pushed w)[i]? = some j → clock j ≤ V.known owner

namespace KnowsInputs

variable {clock : Job → ℕ} {V W : View Thread Location}

theorem sup (hV : KnowsInputs clock pushed V) (hW : KnowsInputs clock pushed W) :
    KnowsInputs clock pushed (V ⊔ W) := by
  intro w i j hi hj
  rw [View.seen_sup, lt_max_iff] at hi
  rw [View.known_sup]
  obtain hi | hi := hi
  · exact le_max_of_le_left (hV w i j hi hj)
  · exact le_max_of_le_right (hW w i j hi hj)

theorem tick (hV : KnowsInputs clock pushed V) (t : Thread) :
    KnowsInputs clock pushed (V.tick t) :=
  fun w i j hi hj => (hV w i j hi hj).trans (View.known_le_tick _ _ _)

theorem see (hV : KnowsInputs clock pushed V) {l : Location} (hl : ∀ w, l ≠ .head w) (k : ℕ) :
    KnowsInputs clock pushed (V.see l k) := by
  intro w i j hi hj
  rw [View.seen_see, Function.update_of_ne (hl w).symm] at hi
  exact hV w i j hi hj

end KnowsInputs

/-- **The inputs**: they hold what the owner wrote, who alone writes there, and those of jobs to
come have not been read. -/
structure InputsOk (M : Memory) (inputs : List ℕ) (pushed : ℕ → List Job) : Prop where
  value : ∀ (i x : ℕ), inputs[i]? = some x → (M.cell (.input (i + 1))).value = x
  writer : ∀ j u, u ≠ owner → (M.cell (.input j)).writes u = 0
  unread : ∀ j, inputs.length < j → ∀ u, (M.cell (.input j)).reads u = 0
  views : M.Everywhere (KnowsInputs (inputClock M) pushed)

namespace InputsOk

variable (h : InputsOk M inputs pushed)
include h

/-- An operation on other locations. -/
theorem op (hop : M.Op t target M') (hinput : ∀ j, target ≠ some (.inr (.input j)))
    (hhead : ∀ w, target ≠ some (.inl (.head w))) : InputsOk M' inputs pushed where
  value i x hi := by rw [hop.cell_eq (hinput _)]; exact h.value i x hi
  writer j u hu := by rw [hop.cell_eq (hinput _)]; exact h.writer j u hu
  unread j hj u := by rw [hop.cell_eq (hinput _)]; exact h.unread j hj u
  views := by
    have hclock : inputClock M' = inputClock M := funext fun j => by
      rw [inputClock, hop.cell_eq (hinput j), inputClock]
    rw [hclock]
    refine hop.everywhere h.views (fun _ _ hV hW => hV.sup hW) (fun _ u hV => hV.tick u) ?_
    intro V l i hl hV
    exact hV.see (fun w heq => hhead w (by rw [hl, heq])) i

/-- **The owner writes the input of the next job.** -/
theorem submit (hrange : ∀ w, ∀ j ∈ pushed w, j ≤ inputs.length) (x : ℕ) :
    InputsOk (M.write owner (.input (inputs.length + 1)) x) (inputs ++ [x]) pushed := by
  have hother : ∀ j, j ≠ inputs.length + 1 →
      (M.write owner (.input (inputs.length + 1)) x).cell (.input j) = M.cell (.input j) := by
    intro j hj
    refine Function.update_of_ne (fun heq => hj ?_) _ _
    exact Cell.input.inj heq
  refine ⟨fun i y hi => ?_, fun j u hu => ?_, fun j hj u => ?_, ?_⟩
  · by_cases hlast : i = inputs.length
    · subst hlast
      rw [List.getElem?_concat_length] at hi
      rw [SharedMemory.write_value]
      exact Option.some_injective _ hi
    · have hlt : i < inputs.length := by
        have := (List.getElem?_eq_some_iff.mp hi).1
        rw [List.length_append, List.length_singleton] at this
        omega
      rw [List.getElem?_append_left hlt] at hi
      rw [hother _ (fun heq => hlast (Nat.succ_injective heq))]
      exact h.value i y hi
  · rw [SharedMemory.write_writes_of_ne hu]
    exact h.writer j u hu
  · rw [List.length_append] at hj
    rw [SharedMemory.write_reads]
    exact h.unread j (Nat.lt_of_succ_lt hj) u
  · have hclock : ∀ V, KnowsInputs (inputClock M) pushed V →
        KnowsInputs (inputClock (M.write owner (.input (inputs.length + 1)) x)) pushed V := by
      intro V hV w i j hi hj
      have hle := hrange w j (List.mem_of_getElem? hj)
      rw [inputClock, hother j (Nat.ne_of_lt (Nat.lt_succ_of_le hle))]
      exact hV w i j hi hj
    refine (h.views.mono hclock).access ?_
    exact (hclock _ (h.views.thread owner)).tick owner

/-- **A worker reads the input of its job.** -/
theorem read {job : Job} (hjob : job ≤ inputs.length) :
    InputsOk (M.read t (.input job)).2 inputs pushed where
  value i x hi := by rw [SharedMemory.read_value]; exact h.value i x hi
  writer j u hu := by rw [SharedMemory.read_writes]; exact h.writer j u hu
  unread j hj u := by
    have hne : Cell.input j ≠ .input job := fun heq =>
      Nat.ne_of_lt (Nat.lt_of_le_of_lt hjob hj) (Cell.input.inj heq).symm
    rw [show (M.read t (.input job)).2.cell (.input j) = M.cell (.input j) from
      Function.update_of_ne hne _ _]
    exact h.unread j hj u
  views := by
    have hclock : inputClock (M.read t (.input job)).2 = inputClock M := funext fun j => by
      rw [inputClock, SharedMemory.read_writes, inputClock]
    rw [hclock]
    exact h.views.access ((h.views.thread t).tick t)

/-- **The owner publishes a job**, and with the head all that it has written. -/
theorem storeHead (hsound : M.Sound) {v k : ℕ} {job : Job}
    (hseen : M.Everywhere (fun V => V.seen (.head v) ≤ (pushed v).length)) :
    InputsOk (M.storeRelease owner (.head v) k) inputs
      (Function.update pushed v (pushed v ++ [job])) where
  value := h.value
  writer := h.writer
  unread := h.unread
  views := by
    have hold : ∀ V, V.seen (.head v) ≤ (pushed v).length →
        KnowsInputs (inputClock M) pushed V →
        KnowsInputs (inputClock M) (Function.update pushed v (pushed v ++ [job])) V := by
      intro V hle hV w i j hi hj
      refine hV w i j hi ?_
      rw [Function.update_apply] at hj
      split at hj
      · rename_i hw
        subst hw
        rwa [List.getElem?_append_left (hi.trans_le hle)] at hj
      · exact hj
    -- the owner knows what it has written itself
    have hnew : KnowsInputs (inputClock M) (Function.update pushed v (pushed v ++ [job]))
        ((M.view owner).see (.head v) (M.messages (.head v)).length) :=
      fun w i j _ _ => hsound.writes _ _
    refine SharedMemory.Everywhere.append ⟨fun u => ?_, fun l m hm => ?_⟩ hnew hnew
    · exact hold _ (hseen.thread u) (h.views.thread u)
    · exact hold _ (hseen.message l m hm) (h.views.message l m hm)

end InputsOk

/-! ## Outputs -/

/-- **The outputs**: nobody has read one, a worker has written those of the jobs it has finished
and no others, and there is in them what the job computes. -/
structure OutputsOk (work : Job → ℕ → ℕ) (M : Memory) (inputs : List ℕ)
    (finished : ℕ → List Job) : Prop where
  unread : ∀ j u, (M.cell (.output j)).reads u = 0
  client : ∀ j k, (M.cell (.output j)).writes (.client k) = 0
  writer : ∀ j w, j ∉ finished w → (M.cell (.output j)).writes (.worker w) = 0
  value : ∀ w, ∀ j ∈ finished w, ∃ x, inputs[j - 1]? = some x
    ∧ (M.cell (.output j)).value = work j x

namespace OutputsOk

variable (h : OutputsOk work M inputs finished)
include h

/-- An operation on other locations, and further inputs. -/
theorem op (hop : M.Op t target M') (houtput : ∀ j, target ≠ some (.inr (.output j)))
    (more : List ℕ) : OutputsOk work M' (inputs ++ more) finished where
  unread j u := by rw [hop.cell_eq (houtput _)]; exact h.unread j u
  client j k := by rw [hop.cell_eq (houtput _)]; exact h.client j k
  writer j w hj := by rw [hop.cell_eq (houtput _)]; exact h.writer j w hj
  value w j hj := by
    obtain ⟨x, hx, hvalue⟩ := h.value w j hj
    refine ⟨x, ?_, ?_⟩
    · rwa [List.getElem?_append_left (List.getElem?_eq_some_iff.mp hx).1]
    · rw [hop.cell_eq (houtput _)]
      exact hvalue

/-- **A worker writes the output of its job.** -/
theorem write {w x : ℕ} {job : Job} (hx : inputs[job - 1]? = some x)
    (hfresh : ∀ v, job ∉ finished v) :
    OutputsOk work (M.write (.worker w) (.output job) (work job x)) inputs
      (Function.update finished w (finished w ++ [job])) := by
  have hother : ∀ j, j ≠ job →
      (M.write (.worker w) (.output job) (work job x)).cell (.output j) = M.cell (.output j) := by
    intro j hj
    exact Function.update_of_ne (fun heq => hj (Cell.output.inj heq)) _ _
  refine ⟨fun j u => ?_, fun j k => ?_, fun j v hj => ?_, fun v j hj => ?_⟩
  · rw [SharedMemory.write_reads]
    exact h.unread j u
  · rw [SharedMemory.write_writes_of_ne (show Thread.client k ≠ .worker w from nofun)]
    exact h.client j k
  · by_cases hv : v = w
    · subst hv
      rw [Function.update_self, List.mem_append, List.mem_singleton, not_or] at hj
      rw [hother j hj.2]
      exact h.writer j v hj.1
    · rw [Function.update_of_ne hv] at hj
      rw [SharedMemory.write_writes_of_ne (fun heq => hv (Thread.worker.inj heq))]
      exact h.writer j v hj
  · by_cases hjob : j = job
    · subst hjob
      exact ⟨x, hx, SharedMemory.write_value _⟩
    · rw [hother j hjob]
      refine h.value v j ?_
      rw [Function.update_apply] at hj
      split at hj
      · rename_i hv
        rw [hv]
        exact (List.mem_append.mp hj).resolve_right (fun hmem => hjob (List.mem_singleton.mp hmem))
      · exact hj

end OutputsOk

/-! ## The counter -/

/-- The clock of a worker's write to an output. -/
def outputClock (M : Memory) (j : Job) (w : ℕ) : ℕ := (M.cell (.output j)).writes (.worker w)

theorem outputClock_op (hop : M.Op t target M') {j : Job}
    (hj : target ≠ some (.inr (.output j))) (w : ℕ) : outputClock M' j w = outputClock M j w := by
  rw [outputClock, hop.cell_eq hj, outputClock]

/-- **The counter**: its messages are, in 32 bits, the balances of the ledger up to there, which
are bounded; each hands on the outputs of the jobs subtracted by then; and the owner has seen the
message of each of its additions. -/
structure PendingOk (n : ℕ) (M : Memory) (ledger : List Entry) : Prop where
  length : (M.messages .pendingJobs).length = ledger.length + 1
  value : ∀ (i : ℕ) (m : Message Thread Location ℕ), (M.messages .pendingJobs)[i]? = some m →
    (m.value + subtractions (ledger.take i)) % 2 ^ 32 = additions (ledger.take i) % 2 ^ 32
  bound : ∀ i, additions (ledger.take i) ≤ subtractions (ledger.take i) + n * 4096
  known : ∀ (i : ℕ) (m : Message Thread Location ℕ), (M.messages .pendingJobs)[i]? = some m →
    ∀ w j, .subtracted w j ∈ ledger.take i → outputClock M j w ≤ m.view.known (.worker w)
  added : ∀ i j, ledger[i]? = some (.added j) → i < (M.view owner).seen .pendingJobs

theorem additions_append (ledger more : List Entry) :
    additions (ledger ++ more) = additions ledger + additions more := by
  rw [additions, List.filterMap_append, List.length_append]
  rfl

theorem subtractions_append (ledger more : List Entry) :
    subtractions (ledger ++ more) = subtractions ledger + subtractions more :=
  List.countP_append

/-- Every entry adds or subtracts. -/
theorem additions_add_subtractions (ledger : List Entry) :
    additions ledger + subtractions ledger = ledger.length := by
  induction ledger using List.reverseRecOn with
  | nil => rfl
  | append_singleton ledger e ih =>
    cases e with
    | added job =>
      rw [additions_added, subtractions_added, List.length_append, List.length_singleton]
      omega
    | subtracted w job =>
      rw [additions_subtracted, subtractions_subtracted, List.length_append,
        List.length_singleton]
      omega

namespace PendingOk

variable (h : PendingOk n M ledger)
include h

/-- An operation on other locations. -/
theorem op (hop : M.Op t target M') (hsound : M.Sound)
    (hpending : target ≠ some (.inl .pendingJobs))
    (houtput : ∀ j, target ≠ some (.inr (.output j))) : PendingOk n M' ledger where
  length := by rw [hop.messages_eq hpending]; exact h.length
  value i m hm := by
    rw [hop.messages_eq hpending] at hm
    exact h.value i m hm
  bound := h.bound
  known i m hm w j hj := by
    rw [hop.messages_eq hpending] at hm
    rw [outputClock_op hop (houtput j)]
    exact h.known i m hm w j hj
  added i j hi := (h.added i j hi).trans_le (hop.seen_le hsound _ _)

/-- A worker writes the output of a job that has not been subtracted. -/
theorem write {w : ℕ} {job : Job} {x : ℕ} (hsound : M.Sound)
    (hjob : ∀ v, .subtracted v job ∉ ledger) :
    PendingOk n (M.write (.worker w) (.output job) x) ledger where
  length := h.length
  value := h.value
  bound := h.bound
  known i m hm v j hj := by
    have hne : Cell.output j ≠ .output job := by
      rintro heq
      cases heq
      exact hjob v (List.mem_of_mem_take hj)
    rw [outputClock, show (M.write (.worker w) (.output job) x).cell (.output j)
      = M.cell (.output j) from Function.update_of_ne hne _ _]
    exact h.known i m hm v j hj
  added i j hi := by
    have hop : M.Op (.worker w) _ (M.write (.worker w) (.output job) x) := .write _ _
    exact (h.added i j hi).trans_le (hop.seen_le hsound _ _)

/-- **The counter is changed**, and an entry is made of it. -/
theorem fetch {m : Message Thread Location ℕ} {v : ℕ} {e : Entry} (hsound : M.Sound)
    (hlast : (M.messages .pendingJobs).getLast? = some m)
    (hvalue : (m.value + subtractions ledger) % 2 ^ 32 = additions ledger % 2 ^ 32 →
      (v + subtractions (ledger ++ [e])) % 2 ^ 32 = additions (ledger ++ [e]) % 2 ^ 32)
    (hbound : additions (ledger ++ [e]) ≤ subtractions (ledger ++ [e]) + n * 4096)
    (hknown : ∀ w j, e = .subtracted w j → t = .worker w)
    (hadded : ∀ j, e = .added j → t = owner) :
    PendingOk n (M.append t .pendingJobs v (m.view ⊔ M.view t)) (ledger ++ [e]) := by
  have hget : (M.messages .pendingJobs)[ledger.length]? = some m := by
    rw [List.getLast?_eq_getElem?, h.length] at hlast
    exact hlast
  have hfull : ledger.take ledger.length = ledger := List.take_length
  -- a message is one of those before, with an older part of the ledger, or the new one
  have hsplit : ∀ (i : ℕ) (m' : Message Thread Location ℕ),
      ((M.append t .pendingJobs v (m.view ⊔ M.view t)).messages .pendingJobs)[i]? = some m' →
      ((M.messages .pendingJobs)[i]? = some m' ∧ (ledger ++ [e]).take i = ledger.take i)
        ∨ (m'.value = v ∧ m'.view.known = (m.view ⊔ M.view t).known
          ∧ (ledger ++ [e]).take i = ledger ++ [e]) := by
    intro i m' hm'
    rw [SharedMemory.append_messages_self, List.getElem?_append, h.length] at hm'
    split at hm'
    · rename_i hi
      exact .inl ⟨hm', List.take_append_of_le_length (Nat.le_of_lt_succ hi)⟩
    · rename_i hi
      rw [List.getElem?_singleton] at hm'
      split at hm'
      · cases hm'
        refine .inr ⟨rfl, rfl, List.take_of_length_le ?_⟩
        rw [List.length_append, List.length_singleton]
        omega
      · cases hm'
  refine ⟨?_, fun i m' hm' => ?_, fun i => ?_, fun i m' hm' w j hj => ?_, fun i j hi => ?_⟩
  · rw [SharedMemory.append_messages_self, List.length_append, List.length_append, h.length]
    rfl
  · obtain ⟨hold, htake⟩ | ⟨hnew, -, htake⟩ := hsplit i m' hm'
    · rw [htake]
      exact h.value i m' hold
    · rw [htake, hnew]
      have hm := h.value _ m hget
      rw [hfull] at hm
      exact hvalue hm
  · by_cases hi : i ≤ ledger.length
    · rw [List.take_append_of_le_length hi]
      exact h.bound i
    · rw [List.take_of_length_le (by rw [List.length_append, List.length_singleton]; omega)]
      exact hbound
  · show outputClock M j w ≤ _
    obtain ⟨hold, htake⟩ | ⟨-, hview, htake⟩ := hsplit i m' hm'
    · rw [htake] at hj
      exact h.known i m' hold w j hj
    · rw [htake, List.mem_append, List.mem_singleton] at hj
      rw [hview, View.known_sup]
      obtain hj | hj := hj
      · have hm := h.known _ m hget w j
        rw [hfull] at hm
        exact le_max_of_le_left (hm hj)
      · -- who makes an entry knows what it has written itself
        rw [hknown w j hj.symm]
        exact le_max_of_le_right (hsound.writes _ _)
  · rw [List.getElem?_append] at hi
    split at hi
    · exact (h.added i j hi).trans_le (hsound.seen_le_append _ _)
    · rw [List.getElem?_singleton] at hi
      split at hi
      · have howner := hadded j (Option.some_injective _ hi)
        subst howner
        rw [SharedMemory.append_view, Function.update_self, View.seen_see, Function.update_self,
          h.length]
        omega
      · cases hi

/-- **A zero that the owner gets is the last message**, where no more was subtracted than added:
it has seen its additions, and a counter of 32 bits cannot come round. -/
theorem last_of_zero (hn : n < 2 ^ 20) (hle : subtractions ledger ≤ additions ledger) {i : ℕ}
    {m : Message Thread Location ℕ} (hm : (M.messages .pendingJobs)[i]? = some m)
    (hseen : (M.view owner).seen .pendingJobs ≤ i) (hzero : m.value = 0) :
    ledger.take i = ledger ∧ subtractions ledger = additions ledger := by
  have hsplit := List.take_append_drop i ledger
  have hadditions := additions_append (ledger.take i) (ledger.drop i)
  have hsubtractions := subtractions_append (ledger.take i) (ledger.drop i)
  have hall := additions_add_subtractions (ledger.drop i)
  rw [hsplit] at hadditions hsubtractions
  have hnone : additions (ledger.drop i) = 0 := by
    rw [additions, List.length_eq_zero_iff, List.filterMap_eq_nil_iff]
    intro e he
    cases e with
    | subtracted w job => rfl
    | added job =>
      obtain ⟨k, hk⟩ := List.mem_iff_getElem?.mp he
      rw [List.getElem?_drop] at hk
      have hlt := h.added _ job hk
      omega
  have hvalue := h.value i m hm
  have hbound := h.bound i
  rw [hzero, Nat.zero_add] at hvalue
  have hlength : (ledger.drop i).length = 0 := by omega
  have hnil := List.length_eq_zero_iff.mp hlength
  rw [hnil, List.append_nil] at hsplit
  rw [hsplit] at hvalue hbound
  exact ⟨hsplit, by omega⟩

end PendingOk

/-! ## The destructor -/

/-- A worker that has seen the stop request. -/
def Worker.draining : Worker → Bool
  | .checkStop => false
  | .pop draining _ => draining
  | .readInput draining _ => draining
  | .writeOutput draining _ _ => draining
  | .subtract draining _ => draining
  | .exited => true

/-- How many workers the owner has joined. -/
def joinedCount (n : ℕ) : Client → ℕ
  | .joining w => w
  | .destroyed => n
  | _ => 0

/-- **The shutdown**: a request and who has seen it have seen the heads of the queues as they stay,
who has exited has taken all jobs, and who was joined has exited and its outputs are known. -/
structure StopsOk (n : ℕ) (M : Memory) (client : Client) (workers : ℕ → Worker)
    (pushed popped finished : ℕ → List Job) : Prop where
  request : ∀ (w : ℕ) (m : Message Thread Location ℕ), m ∈ M.messages (.stop w) → m.value ≠ 0 →
    client.leaving = true ∧ (pushed w).length ≤ m.view.seen (.head w)
  draining : ∀ w, (workers w).draining = true →
    client.leaving = true ∧ (pushed w).length ≤ (M.view (.worker w)).seen (.head w)
  exited : ∀ w, workers w = .exited → popped w = pushed w
  joined : ∀ w, w < joinedCount n client → workers w = .exited
  known : ∀ w, w < joinedCount n client → ∀ j ∈ finished w,
    outputClock M j w ≤ (M.view owner).known (.worker w)

namespace StopsOk

variable (h : StopsOk n M client workers pushed popped finished)
include h

/-- **Before the destructor** nobody has been asked to stop, whatever is pushed. -/
theorem busy (hclient : client.leaving = false) (hclient' : joinedCount n client' = 0)
    (hstop : ∀ w, M'.messages (.stop w) = M.messages (.stop w)) (pushed' : ℕ → List Job) :
    StopsOk n M' client' workers pushed' popped finished := by
  have hnot : ∀ {P : Prop}, client.leaving = true → P := fun htrue => by
    rw [hclient] at htrue
    cases htrue
  refine ⟨fun w m hm hne => ?_, fun w hw => ?_, fun w hw => ?_, fun w hw => ?_, fun w hw => ?_⟩
  · rw [hstop] at hm
    exact hnot (h.request w m hm hne).1
  · exact hnot (h.draining w hw).1
  · exact hnot (h.draining w (by rw [hw]; rfl)).1
  · rw [hclient'] at hw
    exact absurd hw (Nat.not_lt_zero w)
  · rw [hclient'] at hw
    exact absurd hw (Nat.not_lt_zero w)

/-- The owner goes on in the destructor. -/
theorem setClient (hleaving : client'.leaving = true)
    (hjoined : joinedCount n client' ≤ joinedCount n client) :
    StopsOk n M client' workers pushed popped finished where
  request w m hm hne := ⟨hleaving, (h.request w m hm hne).2⟩
  draining w hw := ⟨hleaving, (h.draining w hw).2⟩
  exited := h.exited
  joined w hw := h.joined w (hw.trans_le hjoined)
  known w hw := h.known w (hw.trans_le hjoined)

/-- **The owner asks worker `w` to stop**, and hands on the head of its queue. -/
theorem stop (hsound : M.Sound) {w : ℕ} (hclient : client = .stopping w)
    (hpublished : (pushed w).length ≤ (M.view owner).seen (.head w)) :
    StopsOk n (M.storeRelease owner (.stop w) 1) (.stopping (w + 1)) workers pushed popped
      finished := by
  have hop : M.Op owner (some (.inl (.stop w))) (M.storeRelease owner (.stop w) 1) :=
    SharedMemory.op_storeRelease
  subst hclient
  refine ⟨fun v m hm hne => ⟨rfl, ?_⟩, fun v hv => ⟨rfl, ?_⟩, h.exited, fun v hv => ?_,
    fun v hv => ?_⟩
  · by_cases hv : v = w
    · subst hv
      rw [SharedMemory.storeRelease, SharedMemory.append_messages_self, List.mem_append,
        List.mem_singleton] at hm
      obtain hm | rfl := hm
      · exact (h.request v m hm hne).2
      · rw [View.seen_see, Function.update_of_ne (show Location.head v ≠ .stop v by simp)]
        exact hpublished
    · rw [hop.messages_eq (fun heq => hv (Location.stop.inj
        (Sum.inl_injective (Option.some_injective _ heq))).symm)] at hm
      exact (h.request v m hm hne).2
  · exact (h.draining v hv).2.trans (hop.seen_le hsound _ _)
  · exact absurd hv (Nat.not_lt_zero v)
  · exact absurd hv (Nat.not_lt_zero v)

/-- **The owner joins worker `w`** and knows what it has done. -/
theorem join (hsound : M.Sound) {w : ℕ} (hclient : client = .joining w)
    (hexited : workers w = .exited) :
    StopsOk n (M.setView owner (M.view owner ⊔ M.view (.worker w))) (.joining (w + 1)) workers
      pushed popped finished := by
  have hop : M.Op owner none (M.setView owner (M.view owner ⊔ M.view (.worker w))) :=
    .join (.thread _)
  subst hclient
  refine ⟨fun v m hm hne => ⟨rfl, (h.request v m hm hne).2⟩, fun v hv => ⟨rfl, ?_⟩, h.exited,
    fun v hv => ?_, fun v hv j hj => ?_⟩
  · exact (h.draining v hv).2.trans (hop.seen_le hsound _ _)
  · obtain hlt | rfl := Nat.lt_succ_iff_lt_or_eq.mp hv
    · exact h.joined v hlt
    · exact hexited
  · obtain hlt | rfl := Nat.lt_succ_iff_lt_or_eq.mp hv
    · exact (h.known v hlt j hj).trans (hop.known_le _ _)
    · rw [SharedMemory.setView_view, Function.update_self, View.known_sup]
      exact le_max_of_le_right (hsound.writes _ _)

/-- **A worker makes a step.** -/
theorem worker (hsound : M.Sound) {w : ℕ} {pc : Worker} {popped' finished' : ℕ → List Job}
    (hop : M.Op (.worker w) target M') (hstop : ∀ v, target ≠ some (.inl (.stop v)))
    (hworker : workers w ≠ .exited)
    (hdraining : pc.draining = true →
      client.leaving = true ∧ (pushed w).length ≤ (M'.view (.worker w)).seen (.head w))
    (hexited : pc = .exited → popped' w = pushed w)
    (hpopped : ∀ v, v ≠ w → popped' v = popped v)
    (hfinished : ∀ v, v ≠ w → finished' v = finished v)
    (hclock : ∀ v, v ≠ w → ∀ j ∈ finished v, outputClock M' j v = outputClock M j v) :
    StopsOk n M' client (Function.update workers w pc) pushed popped' finished' := by
  have hother : ∀ v, v < joinedCount n client → v ≠ w := by
    rintro v hv rfl
    exact hworker (h.joined v hv)
  refine ⟨fun v m hm hne => ?_, fun v hv => ?_, fun v hv => ?_, fun v hv => ?_,
    fun v hv j hj => ?_⟩
  · rw [hop.messages_eq (hstop v)] at hm
    exact h.request v m hm hne
  · by_cases hvw : v = w
    · subst hvw
      rw [Function.update_self] at hv
      exact hdraining hv
    · rw [Function.update_of_ne hvw] at hv
      obtain ⟨hleaving, hle⟩ := h.draining v hv
      exact ⟨hleaving, hle.trans (hop.seen_le hsound _ _)⟩
  · by_cases hvw : v = w
    · subst hvw
      rw [Function.update_self] at hv
      exact hexited hv
    · rw [Function.update_of_ne hvw] at hv
      rw [hpopped v hvw]
      exact h.exited v hv
  · rw [Function.update_of_ne (hother v hv)]
    exact h.joined v hv
  · have hvw := hother v hv
    rw [hfinished v hvw] at hj
    rw [hclock v hvw j hj]
    exact (h.known v hv j hj).trans (hop.known_le _ _)

end StopsOk

/-! ## Every state -/

/-- **What holds in every state.** -/
structure Ok (n : ℕ) (work : Job → ℕ → ℕ) (s : State) : Prop where
  owner : OwnerOk n s.owner s.inputs s.pushed s.accepted
  workers : WorkersOk n s.workers s.popped s.finished s.ledger
  queues : QueuesOk n s.memory s.owner s.workers s.pushed s.popped
  inputs : InputsOk s.memory s.inputs s.pushed
  outputs : OutputsOk work s.memory s.inputs s.finished
  pending : PendingOk n s.memory s.ledger
  stops : StopsOk n s.memory s.owner s.workers s.pushed s.popped s.finished
  /-- What a job has read. -/
  reads : ∀ w draining job x, s.workers w = .writeOutput draining job x →
    s.inputs[job - 1]? = some x

theorem ok_init : Ok n work (machine n work).init where
  owner := by constructor <;> simp [machine, Client.call, uncounted, State.accepted]
  workers := ⟨fun _ => rfl, fun _ => rfl, Finset.sum_eq_zero (fun _ _ => rfl)⟩
  queues := by
    refine ⟨fun w => (queue w).inv_new (Nat.two_pow_pos 12) _ rfl rfl _, ?_, ?_⟩ <;> simp [machine]
  inputs := by
    refine ⟨by simp [machine], fun _ _ _ => rfl, fun _ _ _ => rfl, ?_⟩
    exact SharedMemory.everywhere_new (fun _ _ _ hi _ => absurd hi (Nat.not_lt_zero _))
  outputs := ⟨fun _ _ => rfl, fun _ _ => rfl, fun _ _ _ => rfl, by simp [machine]⟩
  pending := by
    refine ⟨rfl, fun i m hm => ?_, fun i => ?_, fun i m hm w j hj => ?_, by simp [machine]⟩
    · obtain rfl := List.mem_singleton.mp (List.mem_of_getElem? hm)
      simp [machine, additions, subtractions]
    · simp [machine, additions]
    · simp [machine] at hj
  stops := by
    refine ⟨fun w m hm hne => ?_, ?_, ?_, ?_, ?_⟩
    · obtain rfl := List.mem_singleton.mp hm
      exact absurd rfl hne
    all_goals simp [machine, Worker.draining, joinedCount]
  reads := by simp [machine]

namespace Ok

variable (h : Ok n work s)
include h

theorem sound : s.memory.Sound := h.queues.sound

/-- A job that was pushed has an input. -/
theorem mem_pushed {w : ℕ} {j : Job} (hj : j ∈ s.pushed w) : 0 < j ∧ j ≤ s.inputs.length := by
  obtain ⟨hpos, hlt⟩ := h.owner.range w j hj
  refine ⟨hpos, Nat.le_of_lt_succ (hlt.trans_le ?_)⟩
  unfold nextJob
  split
  · exact Nat.le_succ _
  · exact Nat.le_succ _
  · exact le_refl _

theorem finished_prefix (w : ℕ) : s.finished w <+: s.popped w := by
  rw [h.workers.popped w]
  exact List.prefix_append _ _

theorem finished_subset {w : ℕ} {j : Job} (hj : j ∈ s.finished w) : j ∈ s.pushed w :=
  (h.queues.inv w).fifo.subset ((h.finished_prefix w).subset hj)

/-- **A job that a worker holds** was pushed to its queue, and nobody has finished it. -/
theorem holding {w : ℕ} {job : Job} (hjob : (s.workers w).holding = [job]) :
    s.popped w = s.finished w ++ [job] ∧ job ∈ s.pushed w ∧ ∀ v, job ∉ s.finished v := by
  have hpopped := h.workers.popped w
  rw [hjob] at hpopped
  have hmem : job ∈ s.pushed w := by
    refine (h.queues.inv w).fifo.subset ?_
    rw [hpopped]
    exact List.mem_append_right _ (List.mem_singleton_self job)
  refine ⟨hpopped, hmem, fun v hv => ?_⟩
  obtain rfl := h.owner.apart v w job (h.finished_subset hv) hmem
  have hnodup := (h.owner.nodup v).sublist (h.queues.inv v).fifo.sublist
  rw [hpopped] at hnodup
  exact List.disjoint_of_nodup_append hnodup hv (List.mem_singleton_self job)

/-- **A worker that is to read an input knows it.** -/
theorem mayRead_input {w : ℕ} {draining : Bool} {job : Job}
    (hworker : s.workers w = .readInput draining job) :
    s.memory.MayRead (.worker w) (.input job)
      ∧ s.inputs[job - 1]? = some (s.memory.cell (.input job)).value := by
  obtain ⟨hpopped, hmem, -⟩ := h.holding (show (s.workers w).holding = [job] by rw [hworker]; rfl)
  obtain ⟨hpos, hle⟩ := h.mem_pushed hmem
  constructor
  · intro u
    by_cases hu : u = JobSystemMemory.owner
    · subst hu
      -- the worker has seen the head after this job
      have hitems := (h.queues.inv w).items
      have hget : (s.pushed w)[(s.finished w).length]? = some job := by
        obtain ⟨rest, hrest⟩ := (h.queues.inv w).fifo
        rw [← hrest, hpopped, List.append_assoc, List.getElem?_append_right (le_refl _),
          Nat.sub_self]
        rfl
      refine h.inputs.views.thread (.worker w) w _ job ?_ hget
      rw [hpopped, List.length_append] at hitems
      exact hitems
    · rw [h.inputs.writer job u hu]
      exact Nat.zero_le _
  · have hlt : job - 1 < s.inputs.length := Nat.sub_one_lt_of_le hpos hle
    have hget := List.getElem?_eq_getElem hlt
    have hvalue := h.inputs.value _ _ hget
    rw [Nat.sub_add_cancel hpos] at hvalue
    rw [hget, hvalue]

/-- **Every step of the worker's queue**: a worker that drains has seen the head as it stays, so
that it exits with all jobs taken. -/
theorem exited_pop {w i : ℕ} {pc : Pop Job} {M : Memory}
    (hworker : s.workers w = .pop true pc)
    (hpop : (queue w).tryPop (2 ^ 12) s.memory i pc = some (M, .inr none)) :
    s.popped w ++ pc.taken = s.pushed w := by
  obtain ⟨-, -, hempty⟩ := SpscQueue.Site.tryPop_spec (h.queues.inv w)
    (h.queues.pop w true pc hworker) hpop
  obtain ⟨hi, hseen⟩ := hempty rfl
  obtain ⟨-, hle⟩ := h.stops.draining w (by rw [hworker]; rfl)
  rw [(SpscQueue.Site.tryPop_taken hpop).2.1 rfl, List.append_nil]
  refine (h.queues.inv w).fifo.eq_of_length_le ?_
  exact hle.trans (hseen.trans hi.le)

end Ok

/-! ## Steps -/

/-- A location of a queue, if any. -/
def InQueues : Option (Location ⊕ Cell) → Prop
  | none => True
  | some (.inl (.head _)) => True
  | some (.inl (.tail _)) => True
  | some (.inr (.slot _ _)) => True
  | _ => False

/-- An access to a queue is an operation on a location of a queue. -/
theorem op_effect {v : ℕ} {l : Location} {items : List Job}
    (heffect : (queue v).Effect M t l items M') (hl : InQueues (some (.inl l))) :
    ∃ target, M.Op t target M' ∧ InQueues target := by
  cases heffect with
  | load hop => exact ⟨_, hop, trivial⟩
  | access hop => exact ⟨_, hop, trivial⟩
  | store k item => exact ⟨_, SharedMemory.op_storeRelease, hl⟩

theorem op_writeInput (j : Job) (x : ℕ) :
    M.Op owner (some (.inr (.input j))) (M.write owner (.input j) x) := .write _ _

theorem op_readInput (w : ℕ) (j : Job) :
    M.Op (.worker w) (some (.inr (.input j))) (M.read (.worker w) (.input j)).2 := .read _

theorem op_writeOutput (w : ℕ) (j : Job) (x : ℕ) :
    M.Op (.worker w) (some (.inr (.output j))) (M.write (.worker w) (.output j) x) := .write _ _

theorem op_stop (w : ℕ) :
    M.Op owner (some (.inl (.stop w))) (M.storeRelease owner (.stop w) 1) :=
  SharedMemory.op_storeRelease

theorem op_join (w : ℕ) :
    M.Op owner none (M.setView owner (M.view owner ⊔ M.view (.worker w))) := .join (.thread _)

/-- **Every step keeps the inputs.** -/
theorem inputsOk_step (h : Ok n work s) (hmove : Moves n work s s') :
    InputsOk s'.memory s'.inputs s'.pushed := by
  have hinputs := h.inputs
  cases hmove with
  | submit x howner => exact hinputs.submit (fun w j hj => (h.mem_pushed hj).2) x
  | waitIdle howner => exact hinputs
  | destroy howner => exact hinputs
  | fetchQueue howner hfetch => exact hinputs.op (SharedMemory.op_fetchRelaxed hfetch) nofun nofun
  | @push start round i pc M out howner hpush =>
    have heffect := SpscQueue.Site.tryPush_effect (h.queues.inv _) hpush
    revert heffect
    generalize pc.published = items
    intro heffect
    cases heffect with
    | load hop =>
      rw [List.append_nil, Function.update_eq_self]
      exact hinputs.op hop nofun nofun
    | access hop =>
      rw [List.append_nil, Function.update_eq_self]
      exact hinputs.op hop (fun j heq => nomatch Option.some_injective _ heq) nofun
    | store v item => exact hinputs.storeHead h.sound (h.queues.inv _).seen_head_le
  | count howner hfetch => exact hinputs.op (SharedMemory.op_fetchRelease hfetch) nofun nofun
  | wait howner hload => exact hinputs.op (SharedMemory.op_loadAcquire hload) nofun nofun
  | @stop w howner hw =>
    exact hinputs.op (op_stop w) nofun nofun
  | stopped howner => exact hinputs
  | @join w howner hw hexited =>
    exact hinputs.op (op_join w) nofun nofun
  | joined howner hw => exact hinputs
  | checkStop hw hworker hload => exact hinputs.op (SharedMemory.op_loadAcquire hload) nofun nofun
  | @pop w i draining pc M out hw hworker hpop =>
    have heffect := SpscQueue.Site.tryPop_effect (h.queues.inv _) hpop
    revert heffect
    generalize pc.taken = items
    intro heffect
    cases heffect with
    | load hop => exact hinputs.op hop nofun nofun
    | access hop => exact hinputs.op hop (fun j heq => nomatch Option.some_injective _ heq) nofun
    | store v item =>
      exact hinputs.op SharedMemory.op_storeRelease nofun
        (fun w heq => nomatch Option.some_injective _ heq)
  | @readInput w draining job hw hworker =>
    obtain ⟨-, hmem, -⟩ := h.holding (show (s.workers w).holding = [job] by rw [hworker]; rfl)
    exact hinputs.read (h.mem_pushed hmem).2
  | @writeOutput w x draining job hw hworker =>
    exact hinputs.op (op_writeOutput w job _) nofun nofun
  | subtract hw hworker hfetch =>
    exact hinputs.op (SharedMemory.op_fetchRelease hfetch) nofun nofun

/-- **Every step keeps the outputs.** -/
theorem outputsOk_step (h : Ok n work s) (hmove : Moves n work s s') :
    OutputsOk work s'.memory s'.inputs s'.finished := by
  have houtputs := h.outputs
  -- most steps leave the inputs and the outputs as they are
  have hkeep : ∀ {M : Memory} {t : Thread} {target : Option (Location ⊕ Cell)},
      s.memory.Op t target M → (∀ j, target ≠ some (.inr (.output j))) →
      OutputsOk work M s.inputs s.finished := by
    intro M t target hop htarget
    have hsame := houtputs.op hop htarget []
    rwa [List.append_nil] at hsame
  cases hmove with
  | submit x howner =>
    exact houtputs.op (op_writeInput (s.inputs.length + 1) x) nofun [x]
  | waitIdle howner => exact houtputs
  | destroy howner => exact houtputs
  | fetchQueue howner hfetch => exact hkeep (SharedMemory.op_fetchRelaxed hfetch) nofun
  | push howner hpush =>
    obtain ⟨target, hop, hin⟩ :=
      op_effect (SpscQueue.Site.tryPush_effect (h.queues.inv _) hpush) trivial
    exact hkeep hop (fun j heq => by rw [heq] at hin; exact hin)
  | count howner hfetch => exact hkeep (SharedMemory.op_fetchRelease hfetch) nofun
  | wait howner hload => exact hkeep (SharedMemory.op_loadAcquire hload) nofun
  | @stop w howner hw => exact hkeep (op_stop w) nofun
  | stopped howner => exact houtputs
  | @join w howner hw hexited => exact hkeep (op_join w) nofun
  | joined howner hw => exact houtputs
  | checkStop hw hworker hload => exact hkeep (SharedMemory.op_loadAcquire hload) nofun
  | pop hw hworker hpop =>
    obtain ⟨target, hop, hin⟩ :=
      op_effect (SpscQueue.Site.tryPop_effect (h.queues.inv _) hpop) trivial
    exact hkeep hop (fun j heq => by rw [heq] at hin; exact hin)
  | @readInput w draining job hw hworker => exact hkeep (op_readInput w job) nofun
  | @writeOutput w x draining job hw hworker =>
    obtain ⟨-, -, hfresh⟩ := h.holding (show (s.workers w).holding = [job] by rw [hworker]; rfl)
    exact houtputs.write (h.reads w draining job x hworker) hfresh
  | subtract hw hworker hfetch => exact hkeep (SharedMemory.op_fetchRelease hfetch) nofun

/-- **Every step keeps the counter.** -/
theorem pendingOk_step (h : Ok n work s)
    (howner' : OwnerOk n s'.owner s'.inputs s'.pushed s'.accepted)
    (hworkers' : WorkersOk n s'.workers s'.popped s'.finished s'.ledger)
    (hqueues' : QueuesOk n s'.memory s'.owner s'.workers s'.pushed s'.popped)
    (hmove : Moves n work s s') : PendingOk n s'.memory s'.ledger := by
  have hpending := h.pending
  have hkeep : ∀ {M : Memory} {t : Thread} {target : Option (Location ⊕ Cell)},
      s.memory.Op t target M → target ≠ some (.inl .pendingJobs) →
      (∀ j, target ≠ some (.inr (.output j))) → PendingOk n M s.ledger :=
    fun hop => hpending.op hop h.sound
  have hbound := (balance howner' hworkers' hqueues').1
  cases hmove with
  | submit x howner => exact hkeep (op_writeInput (s.inputs.length + 1) x) nofun nofun
  | waitIdle howner => exact hpending
  | destroy howner => exact hpending
  | fetchQueue howner hfetch => exact hkeep (SharedMemory.op_fetchRelaxed hfetch) nofun nofun
  | push howner hpush =>
    obtain ⟨target, hop, hin⟩ :=
      op_effect (SpscQueue.Site.tryPush_effect (h.queues.inv _) hpush) trivial
    exact hkeep hop (fun heq => by rw [heq] at hin; exact hin)
      (fun j heq => by rw [heq] at hin; exact hin)
  | @count job v M howner hfetch =>
    obtain ⟨m, hlast, rfl, rfl⟩ := SharedMemory.fetchRelease_eq_some hfetch
    refine hpending.fetch h.sound hlast (fun hvalue => ?_) hbound nofun (fun _ _ => rfl)
    rw [additions_added, subtractions_added]
    omega
  | wait howner hload => exact hkeep (SharedMemory.op_loadAcquire hload) nofun nofun
  | @stop w howner hw => exact hkeep (op_stop w) nofun nofun
  | stopped howner => exact hpending
  | @join w howner hw hexited => exact hkeep (op_join w) nofun nofun
  | joined howner hw => exact hpending
  | checkStop hw hworker hload => exact hkeep (SharedMemory.op_loadAcquire hload) nofun nofun
  | pop hw hworker hpop =>
    obtain ⟨target, hop, hin⟩ :=
      op_effect (SpscQueue.Site.tryPop_effect (h.queues.inv _) hpop) trivial
    exact hkeep hop (fun heq => by rw [heq] at hin; exact hin)
      (fun j heq => by rw [heq] at hin; exact hin)
  | @readInput w draining job hw hworker => exact hkeep (op_readInput w job) nofun nofun
  | @writeOutput w x draining job hw hworker =>
    obtain ⟨-, -, hfresh⟩ := h.holding (show (s.workers w).holding = [job] by rw [hworker]; rfl)
    refine hpending.write h.sound (fun v hmem => hfresh v ?_)
    rw [h.workers.finished v]
    exact List.mem_append_left _ (mem_subtracted.mpr hmem)
  | @subtract w v draining job M hw hworker hfetch =>
    obtain ⟨m, hlast, rfl, rfl⟩ := SharedMemory.fetchRelease_eq_some hfetch
    refine hpending.fetch h.sound hlast (fun hvalue => ?_) hbound ?_ nofun
    · rw [additions_subtracted, subtractions_subtracted]
      omega
    · rintro v j ⟨⟩
      rfl

/-- **Every step keeps the shutdown in order.** -/
theorem stopsOk_step (h : Ok n work s) (hmove : Moves n work s s') :
    StopsOk n s'.memory s'.owner s'.workers s'.pushed s'.popped s'.finished := by
  have hstops := h.stops
  cases hmove with
  | submit x howner =>
    exact hstops.busy (by rw [howner]; rfl) rfl
      (fun _ => (op_writeInput (s.inputs.length + 1) x).messages_eq nofun) _
  | waitIdle howner => exact hstops.busy (by rw [howner]; rfl) rfl (fun _ => rfl) _
  | destroy howner => exact hstops.busy (by rw [howner]; rfl) rfl (fun _ => rfl) _
  | fetchQueue howner hfetch =>
    exact hstops.busy (by rw [howner]; rfl) rfl
      (fun _ => (SharedMemory.op_fetchRelaxed hfetch).messages_eq nofun) _
  | @push start round i pc M out howner hpush =>
    obtain ⟨target, hop, hin⟩ :=
      op_effect (SpscQueue.Site.tryPush_effect (h.queues.inv _) hpush) trivial
    refine hstops.busy (by rw [howner]; rfl) ?_
      (fun _ => hop.messages_eq (fun heq => by rw [heq] at hin; exact hin)) _
    unfold afterPush
    split
    · rfl
    · rfl
    · split <;> rfl
  | count howner hfetch =>
    exact hstops.busy (by rw [howner]; rfl) rfl
      (fun _ => (SharedMemory.op_fetchRelease hfetch).messages_eq nofun) _
  | @wait since i v M howner hload =>
    refine hstops.busy (by rw [howner]; rfl) ?_
      (fun _ => (SharedMemory.op_loadAcquire hload).messages_eq nofun) _
    split <;> rfl
  | @stop w howner hw => exact hstops.stop h.sound howner (h.queues.inv w).published
  | stopped howner => exact hstops.setClient rfl (Nat.zero_le _)
  | join howner hw hexited => exact hstops.join h.sound howner hexited
  | @joined w howner hw =>
    refine hstops.setClient rfl ?_
    rw [howner]
    exact hw
  | @checkStop w i v M hw hworker hload =>
    obtain ⟨m, hm, -, rfl, rfl⟩ := SharedMemory.loadAcquire_eq_some hload
    refine hstops.worker h.sound (SharedMemory.op_loadAcquire hload) nofun (by simp [hworker]) ?_
      nofun (fun _ _ => rfl) (fun _ _ => rfl) (fun _ _ _ _ => rfl)
    intro hdraining
    obtain ⟨hleaving, hle⟩ :=
      hstops.request w m (List.mem_of_getElem? hm) (of_decide_eq_true hdraining)
    refine ⟨hleaving, ?_⟩
    rw [SharedMemory.setView_view, Function.update_self, View.seen_sup]
    exact le_max_of_le_right hle
  | @pop w i draining pc M out hw hworker hpop =>
    obtain ⟨target, hop, hin⟩ :=
      op_effect (SpscQueue.Site.tryPop_effect (h.queues.inv _) hpop) trivial
    refine hstops.worker h.sound hop (fun v heq => by rw [heq] at hin; exact hin)
      (by simp [hworker]) ?_ ?_ (fun v hv => Function.update_of_ne hv _ _) (fun _ _ => rfl) ?_
    · intro hdraining
      have hbefore : (s.workers w).draining = true := by
        rw [hworker]
        unfold afterPop at hdraining
        split at hdraining
        · exact hdraining
        · exact hdraining
        · split at hdraining
          · assumption
          · cases hdraining
      obtain ⟨hleaving, hle⟩ := hstops.draining w hbefore
      exact ⟨hleaving, hle.trans (hop.seen_le h.sound _ _)⟩
    · intro hexited
      unfold afterPop at hexited
      split at hexited
      · cases hexited
      · cases hexited
      · split at hexited
        · rename_i hdraining
          rw [hdraining] at hworker
          exact (Function.update_self _ _ _).trans (h.exited_pop hworker hpop)
        · cases hexited
    · intro v _ j _
      exact outputClock_op hop (fun heq => by rw [heq] at hin; exact hin) v
  | @readInput w draining job hw hworker =>
    have hop := op_readInput (M := s.memory) w job
    refine hstops.worker h.sound hop nofun (by simp [hworker]) ?_ nofun (fun _ _ => rfl)
      (fun _ _ => rfl) (fun v _ j _ => outputClock_op hop (by simp) v)
    intro hdraining
    obtain ⟨hleaving, hle⟩ := hstops.draining w (by rw [hworker]; exact hdraining)
    exact ⟨hleaving, hle.trans (hop.seen_le h.sound _ _)⟩
  | @writeOutput w x draining job hw hworker =>
    obtain ⟨-, -, hfresh⟩ := h.holding (show (s.workers w).holding = [job] by rw [hworker]; rfl)
    have hop := op_writeOutput (M := s.memory) w job (work job x)
    refine hstops.worker h.sound hop nofun (by simp [hworker]) ?_ nofun (fun _ _ => rfl)
      (fun v hv => Function.update_of_ne hv _ _) (fun v hv j hj => ?_)
    · intro hdraining
      obtain ⟨hleaving, hle⟩ := hstops.draining w (by rw [hworker]; exact hdraining)
      exact ⟨hleaving, hle.trans (hop.seen_le h.sound _ _)⟩
    · refine outputClock_op hop ?_ v
      rintro ⟨⟩
      exact hfresh v hj
  | @subtract w v draining job M hw hworker hfetch =>
    have hop := SharedMemory.op_fetchRelease hfetch
    refine hstops.worker h.sound hop nofun (by simp [hworker]) ?_ ?_ (fun _ _ => rfl)
      (fun _ _ => rfl) (fun v _ j _ => outputClock_op hop (by simp) v)
    · intro hdraining
      have hbefore : (s.workers w).draining = true := by
        rw [hworker]
        unfold afterJob at hdraining
        split at hdraining
        · assumption
        · cases hdraining
      obtain ⟨hleaving, hle⟩ := hstops.draining w hbefore
      exact ⟨hleaving, hle.trans (hop.seen_le h.sound _ _)⟩
    · intro hexited
      unfold afterJob at hexited
      split at hexited <;> cases hexited

/-- **Every step keeps what jobs have read.** -/
theorem reads_step (h : Ok n work s) (hmove : Moves n work s s') :
    ∀ w draining job x, s'.workers w = .writeOutput draining job x →
      s'.inputs[job - 1]? = some x := by
  -- a worker that goes elsewhere has read nothing, or what the invariant says
  have hworker : ∀ {v : ℕ} {pc : Worker},
      (∀ draining job x, pc = .writeOutput draining job x → s.inputs[job - 1]? = some x) →
      ∀ w draining job x, Function.update s.workers v pc w = .writeOutput draining job x →
        s.inputs[job - 1]? = some x := by
    intro v pc hpc w draining job x hw
    rw [Function.update_apply] at hw
    split at hw
    · exact hpc draining job x hw
    · exact h.reads w draining job x hw
  cases hmove with
  | submit x howner =>
    intro w draining job y hw
    have hy := h.reads w draining job y hw
    exact (List.getElem?_append_left (List.getElem?_eq_some_iff.mp hy).1).trans hy
  | waitIdle howner => exact h.reads
  | destroy howner => exact h.reads
  | fetchQueue howner hfetch => exact h.reads
  | push howner hpush => exact h.reads
  | count howner hfetch => exact h.reads
  | wait howner hload => exact h.reads
  | stop howner hw => exact h.reads
  | stopped howner => exact h.reads
  | join howner hw hexited => exact h.reads
  | joined howner hw => exact h.reads
  | checkStop hw hpc hload => exact hworker nofun
  | @pop w i draining pc M out hw hpc hpop =>
    refine hworker (fun draining' job x heq => ?_)
    unfold afterPop at heq
    split at heq
    · cases heq
    · cases heq
    · split at heq <;> cases heq
  | @readInput w draining job hw hpc =>
    refine hworker (fun draining' job' x heq => ?_)
    cases heq
    exact (h.mayRead_input hpc).2
  | writeOutput hw hpc => exact hworker nofun
  | @subtract w v draining job M hw hpc hfetch =>
    refine hworker (fun draining' job' x heq => ?_)
    unfold afterJob at heq
    split at heq <;> cases heq

theorem ok_step (hn : 0 < n) (h : Ok n work s) (hmove : Moves n work s s') : Ok n work s' where
  owner := ownerOk_step hn h.owner hmove
  workers := workersOk_step h.workers hmove
  queues := queuesOk_step h.queues hmove
  inputs := inputsOk_step h hmove
  outputs := outputsOk_step h hmove
  pending := pendingOk_step h (ownerOk_step hn h.owner hmove) (workersOk_step h.workers hmove)
    (queuesOk_step h.queues hmove) hmove
  stops := stopsOk_step h hmove
  reads := reads_step h hmove

/-- **Every run keeps all of it.** -/
theorem ok_of_reachable (hn : 0 < n) (h : (machine n work).Reachable s) : Ok n work s :=
  h.invariant ok_init (fun _ _ _ _ hs _ hstep => ok_step hn hs (step_cases hstep))

/-! ## What the job system promises -/

/-- **The jobs of a run do not race**, with any number of workers and whatever the loads get: each
plain access of the owner and of the workers – to a slot, to an input, to an output – happens after
those it is in conflict with; a job reads what the owner wrote for it; and each worker finishes, in
order, the first of the jobs pushed to its queue, of which no job is in another queue or twice in
one. -/
theorem jobs_raceFree (hn : 0 < n) (h : (machine n work).Reachable s) :
    (s.owner = .idle → s.memory.MayWrite owner (.input (s.inputs.length + 1)))
      ∧ (∀ start round item head,
        s.owner = .submitting (.push start round (.writeSlot item head)) →
        s.memory.MayWrite owner (.slot (queueIndex n start round) head))
      ∧ (∀ w draining tail, s.workers w = .pop draining (.readSlot tail) →
        s.memory.MayRead (.worker w) (.slot w tail))
      ∧ (∀ w draining job, s.workers w = .readInput draining job →
        s.memory.MayRead (.worker w) (.input job)
          ∧ s.inputs[job - 1]? = some (s.memory.cell (.input job)).value)
      ∧ (∀ w draining job x, s.workers w = .writeOutput draining job x →
        s.memory.MayWrite (.worker w) (.output job))
      ∧ (∀ w, s.finished w <+: s.pushed w ∧ (s.pushed w).Nodup)
      ∧ (∀ v w j, j ∈ s.pushed v → j ∈ s.pushed w → v = w) := by
  have hok := ok_of_reachable hn h
  refine ⟨fun howner u => ⟨?_, ?_⟩, ?_, ?_, fun w draining job => hok.mayRead_input, ?_,
    fun w => ⟨?_, hok.owner.nodup w⟩, hok.owner.apart⟩
  · by_cases hu : u = owner
    · rw [hu]
      exact hok.sound.writes _ _
    · rw [hok.inputs.writer _ u hu]
      exact Nat.zero_le _
  · rw [hok.inputs.unread _ (Nat.lt_succ_self _) u]
    exact Nat.zero_le _
  · intro start round item head howner
    obtain ⟨rfl, hroom⟩ := hok.queues.push start round _ howner
    exact (hok.queues.inv _).mayWrite hroom
  · intro w draining tail hworker
    obtain ⟨rfl, hitem⟩ := hok.queues.pop w draining _ hworker
    exact (hok.queues.inv w).mayRead hitem
  · intro w draining job x hworker u
    obtain ⟨-, -, hfresh⟩ :=
      hok.holding (show (s.workers w).holding = [job] by rw [hworker]; rfl)
    rw [hok.outputs.unread job u]
    refine ⟨?_, Nat.zero_le _⟩
    cases u with
    | client k => rw [hok.outputs.client job k]; exact Nat.zero_le _
    | worker v => rw [hok.outputs.writer job v (hfresh v)]; exact Nat.zero_le _
  · exact (hok.finished_prefix w).trans (hok.queues.inv w).fifo

/-- A run with one worker, whose job adds its input to its number. The worker's first `try_pop`
gets the head from before the job and finds nothing, and `wait_idle` gets the counter from before
the subtraction once. -/
def waitSchedule : List Action :=
  [.submit 7, .owner 0, .owner 0, .owner 0, .owner 0, .owner 0, .owner 0, .waitIdle,
    .worker 0 0, .worker 0 0, .worker 0 0, .worker 0 0, .worker 0 0, .worker 0 1, .worker 0 0,
    .worker 0 0, .worker 0 0, .worker 0 0, .worker 0 0, .owner 1]

/-- The worker then has its job in hand and may read the input. -/
theorem jobs_raceFree_one :
    ∃ s : State, (machine 1 (· + ·)).Reachable s ∧ s.workers 0 = .readInput false 1
      ∧ s.memory.MayRead (.worker 0) (.input 1)
      ∧ s.inputs[0]? = some (s.memory.cell (.input 1)).value := by
  obtain ⟨s, hrun, hworker⟩ : ∃ s,
      (machine 1 (· + ·)).run (machine 1 (· + ·)).init (waitSchedule.take 16) = some s
        ∧ s.workers 0 = .readInput false 1 := ⟨_, rfl, rfl⟩
  have hreach := Machine.ReachableBy.run (L := fun _ => True) Machine.ReachableBy.init
    (fun _ _ => trivial) hrun
  obtain ⟨-, -, -, hread, -⟩ := jobs_raceFree (by decide) hreach
  exact ⟨s, hreach, hworker, hread 0 false 1 hworker⟩

/-- **A job is over for the owner**: a worker has finished it, the owner may read its output
without a race, and there is in it what the job computes from what it was submitted with. -/
def Delivered (work : Job → ℕ → ℕ) (s : State) (M : Memory) (j : Job) : Prop :=
  ∃ w x, j ∈ s.finished w ∧ s.inputs[j - 1]? = some x ∧ M.MayRead owner (.output j)
    ∧ (M.cell (.output j)).value = work j x

/-- A job is delivered where the owner knows what the worker wrote that finished it. -/
theorem Ok.delivered (h : Ok n work s) {w : ℕ} {j : Job} (hj : j ∈ s.finished w)
    (hcell : M.cell (.output j) = s.memory.cell (.output j))
    (hknown : outputClock s.memory j w ≤ (M.view JobSystemMemory.owner).known (.worker w)) :
    Delivered work s M j := by
  obtain ⟨x, hx, hvalue⟩ := h.outputs.value w j hj
  refine ⟨w, x, hj, hx, fun u => ?_, ?_⟩
  · rw [hcell]
    cases u with
    | client k => rw [h.outputs.client j k]; exact Nat.zero_le _
    | worker v =>
      by_cases hv : v = w
      · rw [hv]
        exact hknown
      · rw [h.outputs.writer j v]
        · exact Nat.zero_le _
        · intro hj'
          exact hv (h.owner.apart v w j (h.finished_subset hj') (h.finished_subset hj))
  · rw [hcell]
    exact hvalue

/-- **Where as many jobs were subtracted as were added**, every job pushed was subtracted. -/
theorem Ok.subtracted_of_balanced (h : Ok n work s) (huncounted : uncounted s.owner = [])
    (hequal : subtractions s.ledger = additions s.ledger) {w : ℕ} (hw : w < n) :
    subtracted s.ledger w = s.pushed w := by
  have hbefore : ∀ v, subtracted s.ledger v <+: s.pushed v := fun v => by
    have hsubtracted : subtracted s.ledger v <+: s.finished v := by
      rw [h.workers.finished v]
      exact List.prefix_append _ _
    exact hsubtracted.trans ((h.finished_prefix v).trans (h.queues.inv v).fifo)
  have htotal := h.owner.total
  rw [huncounted] at htotal
  have hsum : ∑ v ∈ Finset.range n, (subtracted s.ledger v).length
      = ∑ v ∈ Finset.range n, (s.pushed v).length := by
    rw [h.workers.total, hequal, htotal]
    rfl
  have hlength := (Finset.sum_eq_sum_iff_of_le (fun v _ => (hbefore v).length_le)).mp hsum w
    (Finset.mem_range.mpr hw)
  exact (hbefore w).eq_of_length hlength

/-- A load of `wait_idle`. -/
theorem step_waiting {since : List Job} (howner : s.owner = .waiting since) {i : ℕ}
    (hstep : step n work s (.owner i) = some s') :
    ∃ m, (s.memory.messages .pendingJobs)[i]? = some m
      ∧ (s.memory.view owner).seen .pendingJobs ≤ i
      ∧ s'.memory = s.memory.setView owner (s.memory.view owner ⊔ m.view)
      ∧ (s'.owner = .idle → m.value = 0) := by
  rw [step, ownerNext, howner] at hstep
  obtain ⟨⟨v, M⟩, hload, rfl⟩ := Option.map_eq_some_iff.mp hstep
  obtain ⟨m, hm, hseen, rfl, rfl⟩ := SharedMemory.loadAcquire_eq_some hload
  refine ⟨m, hm, hseen, rfl, fun hreturn => ?_⟩
  by_contra hne
  simp [hne] at hreturn

/-- **When `wait_idle` returns, all jobs are done and their outputs may be read**, with fewer than
`2 ^ 20` workers, whichever message of `m_pending_jobs` it gets. -/
theorem waitIdle_delivers (hn : 0 < n) (hfew : n < 2 ^ 20) (h : (machine n work).Reachable s)
    {since : List Job} (howner : s.owner = .waiting since) {i : ℕ}
    (hstep : step n work s (.owner i) = some s') (hreturn : s'.owner = .idle) :
    ∀ j ∈ s.accepted, Delivered work s s'.memory j := by
  have hok := ok_of_reachable hn h
  intro j hj
  obtain ⟨m, hm, hseen, hmemory, hzero⟩ := step_waiting howner hstep
  have huncounted : uncounted s.owner = [] := by rw [howner]; rfl
  obtain ⟨-, hle⟩ := balance hok.owner hok.workers hok.queues
  rw [huncounted] at hle
  obtain ⟨hall, hequal⟩ := hok.pending.last_of_zero hfew hle hm hseen (hzero hreturn)
  obtain ⟨w, hw⟩ := hok.owner.counted j (List.mem_append_left _ hj)
  have hlt : w < n := by
    by_contra hge
    rw [hok.owner.unused w (Nat.le_of_not_lt hge)] at hw
    cases hw
  rw [← hok.subtracted_of_balanced huncounted hequal hlt] at hw
  refine hok.delivered (w := w) ?_ (by rw [hmemory]; rfl) ?_
  · rw [hok.workers.finished w]
    exact List.mem_append_left _ hw
  · -- the message hands on what the workers knew that changed the counter before it
    have hknown := hok.pending.known i m hm w j (by rw [hall]; exact mem_subtracted.mp hw)
    rw [hmemory, SharedMemory.setView_view, Function.update_self, View.known_sup]
    exact le_max_of_le_right hknown

/-- The owner then gets the last message of the counter and may read the output. -/
theorem waitIdle_delivers_one :
    ∃ s s' : State, (machine 1 (· + ·)).Reachable s ∧ s.accepted = [1]
      ∧ s.owner = .waiting [1] ∧ step 1 (· + ·) s (.owner 2) = some s' ∧ s'.owner = .idle
      ∧ Delivered (· + ·) s s'.memory 1 := by
  obtain ⟨s, hrun, haccepted, howner⟩ : ∃ s,
      (machine 1 (· + ·)).run (machine 1 (· + ·)).init waitSchedule = some s ∧ s.accepted = [1]
        ∧ s.owner = .waiting [1] := ⟨_, rfl, rfl, rfl⟩
  have hlast : (((machine 1 (· + ·)).run (machine 1 (· + ·)).init waitSchedule).bind
      (fun s => step 1 (· + ·) s (.owner 2))).map State.owner = some .idle := by decide +kernel
  rw [hrun] at hlast
  obtain ⟨s', hstep, hreturn⟩ := Option.map_eq_some_iff.mp hlast
  have hreach := Machine.ReachableBy.run (L := fun _ => True) Machine.ReachableBy.init
    (fun _ _ => trivial) hrun
  have hdelivered := waitIdle_delivers (by decide) (by decide) hreach howner hstep hreturn 1
    (by rw [haccepted]; exact List.mem_singleton_self 1)
  exact ⟨s, s', hreach, haccepted, howner, hstep, hreturn, hdelivered⟩

/-- **When the destructor returns, all jobs are done and their outputs may be read**, with any
number of workers: none is left in a queue. -/
theorem destructor_delivers (hn : 0 < n) (h : (machine n work).Reachable s)
    (howner : s.owner = .destroyed) : ∀ j ∈ s.accepted, Delivered work s s.memory j := by
  have hok := ok_of_reachable hn h
  intro j hj
  obtain ⟨w, hw⟩ := hok.owner.counted j (List.mem_append_left _ hj)
  have hlt : w < joinedCount n s.owner := by
    rw [howner]
    by_contra hge
    rw [hok.owner.unused w (Nat.le_of_not_lt hge)] at hw
    cases hw
  have hexited := hok.stops.joined w hlt
  have hfinished : j ∈ s.finished w := by
    have hpopped := hok.workers.popped w
    rw [hexited, hok.stops.exited w hexited] at hpopped
    rw [hpopped] at hw
    exact (List.mem_append.mp hw).resolve_right List.not_mem_nil
  exact hok.delivered hfinished rfl (hok.stops.known w hlt j hfinished)

/-- A run with one worker that is destroyed with a job in the queue. -/
def destroySchedule : List Action :=
  [.submit 7, .owner 0, .owner 0, .owner 0, .owner 0, .owner 0, .owner 0, .destroy, .owner 0,
    .owner 0, .worker 0 1, .worker 0 0, .worker 0 1, .worker 0 0, .worker 0 0, .worker 0 0,
    .worker 0 0, .worker 0 0, .worker 0 1, .worker 0 1, .owner 0, .owner 0]

/-- The worker finishes it before it exits. -/
theorem destructor_delivers_one :
    ∃ s : State, (machine 1 (· + ·)).Reachable s ∧ s.accepted = [1] ∧ s.owner = .destroyed
      ∧ Delivered (· + ·) s s.memory 1 := by
  obtain ⟨s, hrun, haccepted, howner⟩ : ∃ s,
      (machine 1 (· + ·)).run (machine 1 (· + ·)).init destroySchedule = some s ∧ s.accepted = [1]
        ∧ s.owner = .destroyed := ⟨_, rfl, rfl, rfl⟩
  have hreach := Machine.ReachableBy.run (L := fun _ => True) Machine.ReachableBy.init
    (fun _ _ => trivial) hrun
  have hdelivered := destructor_delivers (by decide) hreach howner 1
    (by rw [haccepted]; exact List.mem_singleton_self 1)
  exact ⟨s, hreach, haccepted, howner, hdelivered⟩

end JobSystemMemory

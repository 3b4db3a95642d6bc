import Mathlib.Data.List.Induction
import Mathlib.Data.List.Nodup
import Mathlib.Logic.Function.Basic

/-!
# Intrusive doubly linked lists

The nodes of an intrusive list carry its links themselves: each has a pointer to
the next node and one to the previous, and a head points to the first. A pointer
that points nowhere is `none`. Nodes are put in front and taken out at any
position, by redirecting the pointers of their neighbours.

What the pointers spell is a list of nodes (`Links.Spells`): putting a node in
front conses it, and taking a node out erases it.
-/

variable {ν : Type*}

/-- The pointers of a list and of all nodes that may be in it. -/
structure Links (ν : Type*) where
  head : Option ν
  next : ν → Option ν
  prev : ν → Option ν

namespace Links

/-- No list, and no node that points anywhere. -/
def empty : Links ν := ⟨none, fun _ => none, fun _ => none⟩

/-! ## What the pointers spell -/

/-- **The nodes are chained**, between a node before them and one after. -/
def Chain (L : Links ν) : Option ν → List ν → Option ν → Prop
  | _, [], _ => True
  | before, n :: rest, after =>
    L.prev n = before ∧ L.next n = rest.head?.or after ∧ Chain L (some n) rest after

/-- **The pointers spell the list.** -/
structure Spells (L : Links ν) (l : List ν) : Prop where
  head : L.head = l.head?
  chain : L.Chain none l none
  nodup : l.Nodup

theorem spells_empty : (empty : Links ν).Spells [] where
  head := rfl
  chain := trivial
  nodup := List.nodup_nil

variable {L L' : Links ν} {n : ν} {before after : Option ν} {l : List ν}

/-- A chain reads the pointers of its own nodes only. -/
theorem Chain.congr (hc : L.Chain before l after)
    (hsame : ∀ n ∈ l, L'.next n = L.next n ∧ L'.prev n = L.prev n) :
    L'.Chain before l after := by
  induction l generalizing before with
  | nil => trivial
  | cons n rest ih =>
    obtain ⟨hnext, hprev⟩ := hsame n List.mem_cons_self
    exact ⟨hprev.trans hc.1, hnext.trans hc.2.1,
      ih hc.2.2 (fun m hm => hsame m (List.mem_cons_of_mem _ hm))⟩

/-- **A chain is cut anywhere**: the first part is followed by the first node of
the second, which is preceded by the last of the first. -/
theorem chain_append (a b : List ν) :
    L.Chain before (a ++ b) after
      ↔ L.Chain before a (b.head?.or after) ∧ L.Chain (a.getLast?.or before) b after := by
  induction a generalizing before with
  | nil => simp [Chain]
  | cons n rest ih =>
    have hhead : (rest ++ b).head?.or after = rest.head?.or (b.head?.or after) := by
      rw [List.head?_append, Option.or_assoc]
    have hlast : (n :: rest).getLast?.or before = rest.getLast?.or (some n) := by
      cases rest with
      | nil => rfl
      | cons m rest => simp [List.getLast?_cons]
    rw [List.cons_append, Chain, ih, Chain, hhead, hlast]
    tauto

/-! ## Putting nodes in and taking them out -/

variable [DecidableEq ν]

/-- Where there is a node, point it back. -/
def setPrev (L : Links ν) (node : Option ν) (target : Option ν) : Links ν :=
  match node with
  | some q => { L with prev := Function.update L.prev q target }
  | none => L

/-- Where there is a node, point it on, and the head otherwise. -/
def setNext (L : Links ν) (node : Option ν) (target : Option ν) : Links ν :=
  match node with
  | some p => { L with next := Function.update L.next p target }
  | none => { L with head := target }

/-- Point a node nowhere. -/
def clear (L : Links ν) (n : ν) : Links ν :=
  { L with prev := Function.update L.prev n none, next := Function.update L.next n none }

/-- **A node put in front**: it points to the head, the first node back to it,
and the head to it. -/
def pushFront (L : Links ν) (n : ν) : Links ν :=
  let L := { L with prev := Function.update L.prev n none }
  let L := { L with next := Function.update L.next n L.head }
  let L := L.setPrev L.head (some n)
  { L with head := some n }

/-- **A node taken out**: the previous one is pointed to the next, or the head
where there is none, the next one to the previous, and the node nowhere. -/
def remove (L : Links ν) (n : ν) : Links ν :=
  let L := L.setNext (L.prev n) (L.next n)
  let L := L.setPrev (L.next n) (L.prev n)
  L.clear n

/-- The last node of a chain pointed elsewhere. -/
theorem Chain.redirectLast (hc : L.Chain before l after) (hnodup : l.Nodup) (target : Option ν) :
    (L.setNext l.getLast? target).Chain before l target := by
  induction l using List.reverseRecOn with
  | nil => trivial
  | append_singleton a p _ =>
    obtain ⟨-, -, hdisjoint⟩ := List.nodup_append.mp hnodup
    obtain ⟨ha, hprev, -, -⟩ := (chain_append a [p]).mp hc
    rw [List.getLast?_concat]
    refine (chain_append a [p]).mpr ⟨ha.congr (fun m hm => ⟨?_, rfl⟩), hprev, ?_, trivial⟩
    · exact Function.update_of_ne (hdisjoint m hm p (List.mem_singleton_self p)) _ _
    · exact Function.update_self _ _ _

/-- The first node of a chain pointed back elsewhere. -/
theorem Chain.redirectFirst (hc : L.Chain before l after) (hnodup : l.Nodup) (target : Option ν) :
    (L.setPrev l.head? target).Chain target l after := by
  cases l with
  | nil => trivial
  | cons q rest =>
    refine ⟨Function.update_self _ _ _, hc.2.1, hc.2.2.congr (fun m hm => ⟨rfl, ?_⟩)⟩
    refine Function.update_of_ne (fun heq => ?_) _ _
    exact (List.nodup_cons.mp hnodup).1 (heq ▸ hm)

/-- Redirecting a node leaves the others as they were. -/
theorem setNext_next_of_ne {node target : Option ν} (hne : node ≠ some n) :
    (L.setNext node target).next n = L.next n := by
  cases node with
  | none => rfl
  | some p => exact Function.update_of_ne (fun heq => hne (by rw [heq])) _ _

theorem setPrev_prev_of_ne {node target : Option ν} (hne : node ≠ some n) :
    (L.setPrev node target).prev n = L.prev n := by
  cases node with
  | none => rfl
  | some q => exact Function.update_of_ne (fun heq => hne (by rw [heq])) _ _

theorem clear_next_of_ne {m : ν} (hne : m ≠ n) : (L.clear n).next m = L.next m :=
  Function.update_of_ne hne _ _

theorem clear_prev_of_ne {m : ν} (hne : m ≠ n) : (L.clear n).prev m = L.prev m :=
  Function.update_of_ne hne _ _

@[simp] theorem setNext_prev (node target : Option ν) :
    (L.setNext node target).prev = L.prev := by
  cases node with
  | none => rfl
  | some p => rfl

@[simp] theorem setPrev_next (node target : Option ν) :
    (L.setPrev node target).next = L.next := by
  cases node with
  | none => rfl
  | some q => rfl

@[simp] theorem setPrev_head (node target : Option ν) :
    (L.setPrev node target).head = L.head := by
  cases node with
  | none => rfl
  | some q => rfl

/-- **Putting a node in front conses it.** -/
theorem Spells.pushFront (hs : L.Spells l) (hn : n ∉ l) : (L.pushFront n).Spells (n :: l) := by
  have hne : l.head? ≠ some n := fun heq => hn (List.mem_of_mem_head? heq)
  unfold Links.pushFront
  simp only [hs.head]
  refine ⟨rfl, ⟨?_, ?_, ?_⟩, List.nodup_cons.mpr ⟨hn, hs.nodup⟩⟩
  · show (setPrev _ l.head? (some n)).prev n = none
    rw [setPrev_prev_of_ne hne]
    exact Function.update_self _ _ _
  · show (setPrev _ l.head? (some n)).next n = _
    rw [setPrev_next, Option.or_none]
    exact Function.update_self _ _ _
  · -- the new node is not in the chain, whose first node is pointed back to it
    have hchain : Chain {
        head := l.head?
        next := Function.update L.next n l.head?
        prev := Function.update L.prev n none } none l none := by
      refine hs.chain.congr (fun m hm => ?_)
      have hmn : m ≠ n := fun heq => hn (heq ▸ hm)
      exact ⟨Function.update_of_ne hmn _ _, Function.update_of_ne hmn _ _⟩
    exact (hchain.redirectFirst hs.nodup (some n)).congr (fun m _ => ⟨rfl, rfl⟩)

/-- **Taking a node out erases it.** -/
theorem Spells.remove (hs : L.Spells l) (hn : n ∈ l) : (L.remove n).Spells (l.erase n) := by
  obtain ⟨a, b, rfl⟩ := List.append_of_mem hn
  obtain ⟨ha, hprev, hnext, hb⟩ := (chain_append a (n :: b)).mp hs.chain
  obtain ⟨hnoda, hnodb, hdisjoint⟩ := List.nodup_append.mp hs.nodup
  obtain ⟨hnb, hnodb⟩ := List.nodup_cons.mp hnodb
  have hna : n ∉ a := fun hmem => hdisjoint n hmem n List.mem_cons_self rfl
  have hab : ∀ m ∈ a, m ∉ b := fun m hm hmb => hdisjoint m hm m (List.mem_cons_of_mem _ hmb) rfl
  rw [List.erase_append_right _ hna, List.erase_cons_head]
  rw [Option.or_none] at hprev hnext
  have hlast : ∀ m, m ∉ a → a.getLast? ≠ some m := fun m hm heq => hm (List.mem_of_getLast? heq)
  have hfirst : ∀ m, m ∉ b → b.head? ≠ some m := fun m hm heq => hm (List.mem_of_mem_head? heq)
  -- the two redirections, at the ends of the two parts
  have hremove : L.remove n
      = ((L.setNext a.getLast? b.head?).setPrev b.head? a.getLast?).clear n := by
    unfold Links.remove
    simp only [hprev, hnext, setNext_prev, setNext_next_of_ne (hlast n hna)]
  rw [hremove]
  refine ⟨?_, (chain_append a b).mpr ⟨?_, ?_⟩,
    List.nodup_append.mpr ⟨hnoda, hnodb, fun m hm m' hm' heq => hab m hm (heq ▸ hm')⟩⟩
  · show ((L.setNext a.getLast? b.head?).setPrev b.head? a.getLast?).head = _
    rw [setPrev_head]
    cases a using List.reverseRecOn with
    | nil => rfl
    | append_singleton a p =>
      rw [List.getLast?_concat]
      show L.head = _
      rw [hs.head]
      simp
  · rw [Option.or_none]
    refine (ha.redirectLast hnoda b.head?).congr (fun m hm => ?_)
    have hmn : m ≠ n := fun heq => hna (heq ▸ hm)
    rw [clear_next_of_ne hmn, clear_prev_of_ne hmn, setPrev_next,
      setPrev_prev_of_ne (hfirst m (hab m hm))]
    exact ⟨rfl, rfl⟩
  · rw [Option.or_none]
    have hb' : (L.setNext a.getLast? b.head?).Chain (some n) b none :=
      hb.congr (fun m hm => ⟨setNext_next_of_ne (hlast m (fun hma => hab m hma hm)), by simp⟩)
    refine (hb'.redirectFirst hnodb a.getLast?).congr (fun m hm => ?_)
    have hmn : m ≠ n := fun heq => hnb (heq ▸ hm)
    exact ⟨clear_next_of_ne hmn, clear_prev_of_ne hmn⟩

end Links

import Mathlib.Logic.Function.Basic
import Mathlib.Data.Int.ModEq
import Mathlib.Data.List.Infix

/-!
# A ring of slots as a window on a sequence

A ring buffer of `c` slots stores the `i`-th element of an endless sequence in
slot `i % c`. What it holds is a window: the elements from the `lo`-th on, as
many as have been stored. `Holds` says so without ever computing an index from
another – both ends are counted from the start of the sequence, and the slots
are found by reducing the count.

The window can be extended at the end as long as it is shorter than the ring,
since the slot written is then none of those it covers (`Holds.write`,
`Holds.snoc`), and shortened at the front at any time (`Holds.shrink`).
-/

namespace Ring

variable {α : Type} {c : ℕ} {slots : ℕ → α} {xs : List α} {lo : ℕ}

/-- **The slots hold the sequence from position `lo` on.** -/
def Holds (c : ℕ) (slots : ℕ → α) (xs : List α) (lo : ℕ) : Prop :=
  ∀ i x, lo ≤ i → xs[i]? = some x → slots (i % c) = x

/-- Two positions less than a turn apart have different slots. -/
theorem mod_ne_of_lt {i j : ℕ} (hlt : i < j) (hturn : j < i + c) : i % c ≠ j % c := by
  intro heq
  have hc : 0 < c := by omega
  have hdvd : c ∣ j - i := (Nat.modEq_iff_dvd' (le_of_lt hlt)).mp heq
  have hle := Nat.le_of_dvd (by omega) hdvd
  omega

/-- Two positions at most a turn apart with one slot are the same or a whole
turn apart. -/
theorem eq_or_eq_add_of_mod_eq {i j : ℕ} (hle : i ≤ j) (hturn : j ≤ i + c)
    (heq : i % c = j % c) : j = i ∨ j = i + c := by
  by_contra hne
  rw [not_or] at hne
  exact mod_ne_of_lt (by omega) (by omega) heq

/-- **The distance of two positions, by their slots**, where it is less than a
turn. -/
theorem distance {lo hi : ℕ} (hle : lo ≤ hi) (hturn : hi < lo + c) :
    (hi % c + c - lo % c) % c = hi - lo := by
  obtain ⟨m, rfl⟩ := Nat.exists_eq_add_of_le hle
  have hlt : lo % c < c := Nat.mod_lt lo (by omega)
  rw [Nat.add_sub_cancel_left, ← Nat.mod_add_mod]
  generalize lo % c = r at hlt ⊢
  by_cases hwrap : r + m < c
  · have hsum : (r + m) % c + c - r = m + c := by
      rw [Nat.mod_eq_of_lt hwrap]
      omega
    rw [hsum, Nat.add_mod_right, Nat.mod_eq_of_lt (by omega)]
  · -- the slot of the later position comes before that of the earlier one
    have hsum : (r + m) % c + c - r = m := by
      rw [Nat.mod_eq_sub_mod (by omega), Nat.mod_eq_of_lt (by omega)]
      omega
    rw [hsum, Nat.mod_eq_of_lt (by omega)]

/-- The first element of the window is in its slot. -/
theorem Holds.read {x : α} (h : Holds c slots xs lo) (hx : xs[lo]? = some x) :
    slots (lo % c) = x :=
  h lo x (le_refl lo) hx

/-- **Writing past the window disturbs nothing**, where there is a free slot. -/
theorem Holds.write (h : Holds c slots xs lo) (hroom : xs.length < lo + c) (x : α) :
    Holds c (Function.update slots (xs.length % c) x) xs lo := by
  intro i y hlo hy
  obtain ⟨hi, -⟩ := List.getElem?_eq_some_iff.mp hy
  rw [Function.update_of_ne (mod_ne_of_lt hi (by omega))]
  exact h i y hlo hy

/-- **The window takes in the slot past it.** -/
theorem Holds.snoc {x : α} (h : Holds c slots xs lo) (hx : slots (xs.length % c) = x) :
    Holds c slots (xs ++ [x]) lo := by
  intro i y hlo hy
  by_cases hi : i < xs.length
  · rw [List.getElem?_append_left hi] at hy
    exact h i y hlo hy
  · rw [List.getElem?_append_right (by omega), List.getElem?_singleton] at hy
    split at hy
    · rename_i hzero
      cases hy
      have hlast : i = xs.length := by omega
      rw [hlast]
      exact hx
    · cases hy

/-- The window lets go of its front. -/
theorem Holds.shrink {lo' : ℕ} (h : Holds c slots xs lo) (hle : lo ≤ lo') :
    Holds c slots xs lo' :=
  fun i x hlo hx => h i x (le_trans hle hlo) hx

end Ring

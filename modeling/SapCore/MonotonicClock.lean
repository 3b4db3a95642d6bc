import SapCore.SignedWord

/-!
# The monotonic clock

`now_ns` reads a counter of the system and converts it to nanoseconds. Linux gives
seconds and nanoseconds, which are put together. Windows gives ticks of some frequency,
and the product of the ticks with `10 ^ 9` does not fit a word for long: the seconds are
split off first and only the remainder is scaled. The split loses nothing
(`scale_split`), so the clock denotes the exact quotient, as long as that is a word.

The arithmetic is that of signed words (`SignedWord`): the outer `Option` of a reading
is nothing where the computation overflows.
-/

open SignedWord

/-- `timespec`: seconds and nanoseconds. -/
structure Timespec where
  tvSec : Int64
  tvNsec : Int64
  deriving DecidableEq, Repr

namespace Timespec

/-- What the kernel accepts: whole seconds and less than one second, neither below zero. -/
def Valid (ts : Timespec) : Prop :=
  0 ≤ ts.tvSec.toInt ∧ 0 ≤ ts.tvNsec.toInt ∧ ts.tvNsec.toInt < 1000000000

/-- The nanoseconds it denotes. -/
def nanoseconds (ts : Timespec) : ℤ := ts.tvSec.toInt * 1000000000 + ts.tvNsec.toInt

end Timespec

/-- **`system_monotonic_clock`.** -/
structure SystemMonotonicClock where
  frequencyHz : Int64
  startTicks : Int64
  deriving DecidableEq, Repr

namespace SystemMonotonicClock

/-! ## Linux -/

/-- The constructor on Linux. -/
def newLinux : SystemMonotonicClock := ⟨0, 0⟩

/-- `now_ns` on Linux, given what `clock_gettime` returns: a time, or the text of its
error. -/
def nowNsLinux : Except String Timespec → Option (Except String Int64)
  | .error strerror => some (.error ("SystemMonotonicClock::now_ns: " ++ strerror))
  | .ok ts => do
    let secs ← mul ts.tvSec 1000000000
    let now ← add secs ts.tvNsec
    return .ok now

/-- **The clock of Linux denotes the time it was given**, while that is a word. -/
theorem nowNsLinux_of_valid {ts : Timespec} (hvalid : ts.Valid) (hfit : ts.nanoseconds < 2 ^ 63) :
    ∃ n, nowNsLinux (.ok ts) = some (.ok n) ∧ n.toInt = ts.nanoseconds := by
  obtain ⟨hsec, hnsec, -⟩ := hvalid
  unfold Timespec.nanoseconds at hfit
  obtain ⟨secs, hsecs, hval⟩ := exists_ofExact (x := ts.tvSec.toInt * 1000000000)
    (by omega) (by omega)
  obtain ⟨now, hnow, hnowval⟩ := exists_ofExact (x := secs.toInt + ts.tvNsec.toInt)
    (by omega) (by omega)
  have hmul : mul ts.tvSec 1000000000 = some secs := hsecs
  have hadd : add secs ts.tvNsec = some now := hnow
  refine ⟨now, ?_, by rw [hnowval, hval]; rfl⟩
  simp only [nowNsLinux, hmul, hadd, Option.bind_eq_bind, Option.bind_some, Option.pure_def]

/-! ## Windows -/

/-- The constructor on Windows, given what `QueryPerformanceFrequency` writes. -/
def newWindows (freq : Int64) : SystemMonotonicClock := ⟨freq, 0⟩

/-- `now_ns` on Windows, given what `QueryPerformanceCounter` writes, or that it fails. -/
def nowNsWindows (clock : SystemMonotonicClock) : Option Int64 → Option (Except String Int64)
  | none =>
    some (.error "system_monotonic_clock::now_ns: QueryPerformanceCounter failed")
  | some now => do
    let secs ← div now clock.frequencyHz
    let rem ← mod now clock.frequencyHz
    let whole ← mul secs 1000000000
    let scaled ← mul rem 1000000000
    let part ← div scaled clock.frequencyHz
    let ns ← add whole part
    return .ok ns

/-- **Splitting off the quotient before scaling loses nothing**: a number `f * q + r`
scaled by `k` and divided by `f` is `q` scaled, and the quotient of `r` scaled. -/
theorem scale_split {f q r p s k : ℤ} (hf : 0 < f) (hp : f * p + s = r * k) (hs : 0 ≤ s)
    (hlt : s < f) : (f * q + r) * k / f = q * k + p := by
  have hsum : (f * q + r) * k = s + f * (q * k + p) := by
    rw [Int.add_mul, ← hp]
    ring
  rw [hsum, Int.add_mul_ediv_left _ _ hf.ne', Int.ediv_eq_zero_of_lt hs hlt, Int.zero_add]

/-- The conversion of one counter value. -/
theorem nowNsWindows_eq {f t : Int64} (hf : 0 < f.toInt) (hscale : f.toInt * 10 ^ 9 < 2 ^ 63)
    (ht : 0 ≤ t.toInt) (hfit : t.toInt * 10 ^ 9 / f.toInt < 2 ^ 63) :
    ∃ n, (newWindows f).nowNsWindows (some t) = some (.ok n)
      ∧ n.toInt = t.toInt * 10 ^ 9 / f.toInt := by
  obtain ⟨secs, rem, hsecs, hrem, hsplit, -, hremlt, hpos, -⟩ := exists_div_mod t hf
  obtain ⟨hsecs0, hrem0⟩ := hpos ht
  -- the remainder is below the frequency, so scaling it stays below `f * 10 ^ 9`
  obtain ⟨scaled, hscaled, hscaledval⟩ := exists_ofExact (x := rem.toInt * 1000000000)
    (by omega) (by omega)
  obtain ⟨part, s, hpart, -, hpsplit, -, hslt, hpos', -⟩ := exists_div_mod scaled hf
  obtain ⟨hpart0, hs0⟩ := hpos' (by omega)
  have hexact := scale_split (q := secs.toInt) hf (hpsplit.trans hscaledval) hs0 hslt
  rw [hsplit] at hexact
  rw [show (10 : ℤ) ^ 9 = 1000000000 from rfl, hexact] at hfit
  obtain ⟨whole, hwhole, hwholeval⟩ := exists_ofExact (x := secs.toInt * 1000000000)
    (by omega) (by omega)
  obtain ⟨n, hn, hnval⟩ := exists_ofExact (x := whole.toInt + part.toInt)
    (by omega) (by omega)
  have hwhole' : mul secs 1000000000 = some whole := hwhole
  have hscaled' : mul rem 1000000000 = some scaled := hscaled
  have hn' : add whole part = some n := hn
  refine ⟨n, ?_, by rw [hnval, hwholeval]; exact hexact.symm⟩
  simp only [nowNsWindows, newWindows, hsecs, hrem, hwhole', hscaled', hpart, hn',
    Option.bind_eq_bind, Option.bind_some, Option.pure_def]

/-- **The clock of Windows is exact and monotone.** For every frequency and every counter
value whose time in nanoseconds is a word, no step of the conversion overflows, the
reading is the quotient rounded down, and a later counter value does not give an earlier
reading. -/
theorem nowNsWindows_exact (f : Int64) (hf : 0 < f.toInt) (hscale : f.toInt * 10 ^ 9 < 2 ^ 63) :
    (∀ t : Int64, 0 ≤ t.toInt → t.toInt * 10 ^ 9 / f.toInt < 2 ^ 63 →
      ∃ n, (newWindows f).nowNsWindows (some t) = some (.ok n)
        ∧ n.toInt = t.toInt * 10 ^ 9 / f.toInt)
    ∧ ∀ t t' n n' : Int64, 0 ≤ t.toInt → t ≤ t' → t'.toInt * 10 ^ 9 / f.toInt < 2 ^ 63 →
      (newWindows f).nowNsWindows (some t) = some (.ok n) →
      (newWindows f).nowNsWindows (some t') = some (.ok n') → n ≤ n' := by
  refine ⟨fun t ht hfit => nowNsWindows_eq hf hscale ht hfit, ?_⟩
  intro t t' n n' ht hle hfit hn hn'
  have hlet := Int64.le_iff_toInt_le.mp hle
  have hmono : t.toInt * 10 ^ 9 / f.toInt ≤ t'.toInt * 10 ^ 9 / f.toInt :=
    Int.ediv_le_ediv hf (by omega)
  obtain ⟨m, hm, hmval⟩ := nowNsWindows_eq hf hscale ht (by omega)
  obtain ⟨m', hm', hmval'⟩ := nowNsWindows_eq hf hscale (by omega) hfit
  rw [hm, Option.some.injEq, Except.ok.injEq] at hn
  rw [hm', Option.some.injEq, Except.ok.injEq] at hn'
  rw [Int64.le_iff_toInt_le, ← hn, ← hn', hmval, hmval']
  exact hmono

/-- At ten megahertz and after 285 years, where the product of the ticks with `10 ^ 9`
is far from a word. -/
theorem nowNsWindows_exact_tenMegahertz :
    ((∃ n, (newWindows 10000000).nowNsWindows (some 90000000000000001) = some (.ok n)
        ∧ n.toInt = 9000000000000000100)
      ∧ ∀ n n' : Int64,
        (newWindows 10000000).nowNsWindows (some 90000000000000000) = some (.ok n) →
        (newWindows 10000000).nowNsWindows (some 90000000000000001) = some (.ok n') → n ≤ n') := by
  obtain ⟨hexact, hmono⟩ := nowNsWindows_exact 10000000 (by decide) (by decide)
  exact ⟨hexact 90000000000000001 (by decide) (by decide),
    fun n n' => hmono 90000000000000000 90000000000000001 n n' (by decide) (by decide) (by decide)⟩

end SystemMonotonicClock

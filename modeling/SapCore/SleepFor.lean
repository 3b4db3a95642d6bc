import SapCore.MonotonicClock

/-!
# Arming the timer of `sleep_for`

`sleep_for` hands a delay in milliseconds to a timer of the kernel and waits for it.
Linux takes seconds and nanoseconds, Windows takes ticks of a hundred nanoseconds,
negated to say that they count from now, and split into two halves of 32 bits. A delay of
zero would disarm the one and name a date to the other, so both replace it by the
shortest delay there is.

Nothing is done about a delay below zero. Division rounds towards zero and the remainder
is negative, which the kernel of Linux does not accept; on Windows the negation makes a
positive number, which is a date (in 1601). And a delay of more than `(2 ^ 63 - 1) / 10 ^ 4`
milliseconds is not a number of ticks. Between the two, each path asks for the delay it
was given (`asksForDelay_iff`).

Both functions are modelled as a whole: the answers of the kernel and of the executor are
given, the calls are listed in the order in which they are made, destructors included.
-/

open SignedWord

/-! ## Linux -/

namespace LinuxSleep

/-- The `it_value` the timer is armed with; nothing where its computation overflows. -/
def itValue (dt : Int64) : Option Timespec := do
  let tvSec ← div dt 1000
  let ms ← mod dt 1000
  let tvNsec ← mul ms 1000000
  return if tvSec = 0 ∧ tvNsec = 0 then ⟨tvSec, 1⟩ else ⟨tvSec, tvNsec⟩

/-- The calls `sleep_for` makes. -/
inductive Call where
  | timerfdCreate
  | timerfdSettime (fd : Int32) (itValue : Timespec)
  | await (fd : Int32)
  | read (fd : Int32)
  | close (fd : Int32)
  deriving DecidableEq, Repr

/-- What the calls answer: a descriptor, and where one is negative `errno`; whether the
timer was set, or `errno`; what awaiting the descriptor gave. -/
structure Answers where
  tfd : Int32
  createErrno : Int32
  settime : Timespec → Except Int32 Unit
  awaited : Except String Unit

/-- `sleep_for`. The guard of the descriptor closes it last, where it is one. -/
def sleepFor (kernel : Answers) (dt : Int64) : Option (Except String Unit × List Call) :=
  let fd := kernel.tfd
  if fd < 0 then
    some (.error ("sleep_for: timerfd_create failed: " ++ toString kernel.createErrno),
      [.timerfdCreate])
  else do
    let spec ← itValue dt
    match kernel.settime spec with
    | .error errno =>
      return (.error ("sleep_for: timerfd_settime failed: " ++ toString errno),
        [.timerfdCreate, .timerfdSettime fd spec, .close fd])
    | .ok _ =>
      match kernel.awaited with
      | .error e =>
        return (.error e, [.timerfdCreate, .timerfdSettime fd spec, .await fd, .close fd])
      | .ok _ =>
        return (.ok (),
          [.timerfdCreate, .timerfdSettime fd spec, .await fd, .read fd, .close fd])

/-- The values the timer is armed with. -/
def armed (calls : List Call) : List Timespec :=
  calls.filterMap fun
    | .timerfdSettime _ spec => some spec
    | _ => none

/-- **What the path owes for a delay**: whenever there is a descriptor, the timer is armed
once, with a value the kernel accepts and that does not disarm it. That is the delay, or
one nanosecond where it is not positive. -/
def AsksForDelay (dt : Int64) : Prop :=
  ∀ kernel : Answers, 0 ≤ kernel.tfd →
    ∃ result calls spec, sleepFor kernel dt = some (result, calls) ∧ armed calls = [spec]
      ∧ spec.Valid ∧ ¬ (spec.tvSec = 0 ∧ spec.tvNsec = 0)
      ∧ (0 < dt.toInt → spec.nanoseconds = dt.toInt * 1000000)
      ∧ (dt.toInt ≤ 0 → spec.nanoseconds ≤ 1)

/-- A delay of zero is replaced by the shortest there is. -/
theorem itValue_zero : itValue 0 = some ⟨0, 1⟩ := by decide

/-- **Any other delay is denoted by its conversion**, which does not overflow; both parts
are on the side of zero the delay is on. -/
theorem itValue_of_ne_zero {dt : Int64} (hdt : dt.toInt ≠ 0) :
    ∃ sec nsec, itValue dt = some ⟨sec, nsec⟩
      ∧ sec.toInt * 1000000000 + nsec.toInt = dt.toInt * 1000000
      ∧ nsec.toInt < 1000000000
      ∧ (0 < dt.toInt → 0 ≤ sec.toInt ∧ 0 ≤ nsec.toInt)
      ∧ (dt.toInt < 0 → sec.toInt ≤ 0 ∧ nsec.toInt ≤ 0) := by
  obtain ⟨sec, ms, hsec, hms, hsum, hlo, hhi, hpos, hneg⟩ :=
    exists_div_mod dt (b := 1000) (by decide)
  replace hsum : 1000 * sec.toInt + ms.toInt = dt.toInt := hsum
  replace hlo : -1000 < ms.toInt := hlo
  replace hhi : ms.toInt < 1000 := hhi
  obtain ⟨nsec, hnsec, hval⟩ := exists_ofExact (x := ms.toInt * 1000000) (by omega) (by omega)
  have hmul : mul ms 1000000 = some nsec := hnsec
  have hother : ¬ (sec = 0 ∧ nsec = 0) := by
    rintro ⟨rfl, rfl⟩
    replace hsum : 1000 * (0 : ℤ) + ms.toInt = dt.toInt := hsum
    replace hval : (0 : ℤ) = ms.toInt * 1000000 := hval
    omega
  refine ⟨sec, nsec, ?_, by omega, by omega, by omega, by omega⟩
  simp only [itValue, hsec, hms, hmul, if_neg hother, Option.bind_eq_bind, Option.bind_some,
    Option.pure_def]

/-- **The timer is armed with the converted delay, once**, whenever there is a
descriptor, which is closed at the end and not before. -/
theorem sleepFor_armed (kernel : Answers) (htfd : 0 ≤ kernel.tfd) {dt : Int64} {spec : Timespec}
    (hspec : itValue dt = some spec) :
    ∃ result calls, sleepFor kernel dt = some (result, calls ++ [.close kernel.tfd])
      ∧ armed (calls ++ [.close kernel.tfd]) = [spec] ∧ .close kernel.tfd ∉ calls := by
  have hfd : ¬ kernel.tfd < 0 := Int32.not_lt.mpr htfd
  unfold sleepFor
  rw [if_neg hfd, hspec]
  simp only [Option.bind_eq_bind, Option.bind_some]
  cases kernel.settime spec with
  | error errno => exact ⟨_, [.timerfdCreate, .timerfdSettime kernel.tfd spec], rfl, rfl, by simp⟩
  | ok u =>
    cases kernel.awaited with
    | error e =>
      exact ⟨_, [.timerfdCreate, .timerfdSettime kernel.tfd spec, .await kernel.tfd], rfl, rfl,
        by simp⟩
    | ok u =>
      exact ⟨_, [.timerfdCreate, .timerfdSettime kernel.tfd spec, .await kernel.tfd,
        .read kernel.tfd], rfl, rfl, by simp⟩

/-- The delay that is asked for is the one the timer is armed with. -/
theorem asksForDelay_iff_itValue {dt : Int64} {spec : Timespec} (hspec : itValue dt = some spec) :
    AsksForDelay dt ↔ spec.Valid ∧ ¬ (spec.tvSec = 0 ∧ spec.tvNsec = 0)
      ∧ (0 < dt.toInt → spec.nanoseconds = dt.toInt * 1000000)
      ∧ (dt.toInt ≤ 0 → spec.nanoseconds ≤ 1) := by
  constructor
  · intro hasks
    have htfd : (0 : Int32) ≤ 0 := by decide
    obtain ⟨result, calls, hcalls, harmed, -⟩ :=
      sleepFor_armed ⟨0, 0, fun _ => .ok (), .ok ()⟩ htfd hspec
    obtain ⟨result', calls', spec', hcalls', harmed', howed⟩ :=
      hasks ⟨0, 0, fun _ => .ok (), .ok ()⟩ htfd
    rw [hcalls', Option.some.injEq, Prod.mk.injEq] at hcalls
    rw [← hcalls.2, harmed', List.cons.injEq] at harmed
    exact harmed.1 ▸ howed
  · intro howed kernel htfd
    obtain ⟨result, calls, hcalls, harmed, -⟩ := sleepFor_armed kernel htfd hspec
    exact ⟨result, _, spec, hcalls, harmed, howed⟩

/-- **Linux is asked for every delay that is not negative**, and for no other. -/
theorem asksForDelay_iff_nonneg (dt : Int64) : AsksForDelay dt ↔ 0 ≤ dt.toInt := by
  by_cases hdt : dt.toInt = 0
  · obtain rfl : dt = 0 := Int64.toInt_inj.mp hdt
    rw [asksForDelay_iff_itValue itValue_zero]
    exact iff_of_true ⟨⟨by decide, by decide, by decide⟩, by decide, by decide, by decide⟩
      (by decide)
  obtain ⟨sec, nsec, hspec, hsum, hlt, hpos, hneg⟩ := itValue_of_ne_zero hdt
  rw [asksForDelay_iff_itValue hspec]
  constructor
  · rintro ⟨⟨hsec, hnsec, -⟩, -, -, -⟩
    by_contra hlt'
    replace hsec : 0 ≤ sec.toInt := hsec
    replace hnsec : 0 ≤ nsec.toInt := hnsec
    omega
  · intro hle
    obtain ⟨hsec, hnsec⟩ := hpos (by omega)
    refine ⟨⟨hsec, hnsec, hlt⟩, ?_, fun _ => hsum, by omega⟩
    rintro ⟨hsec0, hnsec0⟩
    replace hsec0 : sec = 0 := hsec0
    replace hnsec0 : nsec = 0 := hnsec0
    rw [hsec0, hnsec0] at hsum
    replace hsum : (0 : ℤ) = dt.toInt * 1000000 := hsum
    omega

end LinuxSleep

/-! ## Windows -/

/-- `FILETIME`: a number of ticks in two halves. -/
structure FileTime where
  dwLowDateTime : UInt32
  dwHighDateTime : UInt32
  deriving DecidableEq, Repr

namespace FileTime

/-- The two halves of a number of ticks. -/
def ofTicks (ticks : Int64) : FileTime :=
  ⟨(ticks.toUInt64 &&& 0xFFFFFFFF).toUInt32, (ticks.toUInt64 >>> 32).toUInt32⟩

/-- What the kernel reads: the halves put together, as a signed number. -/
def ticks (due : FileTime) : ℤ :=
  ((due.dwHighDateTime.toNat * 2 ^ 32 + due.dwLowDateTime.toNat : ℕ) : ℤ).bmod (2 ^ 64)

/-- **The kernel reads the number that was split.** -/
theorem ticks_ofTicks (a : Int64) : (ofTicks a).ticks = a.toInt := by
  have hlt := a.toUInt64.toNat_lt
  have hlow : (ofTicks a).dwLowDateTime.toNat = a.toUInt64.toNat % 2 ^ 32 := by
    show (a.toUInt64 &&& 0xFFFFFFFF).toUInt32.toNat = _
    rw [UInt64.toNat_toUInt32, UInt64.toNat_and,
      show (0xFFFFFFFF : UInt64).toNat = 2 ^ 32 - 1 from rfl, Nat.and_two_pow_sub_one_eq_mod,
      Nat.mod_mod]
  have hhigh : (ofTicks a).dwHighDateTime.toNat = a.toUInt64.toNat / 2 ^ 32 := by
    show (a.toUInt64 >>> 32).toUInt32.toNat = _
    rw [UInt64.toNat_toUInt32, UInt64.toNat_shiftRight,
      show (32 : UInt64).toNat % 64 = 32 from rfl, Nat.shiftRight_eq_div_pow]
    omega
  have hwhole : (ofTicks a).dwHighDateTime.toNat * 2 ^ 32 + (ofTicks a).dwLowDateTime.toNat
      = a.toUInt64.toNat := by
    rw [hlow, hhigh]
    omega
  rw [toInt_eq_bmod a, ← hwhole]
  rfl

end FileTime

namespace WindowsSleep

/-- The due time the timer is armed with; nothing where its computation overflows. -/
def dueTime (dt : Int64) : Option FileTime := do
  let scaled ← mul dt 10000
  let ticks ← neg scaled
  return FileTime.ofTicks (if ticks = 0 then -1 else ticks)

/-- The calls `sleep_for` makes; a socket is named by its value. -/
inductive Call where
  | socket
  | bind (s : UInt64)
  | getsockname (s : UInt64)
  | connect (s : UInt64)
  | closesocket (s : UInt64)
  | createThreadpoolTimer
  | setThreadpoolTimer (due : Option FileTime)
  | waitForThreadpoolTimerCallbacks
  | closeThreadpoolTimer
  | await (s : UInt64)
  | recv (s : UInt64)
  deriving DecidableEq, Repr

/-- What the calls answer: a socket, or the code of the error, and so on in order. -/
structure Answers where
  socket : Except Int32 UInt64
  bind : Except Int32 Unit
  getsockname : Except Int32 Unit
  connect : Except Int32 Unit
  timer : Except UInt32 Unit
  awaited : Except String Unit

/-- `make_self_socket`. Its guard closes the socket where a later call fails. -/
def makeSelfSocket (system : Answers) : Except String UInt64 × List Call :=
  match system.socket with
  | .error code => (.error ("sleep_for: socket() failed: " ++ toString code), [.socket])
  | .ok s =>
    match system.bind with
    | .error code =>
      (.error ("sleep_for: bind() failed: " ++ toString code),
        [.socket, .bind s, .closesocket s])
    | .ok _ =>
      match system.getsockname with
      | .error code =>
        (.error ("sleep_for: getsockname() failed: " ++ toString code),
          [.socket, .bind s, .getsockname s, .closesocket s])
      | .ok _ =>
        match system.connect with
        | .error code =>
          (.error ("sleep_for: connect() failed: " ++ toString code),
            [.socket, .bind s, .getsockname s, .connect s, .closesocket s])
        | .ok _ => (.ok s, [.socket, .bind s, .getsockname s, .connect s])

/-- What the guard of the timer does at the end: disarm it, wait for a callback that
runs, and close it. -/
def releaseTimer : List Call :=
  [.setThreadpoolTimer none, .waitForThreadpoolTimerCallbacks, .closeThreadpoolTimer]

/-- `sleep_for`. The guards release the timer and then the socket. -/
def sleepFor (system : Answers) (dt : Int64) : Option (Except String Unit × List Call) :=
  match makeSelfSocket system with
  | (.error e, calls) => some (.error e, calls)
  | (.ok s, calls) =>
    match system.timer with
    | .error code =>
      some (.error ("sleep_for: CreateThreadpoolTimer failed: " ++ toString code),
        calls ++ [.createThreadpoolTimer, .closesocket s])
    | .ok _ => do
      let due ← dueTime dt
      let calls := calls ++ [.createThreadpoolTimer, .setThreadpoolTimer (some due), .await s]
      match system.awaited with
      | .error e => return (.error e, calls ++ releaseTimer ++ [.closesocket s])
      | .ok _ => return (.ok (), calls ++ [.recv s] ++ releaseTimer ++ [.closesocket s])

/-- The due times the timer is armed with. -/
def armed (calls : List Call) : List FileTime :=
  calls.filterMap fun
    | .setThreadpoolTimer due => due
    | _ => none

/-- A socket and a timer could be made. -/
def Answers.Serves (system : Answers) (s : UInt64) : Prop :=
  makeSelfSocket system = (.ok s, [.socket, .bind s, .getsockname s, .connect s])
    ∧ system.timer = .ok ()

/-- **What the path owes for a delay**: whenever there are a socket and a timer, the timer
is armed once, relative to now. The ticks are those of the delay, or one where it is not
positive. -/
def AsksForDelay (dt : Int64) : Prop :=
  ∀ system s, Answers.Serves system s →
    ∃ result calls due, sleepFor system dt = some (result, calls) ∧ armed calls = [due]
      ∧ due.ticks < 0
      ∧ (0 < dt.toInt → -due.ticks = dt.toInt * 10000)
      ∧ (dt.toInt ≤ 0 → -due.ticks ≤ 1)

/-- **The timer is armed with the due time, once**; it is closed before the socket is,
which is closed at the end and not before. -/
theorem sleepFor_armed {system : Answers} {s : UInt64} (hserves : system.Serves s) {dt : Int64}
    {due : FileTime} (hdue : dueTime dt = some due) :
    ∃ result calls, sleepFor system dt
        = some (result, calls ++ [.closeThreadpoolTimer, .closesocket s])
      ∧ armed (calls ++ [.closeThreadpoolTimer, .closesocket s]) = [due]
      ∧ .closeThreadpoolTimer ∉ calls ∧ .closesocket s ∉ calls := by
  obtain ⟨hsock, htimer⟩ := hserves
  unfold sleepFor
  rw [hsock, htimer, hdue]
  simp only [Option.bind_eq_bind, Option.bind_some]
  cases system.awaited with
  | error e =>
    exact ⟨_, [.socket, .bind s, .getsockname s, .connect s, .createThreadpoolTimer,
      .setThreadpoolTimer (some due), .await s, .setThreadpoolTimer none,
      .waitForThreadpoolTimerCallbacks], rfl, rfl, by simp, by simp⟩
  | ok u =>
    exact ⟨_, [.socket, .bind s, .getsockname s, .connect s, .createThreadpoolTimer,
      .setThreadpoolTimer (some due), .await s, .recv s, .setThreadpoolTimer none,
      .waitForThreadpoolTimerCallbacks], rfl, rfl, by simp, by simp⟩

/-- Whether the delay is asked for depends on the due time alone. -/
theorem asksForDelay_iff_dueTime (dt : Int64) :
    AsksForDelay dt ↔ ∃ due, dueTime dt = some due ∧ due.ticks < 0
      ∧ (0 < dt.toInt → -due.ticks = dt.toInt * 10000)
      ∧ (dt.toInt ≤ 0 → -due.ticks ≤ 1) := by
  constructor
  · intro hasks
    have hserves : Answers.Serves ⟨.ok 0, .ok (), .ok (), .ok (), .ok (), .ok ()⟩ 0 := ⟨rfl, rfl⟩
    obtain ⟨result', calls', due', hcalls', harmed', howed⟩ := hasks _ 0 hserves
    cases hdue : dueTime dt with
    | none =>
      -- the conversion overflows, and with it the call
      unfold sleepFor at hcalls'
      rw [hserves.1, hdue] at hcalls'
      cases hcalls'
    | some due =>
      obtain ⟨result, calls, hcalls, harmed, -⟩ := sleepFor_armed hserves hdue
      rw [hcalls', Option.some.injEq, Prod.mk.injEq] at hcalls
      rw [← hcalls.2, harmed', List.cons.injEq] at harmed
      exact ⟨due, rfl, harmed.1 ▸ howed⟩
  · rintro ⟨due, hdue, howed⟩ system s hserves
    obtain ⟨result, calls, hcalls, harmed, -⟩ := sleepFor_armed hserves hdue
    exact ⟨result, _, due, hcalls, harmed, howed⟩

/-- **The due time of a delay other than zero** is its ticks, negated, where those are a
word. -/
theorem dueTime_of_ne_zero {dt : Int64} (hdt : dt.toInt ≠ 0) {due : FileTime} :
    dueTime dt = some due ↔ ∃ ticks : Int64, ticks.toInt = -(dt.toInt * 10000)
      ∧ due = FileTime.ofTicks ticks := by
  have hscaled : ∀ scaled : Int64, mul dt 10000 = some scaled ↔ scaled.toInt = dt.toInt * 10000 :=
    fun _ => mul_eq_some
  simp only [dueTime, Option.bind_eq_bind, Option.pure_def, Option.bind_eq_some_iff,
    Option.some.injEq, hscaled, neg_eq_some]
  constructor
  · rintro ⟨scaled, hs, ticks, ht, rfl⟩
    have hother : ticks ≠ 0 := by
      rintro rfl
      replace ht : (0 : ℤ) = -scaled.toInt := ht
      omega
    exact ⟨ticks, by rw [ht, hs], by rw [if_neg hother]⟩
  · rintro ⟨ticks, ht, rfl⟩
    have hlo := ticks.le_toInt
    have hhi := ticks.toInt_lt
    obtain ⟨scaled, -, hs⟩ := exists_ofExact (x := dt.toInt * 10000) (by omega) (by omega)
    have hother : ticks ≠ 0 := by
      rintro rfl
      replace ht : (0 : ℤ) = -(dt.toInt * 10000) := ht
      omega
    exact ⟨scaled, hs, ticks, by rw [ht, hs], by rw [if_neg hother]⟩

/-- **Windows is asked for every delay that is not negative and whose ticks are a word**,
and for no other. -/
theorem asksForDelay_iff_range (dt : Int64) :
    AsksForDelay dt ↔ 0 ≤ dt.toInt ∧ dt.toInt ≤ 922337203685477 := by
  rw [asksForDelay_iff_dueTime]
  by_cases hdt : dt.toInt = 0
  · obtain rfl : dt = 0 := Int64.toInt_inj.mp hdt
    exact iff_of_true ⟨FileTime.ofTicks (-1), by decide, by rw [FileTime.ticks_ofTicks]; decide,
      by decide, fun _ => by rw [FileTime.ticks_ofTicks]; decide⟩ (by decide)
  constructor
  · rintro ⟨due, hdue, hneg, -, hshort⟩
    obtain ⟨ticks, ht, rfl⟩ := (dueTime_of_ne_zero hdt).mp hdue
    have hlo := ticks.le_toInt
    rw [FileTime.ticks_ofTicks] at hneg
    omega
  · rintro ⟨hlo, hhi⟩
    obtain ⟨ticks, -, ht⟩ := exists_ofExact (x := -(dt.toInt * 10000)) (by omega) (by omega)
    refine ⟨_, (dueTime_of_ne_zero hdt).mpr ⟨ticks, ht, rfl⟩, ?_⟩
    rw [FileTime.ticks_ofTicks]
    omega

end WindowsSleep

/-- **The delays both systems are asked for**: from zero to the largest whose ticks are a
word, about 29 000 years. -/
theorem asksForDelay_iff (dt : Int64) :
    LinuxSleep.AsksForDelay dt ∧ WindowsSleep.AsksForDelay dt
      ↔ 0 ≤ dt.toInt ∧ dt.toInt ≤ 922337203685477 := by
  rw [LinuxSleep.asksForDelay_iff_nonneg, WindowsSleep.asksForDelay_iff_range]
  omega

/-- **A negative delay is passed on.** Minus one millisecond arms the timer of Linux with
`-10 ^ 6` nanoseconds, which is not accepted, and that of Windows with `10 ^ 4` ticks, which
is a date; and of the longest delay there is no number of ticks. -/
theorem negativeDelay_not_asked :
    LinuxSleep.itValue (-1) = some ⟨0, -1000000⟩
      ∧ ¬ (⟨0, -1000000⟩ : Timespec).Valid
      ∧ WindowsSleep.dueTime (-1) = some ⟨10000, 0⟩
      ∧ WindowsSleep.dueTime Int64.maxValue = none
      ∧ ¬ LinuxSleep.AsksForDelay (-1) ∧ ¬ WindowsSleep.AsksForDelay (-1)
      ∧ ¬ WindowsSleep.AsksForDelay Int64.maxValue := by
  refine ⟨by decide, fun h => absurd h.2.1 (by decide), by decide, by decide, ?_, ?_, ?_⟩
  · rw [LinuxSleep.asksForDelay_iff_nonneg]
    decide
  · rw [WindowsSleep.asksForDelay_iff_range]
    decide
  · rw [WindowsSleep.asksForDelay_iff_range]
    decide

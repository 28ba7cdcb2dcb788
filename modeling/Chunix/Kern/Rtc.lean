import Chunix.Machine.Act
import Mathlib.Tactic.SplitIfs

/-!
# The clock

`read_rtc` reads the registers of the clock until it gets the same values twice in a
row, as its comment says; but its loop goes on while the values are the same and ends
when they differ. What it has read then is converted to the time. The conversion is
right in every format of the clock, except for the two hours that a clock of twelve
hours calls twelve.
-/

namespace Chunix

namespace Rtc

open Machine

/-- The registers of the clock as bytes. -/
structure Raw where
  sec : UInt8
  min : UInt8
  hour : UInt8
  mday : UInt8
  mon : UInt8
  year : UInt8
deriving DecidableEq, Repr

/-- The fields of `struct tm` that are set. -/
structure Tm where
  sec : Nat
  min : Nat
  hour : Nat
  mday : Nat
  mon : Nat
  year : Nat
deriving DecidableEq, Repr

/-- The macro `CURRENT_YEAR`. -/
def currentYear : Nat := 2013

/-- The macro `bcd2bin`. -/
def bcd2bin (a : Nat) : Nat := (a &&& 0x0F) + a / 16 * 10

/-- The value of a register: a decimal number of two digits, unless register B says
that it is a binary one. -/
def decodeByte (registerB a : UInt8) : Nat :=
  if registerB &&& 0x04 = 0 then bcd2bin a.toNat else a.toNat

/-- The value of the register of the hour. Bit 7 is kept by the conversion of the
digits, and is that of the afternoon if register B says that the clock has twelve
hours. -/
def decodeHour (registerB a : UInt8) : Nat :=
  let hour := if registerB &&& 0x04 = 0 then
    ((a.toNat &&& 0x0F) + (a.toNat &&& 0x70) / 16 * 10) ||| (a.toNat &&& 0x80) else a.toNat
  if registerB &&& 0x02 = 0 ∧ hour &&& 0x80 ≠ 0 then ((hour &&& 0x7F) + 12) % 24 else hour

/-- What one round of reading finds: the values of status register A while the code
waits, the registers and the century. -/
structure Reading where
  statusA : Nat → UInt8
  raw : Raw
  century : UInt8

/-- The clock: the rounds of reading one after the other, register B, and the register
`century_register` of the century, which is zero if there is none. `stale` is the value
of the variable `century` before it is set. -/
structure Cmos where
  reading : Nat → Reading
  registerB : UInt8
  centuryRegister : Nat
  stale : UInt8

/-- The loop that waits for the end of an update, from its turn `i` on. -/
def awaitUpdate (statusA : Nat → UInt8) : Nat → Nat → Act Nat Unit
  | 0, _ => Act.halt .hang
  | fuel + 1, i => if statusA i &&& 0x80 ≠ 0 then awaitUpdate statusA fuel (i + 1) else return ()

/-- The variables `*tmp` and `century`. -/
structure Shot where
  raw : Raw
  century : UInt8
deriving DecidableEq, Repr

section

variable (c : Cmos)

/-- The registers as the round `n` reads them. -/
def Cmos.shot (n : Nat) : Shot where
  raw := (c.reading n).raw
  century := if c.centuryRegister ≠ 0 then (c.reading n).century else c.stale

/-- One round of reading. The state is the number of rounds so far. -/
def readRegisters (fuel : Nat) : Act Nat Shot := do
  let n ← Act.get
  awaitUpdate (c.reading n).statusA fuel 0
  Act.modify fun n => n + 1
  return c.shot n

/-- The do-while loop: the values that the last two rounds have read. -/
def rtcLoop (fuel : Nat) : Nat → Shot → Act Nat (Shot × Shot)
  | 0, _ => Act.halt .hang
  | k + 1, old => do
      let tm ← readRegisters c fuel
      if old = tm then rtcLoop fuel k tm else return (old, tm)

/-- `read_rtc` up to the end of its loop. -/
def readRaw (fuel : Nat) : Act Nat (Shot × Shot) := do
  let first ← readRegisters c fuel
  rtcLoop c fuel fuel first

/-- The conversion of the registers. -/
def convert (registerB : UInt8) (s : Shot) : Tm where
  sec := decodeByte registerB s.raw.sec
  min := decodeByte registerB s.raw.min
  hour := decodeHour registerB s.raw.hour
  mday := decodeByte registerB s.raw.mday
  mon := decodeByte registerB s.raw.mon
  year :=
    if c.centuryRegister ≠ 0 then
      decodeByte registerB s.raw.year + decodeByte registerB s.century * 100
    else
      let year := decodeByte registerB s.raw.year + currentYear / 100 * 100
      if year < currentYear then year + 100 else year

/-- `read_rtc`. -/
def readRtc (fuel : Nat) : Act Nat Tm := do
  let (_, tm) ← readRaw c fuel
  return convert c c.registerB tm

end

/-- The century changes in the round behind `k`, and no register has changed up to
there. -/
structure CenturyFirst (c : Cmos) (k : Nat) : Prop where
  raw : ∀ j, j ≤ k → (c.reading (j + 1)).raw = (c.reading j).raw
  century : ∀ j, j < k → (c.reading (j + 1)).century = (c.reading j).century
  changes : (c.reading (k + 1)).century ≠ (c.reading k).century

section

variable {c : Cmos} {fuel k n : Nat} {old : Shot} {r : Shot × Shot}

theorem awaitUpdate_state {statusA : Nat → UInt8} {i n' : Nat} {u : Unit}
    (h : awaitUpdate statusA fuel i n = .ok (u, n')) : n' = n := by
  induction fuel generalizing i with
  | zero => cases h
  | succ fuel ih =>
      rw [awaitUpdate] at h
      rcases Act.ite_eq_ok.1 h with ⟨-, h⟩ | ⟨-, h⟩
      · exact ih h
      · exact (Act.pure_eq_ok.1 h).2.symm

theorem readRegisters_eq_ok {s : Shot} {n' : Nat} (h : readRegisters c fuel n = .ok (s, n')) :
    s = c.shot n ∧ n' = n + 1 := by
  obtain ⟨_, _, hget, h⟩ := Act.bind_eq_ok.1 h
  obtain ⟨rfl, rfl⟩ := Act.get_eq_ok.1 hget
  obtain ⟨_, n₁, hwait, h⟩ := Act.bind_eq_ok.1 h
  obtain rfl := awaitUpdate_state hwait
  obtain ⟨_, n₂, hm, h⟩ := Act.bind_eq_ok.1 h
  obtain rfl := Act.modify_eq_ok.1 hm
  obtain ⟨rfl, rfl⟩ := Act.pure_eq_ok.1 h
  exact ⟨rfl, rfl⟩

/-- The loop ends behind the first round that reads something else than the one before
it. -/
theorem rtcLoop_eq_ok {n' : Nat} (h : rtcLoop c fuel k (c.shot n) (n + 1) = .ok (r, n')) :
    ∃ m, n ≤ m ∧ r = (c.shot m, c.shot (m + 1)) ∧ c.shot m ≠ c.shot (m + 1) ∧
      ∀ j, n ≤ j → j < m → c.shot j = c.shot (j + 1) := by
  induction k generalizing n with
  | zero => cases h
  | succ k ih =>
      obtain ⟨s, n₁, hs, h⟩ := Act.bind_eq_ok.1 h
      obtain ⟨rfl, rfl⟩ := readRegisters_eq_ok hs
      rcases Act.ite_eq_ok.1 h with ⟨hsame, h⟩ | ⟨hdiff, h⟩
      · obtain ⟨m, hm, hr, hne, hbefore⟩ := ih h
        refine ⟨m, by omega, hr, hne, fun j hj hjm => ?_⟩
        rcases Nat.eq_or_lt_of_le hj with rfl | hlt
        · exact hsame
        · exact hbefore j hlt hjm
      · obtain ⟨rfl, -⟩ := Act.pure_eq_ok.1 h
        exact ⟨n, Nat.le_refl n, rfl, hdiff, fun j hj hjn => absurd hj (Nat.not_le.2 hjn)⟩

theorem readRaw_eq_ok {n' : Nat} (h : readRaw c fuel 0 = .ok (r, n')) :
    ∃ m, r = (c.shot m, c.shot (m + 1)) ∧ c.shot m ≠ c.shot (m + 1) ∧
      ∀ j, j < m → c.shot j = c.shot (j + 1) := by
  obtain ⟨s, n₁, hs, h⟩ := Act.bind_eq_ok.1 h
  obtain ⟨rfl, rfl⟩ := readRegisters_eq_ok hs
  obtain ⟨m, -, hr, hne, hbefore⟩ := rtcLoop_eq_ok h
  exact ⟨m, hr, hne, fun j => hbefore j (Nat.zero_le j)⟩

/-- When `read_rtc` leaves its loop, the registers that it converts are equal to those
of the round before if and only if there is a register for the century and it changes
before any other register does. -/
theorem readRaw_stable_iff {n' : Nat} (h : readRaw c fuel 0 = .ok (r, n')) :
    r.1.raw = r.2.raw ↔ c.centuryRegister ≠ 0 ∧ ∃ k, CenturyFirst c k := by
  obtain ⟨m, rfl, hne, hbefore⟩ := readRaw_eq_ok h
  constructor
  · intro hraw
    have hcentury : (c.shot m).century ≠ (c.shot (m + 1)).century := by
      intro hcentury
      exact hne (by rw [Shot.mk.injEq]; exact ⟨hraw, hcentury⟩)
    have hreg : c.centuryRegister ≠ 0 := by
      intro hreg
      simp [Cmos.shot, hreg] at hcentury
    refine ⟨hreg, m, fun j hj => ?_, fun j hj => ?_, ?_⟩
    · rcases Nat.eq_or_lt_of_le hj with rfl | hlt
      · exact hraw.symm
      · exact (congrArg Shot.raw (hbefore j hlt)).symm
    · have := congrArg Shot.century (hbefore j hj)
      simpa [Cmos.shot, hreg] using this.symm
    · simpa [Cmos.shot, hreg] using hcentury.symm
  · rintro ⟨hreg, k, hk⟩
    -- the loop cannot go on behind the change of the century, nor end before it
    have hmk : m ≤ k := by
      by_contra hlt
      have := congrArg Shot.century (hbefore k (by omega))
      simp only [Cmos.shot, if_pos hreg] at this
      exact hk.changes this.symm
    exact (hk.raw m hmk).symm

end

/-- A clock whose registers are `before` in the first round and `after` from then on,
with binary numbers and 24 hours. -/
def tick (centuryRegister : Nat) (before after : Shot) : Cmos where
  reading n := ⟨fun _ => 0, (if n = 0 then before else after).raw, (if n = 0 then before else after).century⟩
  registerB := 0x06
  centuryRegister := centuryRegister
  stale := 0

/-- The last second of the year 2013. -/
def lastSecond : Raw := ⟨59, 59, 23, 31, 12, 13⟩

/-- The century changes alone. -/
theorem tick_stable : ∃ r n, readRaw (tick 0x32 ⟨lastSecond, 20⟩ ⟨lastSecond, 21⟩) 2 0 = .ok (r, n) ∧
    r.1.raw = r.2.raw := by
  have hread : readRaw (tick 0x32 ⟨lastSecond, 20⟩ ⟨lastSecond, 21⟩) 2 0 =
      .ok ((⟨lastSecond, 20⟩, ⟨lastSecond, 21⟩), 2) := rfl
  refine ⟨_, _, hread, (readRaw_stable_iff hread).2 ⟨by decide, 0, ?_⟩⟩
  refine ⟨fun j hj => ?_, fun j hj => absurd hj (Nat.not_lt_zero j), by decide⟩
  obtain rfl : j = 0 := by omega
  rfl

/-- The date changes between the two rounds, and the time of the old day is taken with
the date of the new one. -/
theorem tick_torn : ∃ r n,
    readRaw (tick 0 ⟨lastSecond, 0⟩ ⟨⟨59, 59, 23, 1, 1, 14⟩, 0⟩) 2 0 = .ok (r, n) ∧
    r.1.raw ≠ r.2.raw ∧
    readRtc (tick 0 ⟨lastSecond, 0⟩ ⟨⟨59, 59, 23, 1, 1, 14⟩, 0⟩) 2 0 =
      .ok (⟨59, 59, 23, 1, 1, 2014⟩, n) := by
  have hread : readRaw (tick 0 ⟨lastSecond, 0⟩ ⟨⟨59, 59, 23, 1, 1, 14⟩, 0⟩) 2 0 =
      .ok ((⟨lastSecond, 0⟩, ⟨⟨59, 59, 23, 1, 1, 14⟩, 0⟩), 2) := rfl
  have hconvert : convert (tick 0 ⟨lastSecond, 0⟩ ⟨⟨59, 59, 23, 1, 1, 14⟩, 0⟩) 0x06
      ⟨⟨59, 59, 23, 1, 1, 14⟩, 0⟩ = ⟨59, 59, 23, 1, 1, 2014⟩ := by decide +kernel
  refine ⟨_, _, hread, by decide, ?_⟩
  rw [readRtc, Act.bind_of_ok hread, ← hconvert]
  rfl

/-- A date and a time of a hundred years from `CURRENT_YEAR` on. -/
structure DateTime where
  year : Nat
  mon : Nat
  mday : Nat
  hour : Nat
  min : Nat
  sec : Nat
  year_mem : 2013 ≤ year ∧ year ≤ 2112
  mon_mem : 1 ≤ mon ∧ mon ≤ 12
  mday_mem : 1 ≤ mday ∧ mday ≤ 31
  hour_lt : hour < 24
  min_lt : min < 60
  sec_lt : sec < 60

/-- The date and the time in a `struct tm`. -/
def DateTime.toTm (d : DateTime) : Tm := ⟨d.sec, d.min, d.hour, d.mday, d.mon, d.year⟩

/-- A number of two digits in a register, in the format that register B tells. -/
def encodeByte (registerB : UInt8) (n : Nat) : UInt8 :=
  UInt8.ofNat (if registerB &&& 0x04 = 0 then n / 10 * 16 + n % 10 else n)

/-- The hour in its register. A clock of twelve hours calls the first hour of the day
and the first one of the afternoon twelve, and sets bit 7 in the afternoon. -/
def encodeHour (registerB : UInt8) (hour : Nat) : UInt8 :=
  if registerB &&& 0x02 = 0 then
    encodeByte registerB (if hour % 12 = 0 then 12 else hour % 12) ||| if hour < 12 then 0 else 0x80
  else encodeByte registerB hour

/-- The registers of a clock that shows a date and a time. -/
def encode (registerB : UInt8) (d : DateTime) : Raw :=
  ⟨encodeByte registerB d.sec, encodeByte registerB d.min, encodeHour registerB d.hour,
    encodeByte registerB d.mday, encodeByte registerB d.mon, encodeByte registerB (d.year % 100)⟩

section

variable {registerB : UInt8} {n : Nat}

theorem decodeByte_encodeByte (hn : n < 100) : decodeByte registerB (encodeByte registerB n) = n := by
  have hbcd : ∀ n, n < 100 → bcd2bin (UInt8.ofNat (n / 10 * 16 + n % 10)).toNat = n := by decide
  unfold decodeByte encodeByte
  split_ifs with h
  · exact hbcd n hn
  · rw [UInt8.toNat_ofNat']
    omega

/-- The hour is read back unless a clock of twelve hours calls it twelve. -/
theorem decodeHour_encodeHour_iff (hn : n < 24) :
    decodeHour registerB (encodeHour registerB n) = n ↔ registerB &&& 0x02 ≠ 0 ∨ n % 12 ≠ 0 := by
  suffices h : ∀ n, n < 24 → (decodeHour registerB (encodeHour registerB n) = n ↔
      registerB &&& 0x02 ≠ 0 ∨ n % 12 ≠ 0) from h n hn
  -- the hours are few, and of register B only two bits matter
  unfold decodeHour encodeHour encodeByte
  by_cases hbcd : registerB &&& 0x04 = 0
  · by_cases htwelve : registerB &&& 0x02 = 0
    · simp only [hbcd, htwelve, if_true]
      decide
    · simp only [hbcd, htwelve, if_true, if_false, ne_eq, not_false_eq_true, true_or, iff_true]
      decide
  · by_cases htwelve : registerB &&& 0x02 = 0
    · simp only [hbcd, htwelve, if_true, if_false]
      decide
    · simp only [hbcd, htwelve, if_false, ne_eq, not_false_eq_true, true_or, iff_true]
      decide

end

/-- The conversion gives back the date and the time of the clock if and only if the
clock has 24 hours or does not call the hour twelve. -/
theorem convert_encode_iff {c : Cmos} (hc : c.centuryRegister = 0) (registerB century : UInt8)
    (d : DateTime) :
    convert c registerB ⟨encode registerB d, century⟩ = d.toTm ↔
      registerB &&& 0x02 ≠ 0 ∨ d.hour % 12 ≠ 0 := by
  obtain ⟨hyear₁, hyear₂⟩ := d.year_mem
  obtain ⟨-, hmon⟩ := d.mon_mem
  obtain ⟨-, hmday⟩ := d.mday_mem
  have hmin := d.min_lt
  have hsec := d.sec_lt
  rw [← decodeHour_encodeHour_iff d.hour_lt]
  simp only [convert, encode, DateTime.toTm, Tm.mk.injEq,
    decodeByte_encodeByte (show d.sec < 100 by omega),
    decodeByte_encodeByte (show d.min < 100 by omega),
    decodeByte_encodeByte (show d.mday < 100 by omega),
    decodeByte_encodeByte (show d.mon < 100 by omega),
    decodeByte_encodeByte (Nat.mod_lt d.year (show 0 < 100 by decide)), hc, currentYear, true_and]
  refine and_iff_left ?_
  simp only [ne_eq, not_true_eq_false, if_false]
  split_ifs <;> omega

/-- The clock of the repository, with a given register B. -/
def plainClock (registerB : UInt8) : Cmos := ⟨fun _ => ⟨fun _ => 0, lastSecond, 0⟩, registerB, 0, 0⟩

/-- A quarter past the given hour. -/
def quarterPast (hour : Nat) (h : hour < 24) : DateTime :=
  ⟨2014, 7, 10, hour, 15, 0, by decide, by decide, by decide, h, by decide, by decide⟩

/-- One o'clock in the afternoon. -/
theorem convert_afternoon : convert (plainClock 0) 0 ⟨encode 0 (quarterPast 13 (by decide)), 0⟩ =
    (quarterPast 13 (by decide)).toTm :=
  (convert_encode_iff rfl 0 0 (quarterPast 13 (by decide))).2 (Or.inr (by decide))

/-- Noon becomes midnight, and midnight becomes noon. -/
theorem convert_noon :
    convert (plainClock 0) 0 ⟨encode 0 (quarterPast 12 (by decide)), 0⟩ =
      (quarterPast 0 (by decide)).toTm ∧
    convert (plainClock 0) 0 ⟨encode 0 (quarterPast 0 (by decide)), 0⟩ =
      (quarterPast 12 (by decide)).toTm := by decide +kernel

end Rtc

end Chunix

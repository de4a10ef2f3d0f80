import Lokicat.Calendar
import Mathlib.Tactic.Ring

/-!
# Broken-down local time

`struct tm` with `localtime` and `mktime` over a zone rule: a standard offset,
a daylight offset and the instants at which daylight time is in force.
`mktime` reads its fields as the flag says, as standard or as daylight time,
and leaves the normalised local time of the instant in the struct.
-/

namespace Lokicat.LocalTime

open Calendar

/-- The fields of `struct tm` that the program or its library calls read. -/
structure Tm where
  tmSec : Int
  tmMin : Int
  tmHour : Int
  tmMday : Int
  tmMon : Int
  tmYear : Int
  tmWday : Int
  tmIsdst : Int
  deriving DecidableEq, Repr

def Tm.zero : Tm := ⟨0, 0, 0, 0, 0, 0, 0, 0⟩

structure ZoneRule where
  std : Int
  dst : Int
  daylight : Int → Bool

/-- The rule of a zone that never changes its clocks. -/
def ZoneRule.constant (off : Int) : ZoneRule := ⟨off, off, fun _ => false⟩

/-- Seconds east of UTC in force at an instant. -/
def ZoneRule.offset (z : ZoneRule) (t : Int) : Int := if z.daylight t then z.dst else z.std

/-- The day number of 1 January 1970. -/
def epochDay : Int := 719162

def Tm.date (tm : Tm) : Date := ⟨1900 + tm.tmYear + tm.tmMon / 12, tm.tmMon % 12, tm.tmMday⟩

/-- The fields as seconds since the epoch on a clock without an offset. -/
def Tm.wall (tm : Tm) : Int :=
  (tm.date.number - epochDay) * 86400 + tm.tmHour * 3600 + tm.tmMin * 60 + tm.tmSec

/-- The fields a clock without an offset shows. -/
def breakDown (w isdst : Int) : Tm :=
  let n := w / 86400 + epochDay
  let d := dateOf n
  let s := w % 86400
  { tmSec := s % 60
    tmMin := s / 60 % 60
    tmHour := s / 3600
    tmMday := d.day
    tmMon := d.month
    tmYear := d.year - 1900
    tmWday := (n + 1) % 7
    tmIsdst := isdst }

def localtime (z : ZoneRule) (t : Int) : Tm :=
  breakDown (t + z.offset t) (if z.daylight t then 1 else 0)

/-- The offset `mktime` assumes: the flag decides unless it is negative. -/
def ZoneRule.assumed (z : ZoneRule) (tm : Tm) : Int :=
  if 0 < tm.tmIsdst then z.dst
  else if tm.tmIsdst = 0 then z.std
  else if z.daylight (tm.wall - z.dst) then z.dst
  else z.std

/-- The instant, and the struct as `mktime` leaves it. -/
def mktime (z : ZoneRule) (tm : Tm) : Int × Tm :=
  let t := tm.wall - z.assumed tm
  (t, localtime z t)

/-- The fields name a day and a time that a clock can show. -/
def Tm.Valid (tm : Tm) : Prop :=
  tm.date.Valid ∧ 0 ≤ tm.tmMon ∧ tm.tmMon ≤ 11 ∧ 0 ≤ tm.tmHour ∧ tm.tmHour ≤ 23 ∧
    0 ≤ tm.tmMin ∧ tm.tmMin ≤ 59 ∧ 0 ≤ tm.tmSec ∧ tm.tmSec ≤ 59

instance (tm : Tm) : Decidable tm.Valid :=
  inferInstanceAs (Decidable (tm.date.Valid ∧ 0 ≤ tm.tmMon ∧ tm.tmMon ≤ 11 ∧ 0 ≤ tm.tmHour ∧
    tm.tmHour ≤ 23 ∧ 0 ≤ tm.tmMin ∧ tm.tmMin ≤ 59 ∧ 0 ≤ tm.tmSec ∧ tm.tmSec ≤ 59))

@[simp] theorem constant_offset (off t : Int) : (ZoneRule.constant off).offset t = off := rfl

theorem date_of_month {tm : Tm} (h₁ : 0 ≤ tm.tmMon) (h₂ : tm.tmMon ≤ 11) :
    tm.date = ⟨1900 + tm.tmYear, tm.tmMon, tm.tmMday⟩ := by
  have hd : tm.tmMon / 12 = 0 := by omega
  have hm : tm.tmMon % 12 = tm.tmMon := by omega
  simp only [Tm.date, hd, hm, Int.add_zero]

theorem breakDown_month (w f : Int) : 0 ≤ (breakDown w f).tmMon ∧ (breakDown w f).tmMon ≤ 11 := by
  have h := dateOf_valid (w / 86400 + epochDay)
  exact ⟨h.1, h.2.1⟩

@[simp] theorem breakDown_date (w f : Int) :
    (breakDown w f).date = dateOf (w / 86400 + epochDay) := by
  have h := breakDown_month w f
  rw [date_of_month h.1 h.2]
  ext <;> simp [breakDown]

/-- Breaking down loses nothing. -/
@[simp] theorem wall_breakDown (w f : Int) : (breakDown w f).wall = w := by
  unfold Tm.wall
  rw [breakDown_date, number_dateOf]
  simp only [breakDown]
  omega

theorem breakDown_valid (w f : Int) : (breakDown w f).Valid := by
  refine ⟨?_, (breakDown_month w f).1, (breakDown_month w f).2, ?_⟩
  · rw [breakDown_date]
    exact dateOf_valid _
  · simp only [breakDown]
    omega

/-- Valid fields are what a clock shows at their own reading. -/
theorem breakDown_wall {tm : Tm} (h : tm.Valid) (f : Int) :
    breakDown tm.wall f =
      { tm with tmWday := (breakDown tm.wall f).tmWday, tmIsdst := f } := by
  obtain ⟨hd, hm₁, hm₂, ht⟩ := h
  have hday : tm.wall / 86400 + epochDay = tm.date.number := by unfold Tm.wall; omega
  have hsec : tm.wall % 86400 = tm.tmHour * 3600 + tm.tmMin * 60 + tm.tmSec := by
    unfold Tm.wall; omega
  have hdate : dateOf tm.date.number = ⟨1900 + tm.tmYear, tm.tmMon, tm.tmMday⟩ := by
    rw [dateOf_number hd, date_of_month hm₁ hm₂]
  simp only [breakDown, hday, hsec, hdate]
  obtain ⟨h₁, h₂, h₃, h₄, h₅, h₆⟩ := ht
  cases tm
  simp only [Tm.mk.injEq, and_true, true_and] at *
  omega

/-- Valid fields are determined by their reading. -/
theorem wall_injective {a b : Tm} (ha : a.Valid) (hb : b.Valid) (h : a.wall = b.wall) :
    b = { a with tmWday := b.tmWday, tmIsdst := b.tmIsdst } := by
  have hab := breakDown_wall ha 0
  rw [h, breakDown_wall hb 0] at hab
  cases b
  simp only [Tm.mk.injEq, and_true] at hab ⊢
  tauto

@[simp] theorem wall_localtime (z : ZoneRule) (t : Int) :
    (localtime z t).wall = t + z.offset t := wall_breakDown _ _

theorem localtime_valid (z : ZoneRule) (t : Int) : (localtime z t).Valid := breakDown_valid _ _

/-- The flag of a local time makes `mktime` assume the offset that was in force. -/
@[simp] theorem assumed_localtime (z : ZoneRule) (t : Int) :
    z.assumed (localtime z t) = z.offset t := by
  unfold ZoneRule.assumed ZoneRule.offset localtime
  cases z.daylight t <;> simp [breakDown]

/-- `mktime` undoes `localtime`. -/
@[simp] theorem mktime_localtime (z : ZoneRule) (t : Int) :
    mktime z (localtime z t) = (t, localtime z t) := by
  have ht : (localtime z t).wall - z.assumed (localtime z t) = t := by
    rw [wall_localtime, assumed_localtime]
    omega
  simp only [mktime, ht]

/-- A zone of constant offset takes the fields whatever the flag says. -/
@[simp] theorem mktime_constant (off : Int) (tm : Tm) :
    (mktime (ZoneRule.constant off) tm).1 = tm.wall - off := by
  simp [mktime, ZoneRule.assumed, ZoneRule.constant]

/-- The same month, day and time in another year. -/
def Tm.inYear (tm : Tm) (y : Int) : Tm := { tm with tmYear := y }

@[simp] theorem inYear_self (tm : Tm) : tm.inYear tm.tmYear = tm := rfl

@[simp] theorem inYear_inYear (tm : Tm) (y y' : Int) :
    (tm.inYear y).inYear y' = tm.inYear y' := rfl

theorem date_inYear {tm : Tm} (h₁ : 0 ≤ tm.tmMon) (h₂ : tm.tmMon ≤ 11) (y : Int) :
    (tm.inYear y).date = tm.date.inYear (1900 + y) := by
  have h : (tm.inYear y).date = ⟨1900 + y, tm.tmMon, tm.tmMday⟩ := date_of_month h₁ h₂
  rw [h, date_of_month h₁ h₂]
  rfl

theorem wall_inYear {tm : Tm} (h₁ : 0 ≤ tm.tmMon) (h₂ : tm.tmMon ≤ 11) (y : Int) :
    (tm.inYear y).wall =
      tm.wall + ((tm.date.inYear (1900 + y)).number - tm.date.number) * 86400 := by
  simp only [Tm.wall, date_inYear h₁ h₂]
  simp only [Tm.inYear]
  ring

theorem date_month {tm : Tm} (h₁ : 0 ≤ tm.tmMon) (h₂ : tm.tmMon ≤ 11) :
    tm.date.month = tm.tmMon := by
  rw [date_of_month h₁ h₂]

/-- A year on is `span` days on. -/
theorem wall_next {tm : Tm} (h₁ : 0 ≤ tm.tmMon) (h₂ : tm.tmMon ≤ 11) (y : Int) :
    (tm.inYear (y + 1)).wall =
      (tm.inYear y).wall + span (1900 + y) tm.tmMon * 86400 := by
  rw [wall_inYear h₁ h₂, wall_inYear h₁ h₂, ← Int.add_assoc, number_next, date_month h₁ h₂]
  ring

/-- Two years are at least 365 days apart. -/
theorem wall_year_lt {tm : Tm} (h₁ : 0 ≤ tm.tmMon) (h₂ : tm.tmMon ≤ 11) (y z : Int) (h : y < z) :
    (tm.inYear y).wall + 365 * 86400 ≤ (tm.inYear z).wall := by
  have hlt := number_year_lt tm.date (1900 + y) (1900 + z) (by omega)
  rw [wall_inYear h₁ h₂, wall_inYear h₁ h₂]
  omega

theorem inYear_valid {tm : Tm} (h : tm.Valid) (y : Int)
    (hfeb : tm.tmMon ≠ 1 ∨ tm.tmMday ≠ 29) : (tm.inYear y).Valid := by
  obtain ⟨hdate, hmon₁, hmon₂, htime⟩ := h
  refine ⟨?_, hmon₁, hmon₂, htime⟩
  rw [date_inYear hmon₁ hmon₂]
  apply valid_inYear hdate
  rw [date_of_month hmon₁ hmon₂]
  exact hfeb

@[simp] theorem number_localtime (z : ZoneRule) (t : Int) :
    (localtime z t).date.number = (t + z.offset t) / 86400 + epochDay := by
  rw [localtime, breakDown_date, number_dateOf]

theorem localtime_year (z : ZoneRule) (t : Int) :
    (localtime z t).date.year = 1900 + (localtime z t).tmYear := by
  have h := localtime_valid z t
  rw [date_of_month h.2.1 h.2.2.1]

/-- In another year the flag of a local time still makes `mktime` assume its offset. -/
theorem assumed_inYear (z : ZoneRule) (t y : Int) :
    z.assumed ((localtime z t).inYear y) = z.offset t := by
  cases h : z.daylight t <;>
    simp [ZoneRule.assumed, ZoneRule.offset, Tm.inYear, localtime, breakDown, h]

/-- The day of a reading, for a time of day that a clock can show. -/
theorem number_wall {tm : Tm} (h : tm.Valid) (y : Int) :
    (tm.inYear y).wall / 86400 + epochDay = (tm.date.inYear (1900 + y)).number := by
  obtain ⟨-, hmon₁, hmon₂, htime⟩ := h
  rw [← date_inYear hmon₁ hmon₂]
  simp only [Tm.wall]
  simp only [Tm.inYear]
  omega

/-- The same month, day and time. -/
def Tm.Shows (tm written : Tm) : Prop :=
  tm.tmMon = written.tmMon ∧ tm.tmMday = written.tmMday ∧ tm.tmHour = written.tmHour ∧
    tm.tmMin = written.tmMin ∧ tm.tmSec = written.tmSec

instance (tm written : Tm) : Decidable (tm.Shows written) :=
  inferInstanceAs (Decidable (tm.tmMon = written.tmMon ∧ tm.tmMday = written.tmMday ∧
    tm.tmHour = written.tmHour ∧ tm.tmMin = written.tmMin ∧ tm.tmSec = written.tmSec))

theorem valid_of_shows {tm written : Tm} (h : tm.Valid) (hyear : tm.tmYear = written.tmYear)
    (hshows : tm.Shows written) : written.Valid := by
  obtain ⟨hmon, hmday, hhour, hmin, hsec⟩ := hshows
  simpa only [Tm.Valid, Tm.date, hyear, hmon, hmday, hhour, hmin, hsec] using h

/-- A zone shows the fields at an instant exactly when its clock reads them. -/
theorem shows_iff (z : ZoneRule) (s : Int) {tm : Tm} (h : tm.Valid) :
    (localtime z s).tmYear = tm.tmYear ∧ (localtime z s).Shows tm ↔ s + z.offset s = tm.wall := by
  constructor
  · rintro ⟨hyear, hmon, hmday, hhour, hmin, hsec⟩
    rw [← wall_localtime]
    simp only [Tm.wall, Tm.date, hyear, hmon, hmday, hhour, hmin, hsec]
  · intro hwall
    rw [← wall_localtime] at hwall
    rw [wall_injective h (localtime_valid z s) hwall.symm]
    exact ⟨rfl, rfl, rfl, rfl, rfl, rfl⟩

/-- What is shown with the year left out is the reading of some year. -/
theorem shows_wall {z : ZoneRule} {s : Int} {tm : Tm} (h : (localtime z s).Shows tm) :
    s + z.offset s = (tm.inYear (localtime z s).tmYear).wall := by
  obtain ⟨hmon, hmday, hhour, hmin, hsec⟩ := h
  rw [← wall_localtime]
  simp only [Tm.wall, Tm.date, Tm.inYear, hmon, hmday, hhour, hmin, hsec]

/-- Close to the reading of one year, it is the reading of that year. -/
theorem shows_near {z : ZoneRule} {s : Int} {tm : Tm} (h₁ : 0 ≤ tm.tmMon) (h₂ : tm.tmMon ≤ 11)
    (y : Int) (h : (localtime z s).Shows tm)
    (hlow : (tm.inYear y).wall - 365 * 86400 < s + z.offset s)
    (hhigh : s + z.offset s < (tm.inYear y).wall + 365 * 86400) :
    s + z.offset s = (tm.inYear y).wall := by
  have hwall := shows_wall h
  obtain hlt | heq | hgt := lt_trichotomy (localtime z s).tmYear y
  · have := wall_year_lt h₁ h₂ _ _ hlt
    omega
  · rw [hwall, heq]
  · have := wall_year_lt h₁ h₂ _ _ hgt
    omega

end Lokicat.LocalTime

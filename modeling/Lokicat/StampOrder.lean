import Lokicat.StampWindow

/-!
# Stamps and the clock

In a zone of constant offset a journalctl line is never stamped earlier because it is
read later. A day that no February has is the exception: the step back to the last year
starts from the day that the clock's own year has made of it.
-/

namespace Lokicat.StampOrder

open Calendar CString InputLogread LocalTime Logproto Strptime StampWindow YearInference

theorem newYear_mono {y y' : Int} (h : y ≤ y') : newYear y ≤ newYear y' := by
  have hstart := yearStart_mono (1900 + y) (1900 + y') (by omega)
  simp only [newYear]
  omega

/-- January and February are the first 59 or 60 days. -/
theorem month_lt_two_iff {d : Date} (h : d.Valid) :
    d.month < 2 ↔ d.number < yearStart d.year + 59 + leap d.year := by
  obtain ⟨h₁, h₂, h₃, h₄⟩ := h
  have hleap := leap_zero_or_one d.year
  simp only [monthLength, monthStart] at h₄
  simp only [Date.number, monthStart]
  split at h₄ <;> split at h₄ <;> split <;> omega

/-- Fields that some year has. -/
structure Possible (tm : Tm) : Prop where
  scanned : Scanned tm
  february : tm.tmMon = 1 → tm.tmMday ≤ 29
  second : tm.tmSec ≤ 59

section Constant

variable {off now now' y y' : Int} {tm : Tm}

/-- What a year makes of a date is not before it, in the year before. -/
theorem step_back_le (off y : Int) (h : Possible tm) :
    (tm.inYear y).wall ≤
      ((localtime (ZoneRule.constant off) ((tm.inYear (y + 1)).wall - off)).inYear y).wall := by
  have hmon : 0 ≤ tm.tmMon ∧ tm.tmMon ≤ 11 := h.scanned .month (by decide)
  have hday : 1 ≤ tm.tmMday ∧ tm.tmMday ≤ 31 := h.scanned .day (by decide)
  have hhour : 0 ≤ tm.tmHour ∧ tm.tmHour ≤ 23 := h.scanned .hour (by decide)
  have hmin : 0 ≤ tm.tmMin ∧ tm.tmMin ≤ 59 := h.scanned .minute (by decide)
  have hsec : 0 ≤ tm.tmSec ∧ tm.tmSec ≤ 61 := h.scanned .second (by decide)
  have hfeb := h.february
  have hsecond := h.second
  have hwall := wall_bounds h.scanned (y + 1)
  let made := localtime (ZoneRule.constant off) ((tm.inYear (y + 1)).wall - off)
  have hvalid : made.Valid := localtime_valid _ _
  have hyear : made.tmYear = y + 1 := (year_iff off _ _).mpr (by omega)
  have hreading : made.wall = (tm.inYear (y + 1)).wall := by
    rw [wall_localtime, constant_offset, Int.sub_add_cancel]
  have hnext := wall_next hmon.1 hmon.2 y
  have hback := wall_next hvalid.2.1 hvalid.2.2.1 y
  rw [← hyear, inYear_self, hreading] at hback
  -- The day of the year decides on which side of the leap day the two are.
  have hmonth := month_lt_two_iff hvalid.1
  have hdate : (tm.inYear (y + 1)).date = ⟨1900 + (y + 1), tm.tmMon, tm.tmMday⟩ :=
    @date_of_month (tm.inYear (y + 1)) hmon.1 hmon.2
  have hnumber : made.date.number = (tm.inYear (y + 1)).date.number := by
    rw [number_localtime, constant_offset, Int.sub_add_cancel]
    simp only [Tm.wall]
    simp only [Tm.inYear]
    omega
  have hspan : span (1900 + y) made.tmMon ≤ span (1900 + y) tm.tmMon := by
    have hleap := leap_zero_or_one (1900 + y)
    have hleap' := leap_zero_or_one (1900 + (y + 1))
    have hdateYear : made.date.year = 1900 + (y + 1) := by
      rw [date_of_month hvalid.2.1 hvalid.2.2.1, hyear]
    rw [date_month hvalid.2.1 hvalid.2.2.1, hdateYear, hnumber, hdate] at hmonth
    simp only [Date.number, monthStart] at hmonth
    simp only [span, Int.add_assoc] at hleap' ⊢
    split at hmonth <;> split <;> omega
  show (tm.inYear y).wall ≤ (made.inYear y).wall
  omega

/-- The date in the clock's year is not in the future. -/
theorem seconds_past (hyear : (localtime (ZoneRule.constant off) now).tmYear = y)
    (hpast : (tm.inYear y).wall - off ≤ now) :
    journalctlSeconds (ZoneRule.constant off) now tm = (tm.inYear y).wall - off := by
  rw [journalctlSeconds_eq, firstGuess_wall hyear, if_neg (Int.not_lt.mpr hpast)]

/-- It is, and what it has become is taken in the year before. -/
theorem seconds_future (hyear : (localtime (ZoneRule.constant off) now).tmYear = y)
    (hfuture : now < (tm.inYear y).wall - off) :
    journalctlSeconds (ZoneRule.constant off) now tm =
      ((localtime (ZoneRule.constant off) ((tm.inYear y).wall - off)).inYear (y - 1)).wall -
        off := by
  rw [journalctlSeconds_eq, firstGuess_wall hyear, if_pos hfuture, hyear, constant_offset]

/-- Then it is in that year, and not in the future. -/
theorem seconds_last (h : Possible tm)
    (hyear : (localtime (ZoneRule.constant off) now).tmYear = y)
    (hfuture : now < (tm.inYear y).wall - off) :
    newYear (y - 1) ≤ journalctlSeconds (ZoneRule.constant off) now tm + off ∧
      journalctlSeconds (ZoneRule.constant off) now tm + off < newYear y := by
  have hguess : firstGuess (ZoneRule.constant off) now tm = (tm.inYear y).wall - off :=
    firstGuess_wall hyear
  rw [seconds_future hyear hfuture]
  obtain ⟨-, hlast, -⟩ := window_last_year hyear h.scanned hguess hfuture rfl
  have hshown := (year_iff off _ _).mp hlast
  rw [Int.sub_add_cancel, Int.sub_add_cancel] at hshown
  rwa [Int.sub_add_cancel]

theorem seconds_bounds (h : Possible tm)
    (hyear : (localtime (ZoneRule.constant off) now).tmYear = y) :
    journalctlSeconds (ZoneRule.constant off) now tm ≤ now ∧
      newYear (y - 1) ≤ journalctlSeconds (ZoneRule.constant off) now tm + off := by
  have hnow := (year_iff off now y).mp hyear
  rcases lt_or_ge now ((tm.inYear y).wall - off) with hfuture | hpast
  · have hlast := seconds_last h hyear hfuture
    omega
  · have hyears := newYear_mono (Int.sub_le_self y (by decide : (0 : Int) ≤ 1))
    have hwall := wall_bounds h.scanned y
    rw [seconds_past hyear hpast]
    omega

theorem seconds_monotone (off : Int) (h : Possible tm) (order : now ≤ now') :
    journalctlSeconds (ZoneRule.constant off) now tm ≤
      journalctlSeconds (ZoneRule.constant off) now' tm := by
  obtain ⟨y, hyear⟩ : ∃ y, (localtime (ZoneRule.constant off) now).tmYear = y := ⟨_, rfl⟩
  obtain ⟨y', hyear'⟩ : ∃ y, (localtime (ZoneRule.constant off) now').tmYear = y := ⟨_, rfl⟩
  obtain ⟨hpast, -⟩ := seconds_bounds h hyear
  obtain ⟨-, hlow⟩ := seconds_bounds h hyear'
  have hnow := (year_iff off now y).mp hyear
  have hnow' := (year_iff off now' y').mp hyear'
  have hwall := wall_bounds h.scanned y'
  have hsecond := h.second
  rcases lt_trichotomy y' (y + 1) with hnear | rfl | hfar
  · -- One year, so one guess.
    obtain rfl : y' = y := by
      have hback : ¬ y' + 1 ≤ y := fun hle => by
        have hyears := newYear_mono hle
        omega
      omega
    rcases lt_or_ge now' ((tm.inYear y').wall - off) with hfuture | hdone
    · rw [seconds_future hyear (by omega), seconds_future hyear' hfuture]
    · rw [seconds_past hyear' hdone]
      rcases lt_or_ge now ((tm.inYear y').wall - off) with hfuture | hdone
      · omega
      · rw [seconds_past hyear hdone]
  · -- A New Year in between: the date of the last year, or a later one.
    rcases lt_or_ge now' ((tm.inYear (y + 1)).wall - off) with hfuture | hdone
    · rcases lt_or_ge now ((tm.inYear y).wall - off) with hearly | hlate
      · have hlast := seconds_last h hyear hearly
        rw [Int.add_sub_cancel] at hlow
        omega
      · have hback := step_back_le off y h
        rw [seconds_past hyear hlate, seconds_future hyear' hfuture, Int.add_sub_cancel]
        omega
    · rw [seconds_past hyear' hdone]
      omega
  · -- Two New Years.
    have hyears := newYear_mono (show y + 1 ≤ y' - 1 by omega)
    omega

end Constant

/-- What the second attempt leaves in the struct. -/
def journalctlFields (line : List Byte) : Tm :=
  (strptime line journalctlFormat (strptime line openwrtFormat Tm.zero).2).2

/-- Read at a later clock, a journalctl line with a day that some year has and without a leap
second gets no earlier stamp. -/
theorem stamp_monotone (off now now' : Int) (line : List Byte) (entry entry' : Entry)
    {res : List Byte} (hopenwrt : (strptime line openwrtFormat Tm.zero).1 = none)
    (hjournalctl : (strptime line journalctlFormat (strptime line openwrtFormat Tm.zero).2).1 =
      some res)
    (february : (journalctlFields line).tmMon = 1 → (journalctlFields line).tmMday ≤ 29)
    (second : (journalctlFields line).tmSec ≤ 59) (order : now ≤ now') :
    let z := ZoneRule.constant off
    ∃ t t', (inputLogreadParseLine z now line entry).timestamp =
        some { Timestamp.init with seconds := t } ∧
      (inputLogreadParseLine z now' line entry').timestamp =
        some { Timestamp.init with seconds := t' } ∧ t ≤ t' := by
  intro z
  have hscanned : Scanned (journalctlFields line) :=
    (strptime_inRange (r := res) (Prod.ext hjournalctl rfl)).1
  have hstamp : ∀ now entry, (inputLogreadParseLine z now line entry).timestamp =
      some { Timestamp.init with seconds := journalctlSeconds z now (journalctlFields line) } := by
    intro now entry
    simp only [inputLogreadParseLine, hopenwrt, hjournalctl]
    rfl
  exact ⟨_, _, hstamp now entry, hstamp now' entry',
    seconds_monotone off ⟨hscanned, february, second⟩ order⟩

/-- `"Feb 29 12:00:00"`, read in the leap year that has it and a year later. -/
theorem feb29_monotone :
    let z := ZoneRule.constant 3600
    let line := ascii ['F', 'e', 'b', ' ', '2', '9', ' ', '1', '2', ':', '0', '0', ':', '0', '0']
    ∃ t t', (inputLogreadParseLine z 1593561600 line Entry.init).timestamp =
        some { Timestamp.init with seconds := t } ∧
      (inputLogreadParseLine z 1610668800 line Entry.init).timestamp =
        some { Timestamp.init with seconds := t' } ∧ t ≤ t' :=
  @stamp_monotone 3600 1593561600 1610668800
    (ascii ['F', 'e', 'b', ' ', '2', '9', ' ', '1', '2', ':', '0', '0', ':', '0', '0'])
    Entry.init Entry.init [] (by decide) (by decide) (by decide) (by decide) (by decide)

/-- 30 February is 2 March 2023 when read in that year, and 1 March 2023 in January 2024. -/
example :
    let tm := { Tm.zero with tmMon := 1, tmMday := 30 }
    journalctlSeconds (ZoneRule.constant 0) 1704844800 tm <
      journalctlSeconds (ZoneRule.constant 0) 1703980800 tm := by decide

end Lokicat.StampOrder

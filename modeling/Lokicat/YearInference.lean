import Lokicat.PrintedDates

/-!
# Inferring the year

A journalctl date has no year: the line is stamped with the last date of that
month and day that is not in the future. A date of last year is stepped back
from the struct that the first `mktime` has normalised, where 29 February of a
common year has already become 1 March.
-/

namespace Lokicat.YearInference

open Calendar CString InputLogread LocalTime Logproto PrintedDates Strptime

/-- The date read, taken in the year of a clock reading. -/
def firstGuess (z : ZoneRule) (now : Int) (tm : Tm) : Int :=
  (mktime z (tm.inYear (localtime z now).tmYear)).1

theorem journalctlSeconds_eq (z : ZoneRule) (now : Int) (tm : Tm) :
    journalctlSeconds z now tm =
      if firstGuess z now tm > now then
        ((localtime z (firstGuess z now tm)).inYear ((localtime z now).tmYear - 1)).wall -
          z.offset (firstGuess z now tm)
      else firstGuess z now tm := by
  have hfirst : mktime z { tm with tmYear := (localtime z now).tmYear } =
      (firstGuess z now tm, localtime z (firstGuess z now tm)) := rfl
  simp only [journalctlSeconds, hfirst, mktime_localtime]
  split
  · rw [mktime, ← assumed_inYear z _ ((localtime z now).tmYear - 1)]
    rfl
  · rw [mktime_localtime]

/-- The instant at which a clock on standard time shows the date of `tm` a year on. -/
def yearOn (z : ZoneRule) (tm : Tm) : Int := (tm.inYear (tm.tmYear + 1)).wall - z.std

/-- Without the flag the date is taken as standard time. -/
theorem firstGuess_eq {tm : Tm} (h : tm.tmIsdst = 0) (z : ZoneRule) (now : Int) :
    firstGuess z now tm = yearOn z (tm.inYear ((localtime z now).tmYear - 1)) := by
  simp [firstGuess, yearOn, mktime, ZoneRule.assumed, Tm.inYear, h]

/-- As long as the date a year on is shown in its own year, the step back lands on
the date itself, off by the leap day that only one of the two steps has passed. -/
theorem stepped_back {z : ZoneRule} {tm : Tm} (h₁ : 0 ≤ tm.tmMon) (h₂ : tm.tmMon ≤ 11)
    (hyear : (localtime z (yearOn z tm)).tmYear = tm.tmYear + 1) :
    ((localtime z (yearOn z tm)).inYear tm.tmYear).wall - z.offset (yearOn z tm) =
      tm.wall - z.std + (span (1900 + tm.tmYear) tm.tmMon -
        span (1900 + tm.tmYear) (localtime z (yearOn z tm)).tmMon) * 86400 := by
  have hshown := localtime_valid z (yearOn z tm)
  have hwall := wall_localtime z (yearOn z tm)
  have hon : yearOn z tm = (tm.inYear (tm.tmYear + 1)).wall - z.std := rfl
  have hnext := wall_next h₁ h₂ tm.tmYear
  have hback := wall_next hshown.2.1 hshown.2.2.1 tm.tmYear
  rw [← hyear, inYear_self, hwall] at hback
  rw [inYear_self] at hnext
  rw [Int.sub_mul]
  omega

section Constant

variable (off : Int)

/-- Within a year of a later clock reading, a local year is this one or the last. -/
theorem year_this_or_last {now t : Int} (recent : now - 365 * 86400 < t) (past : t ≤ now) :
    let z := ZoneRule.constant off
    (localtime z t).tmYear = (localtime z now).tmYear ∨
      (localtime z t).tmYear + 1 = (localtime z now).tmYear := by
  intro z
  have ht := (localtime_valid z t).1
  have hn := (localtime_valid z now).1
  have htn := number_localtime z t
  have hnn := number_localtime z now
  simp only [z, constant_offset] at htn hnn
  have hle := year_le ht hn (by simp only [z]; omega)
  have hsucc := year_le_succ ht hn (by simp only [z]; omega)
  rw [localtime_year, localtime_year] at hle hsucc
  omega

/-- The fields of a valid date are shown at their own instant. -/
theorem localtime_wall {tm : Tm} (h : tm.Valid) :
    (localtime (ZoneRule.constant off) (tm.wall - off)).tmYear = tm.tmYear ∧
      (localtime (ZoneRule.constant off) (tm.wall - off)).Shows tm :=
  (shows_iff _ _ h).mpr (by simp)

/-- A year after 29 February it is 1 March. -/
theorem wall_feb29 {tm : Tm} (hmon : tm.tmMon = 1) (hmday : tm.tmMday = 29) {y : Int}
    (hleap : leap (1900 + y) = 0) :
    ({ tm.inYear y with tmMon := 2, tmMday := 1 } : Tm).wall = (tm.inYear y).wall := by
  have hmarch := number_march (1900 + y)
  rw [hleap] at hmarch
  simp [Tm.wall, Tm.date, Tm.inYear, hmon, hmday, hmarch]

/-- Where a valid date is shown when it is taken in another year. -/
theorem shown_inYear {tm : Tm} (h : tm.Valid) {y : Int}
    (hleap : tm.tmMon = 1 ∧ tm.tmMday = 29 → leap (1900 + y) = 0) :
    let shown := localtime (ZoneRule.constant off) ((tm.inYear y).wall - off)
    shown.tmYear = y ∧ shown.tmMon = if tm.tmMon = 1 ∧ tm.tmMday = 29 then 2 else tm.tmMon := by
  intro shown
  by_cases hfeb : tm.tmMon = 1 ∧ tm.tmMday = 29
  · have hvalid : ({ tm.inYear y with tmMon := 2, tmMday := 1 } : Tm).Valid := by
      obtain ⟨-, -, -, htime⟩ := h
      refine ⟨?_, by simp, by simp, htime⟩
      rw [date_of_month (by simp) (by simp)]
      simp [Date.Valid, monthLength, monthStart]
    have hshown := localtime_wall off hvalid
    rw [wall_feb29 hfeb.1 hfeb.2 (hleap hfeb)] at hshown
    rw [if_pos hfeb]
    exact ⟨hshown.1, hshown.2.1⟩
  · have hvalid := inYear_valid h y (by tauto)
    have hshown := localtime_wall off hvalid
    rw [if_neg hfeb]
    exact ⟨hshown.1, hshown.2.1⟩

/-- 29 February is not followed by another one a year later. -/
theorem leap_after_feb29 {tm : Tm} (h : tm.Valid) (hfeb : tm.tmMon = 1 ∧ tm.tmMday = 29) :
    leap (1900 + tm.tmYear) = 1 ∧ leap (1900 + (tm.tmYear + 1)) = 0 := by
  obtain ⟨⟨-, -, -, hlength⟩, hmon₁, hmon₂, -⟩ := h
  rw [date_of_month hmon₁ hmon₂] at hlength
  have hzero := leap_zero_or_one (1900 + tm.tmYear)
  have hnext := leap_zero_or_one (1900 + (tm.tmYear + 1))
  have hone : leap (1900 + tm.tmYear) = 1 := by
    simp only [monthLength, monthStart, hfeb] at hlength
    omega
  refine ⟨hone, hnext.resolve_right fun hleap => ?_⟩
  have hpred := leap_pred hleap
  have hyear : 1900 + (tm.tmYear + 1) - 1 = 1900 + tm.tmYear := by ring
  rw [hyear] at hpred
  omega

/-- A year counts one day more from 29 February than from the day after. -/
theorem span_feb29 {tm : Tm} (h : tm.Valid) (hfeb : tm.tmMon = 1 ∧ tm.tmMday = 29) :
    span (1900 + tm.tmYear) 1 = span (1900 + tm.tmYear) 2 + 1 := by
  obtain ⟨hone, hzero⟩ := leap_after_feb29 h hfeb
  rw [← Int.add_assoc] at hzero
  simp [span, hone, hzero]

theorem wall_written (tm tm₀ : Tm) (y : Int) :
    ((written tm tm₀).inYear y).wall = (tm.inYear y).wall := rfl

theorem seconds_this_year {now t : Int} (past : t ≤ now) :
    let z := ZoneRule.constant off
    (localtime z t).tmYear = (localtime z now).tmYear →
      journalctlSeconds z now (written (localtime z t) Tm.zero) = t := by
  intro z hyear
  have hguess : firstGuess z now (written (localtime z t) Tm.zero) = t := by
    have hnow : (localtime z now).tmYear - 1 + 1 = (localtime z t).tmYear := by omega
    rw [firstGuess_eq rfl, yearOn, inYear_inYear, wall_written]
    show ((localtime z t).inYear ((localtime z now).tmYear - 1 + 1)).wall - off = t
    rw [hnow, inYear_self, wall_localtime]
    exact Int.add_sub_cancel _ _
  rw [journalctlSeconds_eq, hguess, if_neg (by omega)]

/-- A date of last year is recovered up to the leap day that the step back misses. -/
theorem seconds_last_year {now t : Int} (recent : now - 365 * 86400 < t) :
    let z := ZoneRule.constant off
    (localtime z t).tmYear + 1 = (localtime z now).tmYear →
      journalctlSeconds z now (written (localtime z t) Tm.zero) =
        if (localtime z t).tmMon = 1 ∧ (localtime z t).tmMday = 29 then t + 86400 else t := by
  intro z hyear
  let tm := (written (localtime z t) Tm.zero).inYear (localtime z t).tmYear
  have hvalid := localtime_valid z t
  have hmon : 0 ≤ tm.tmMon ∧ tm.tmMon ≤ 11 := ⟨hvalid.2.1, hvalid.2.2.1⟩
  have hlast : (localtime z now).tmYear - 1 = (localtime z t).tmYear := by omega
  have hwall : tm.wall = t + off := wall_localtime z t
  have hstd : z.std = off := rfl
  have hguess : firstGuess z now (written (localtime z t) Tm.zero) = yearOn z tm := by
    rw [firstGuess_eq rfl, hlast]
  -- The same date a year on lies in the future.
  have hfuture : yearOn z tm > now := by
    have hspan := span_bounds (1900 + tm.tmYear) tm.tmMon
    rw [yearOn, wall_next hmon.1 hmon.2, inYear_self, hwall, hstd]
    omega
  have hleap := leap_after_feb29 hvalid
  have hshown : (localtime z (yearOn z tm)).tmYear = tm.tmYear + 1 ∧
      (localtime z (yearOn z tm)).tmMon = if tm.tmMon = 1 ∧ tm.tmMday = 29 then 2 else tm.tmMon :=
    shown_inYear off hvalid (fun hfeb => (hleap hfeb).2)
  have hback := stepped_back hmon.1 hmon.2 hshown.1
  rw [hwall, hshown.2, hstd, Int.add_sub_cancel] at hback
  rw [journalctlSeconds_eq, hguess, if_pos hfuture, hlast]
  refine hback.trans ?_
  by_cases hfeb : (localtime z t).tmMon = 1 ∧ (localtime z t).tmMday = 29
  · have hfeb' : tm.tmMon = 1 ∧ tm.tmMday = 29 := hfeb
    have hspan : span (1900 + tm.tmYear) 1 = span (1900 + tm.tmYear) 2 + 1 := span_feb29 hvalid hfeb
    rw [if_pos hfeb, if_pos hfeb', hfeb'.1, hspan]
    ring
  · have hfeb' : ¬(tm.tmMon = 1 ∧ tm.tmMday = 29) := hfeb
    rw [if_neg hfeb, if_neg hfeb']
    ring

end Constant

/-- The instant printed is recovered exactly when it is not a 29 February that
the clock has left in an earlier year. -/
theorem timestamp_recovered_iff (off now t : Int) (m : List Byte) (entry : Entry)
    (recent : now - 365 * 86400 < t) (past : t ≤ now) :
    let z := ZoneRule.constant off
    (inputLogreadParseLine z now (strftime journalctlFormat (localtime z t) ++ 32 :: m)
        entry).timestamp = some { Timestamp.init with seconds := t } ↔
      ¬((localtime z t).tmMon = 1 ∧ (localtime z t).tmMday = 29 ∧
        (localtime z t).tmYear ≠ (localtime z now).tmYear) := by
  intro z
  have hyears : (localtime z t).tmYear = (localtime z now).tmYear ∨
      (localtime z t).tmYear + 1 = (localtime z now).tmYear := year_this_or_last off recent past
  rw [parse_journalctl z now (localtime_valid z t)]
  obtain hyear | hyear := hyears
  · rw [seconds_this_year off past hyear]
    simp [hyear]
  · have hne : (localtime z t).tmYear ≠ (localtime z now).tmYear := by omega
    rw [seconds_last_year off recent hyear]
    by_cases hfeb : (localtime z t).tmMon = 1 ∧ (localtime z t).tmMday = 29
    · rw [if_pos hfeb]
      simp [hfeb.1, hfeb.2, hne]
    · rw [if_neg hfeb]
      simp only [hne, ne_eq, not_false_eq_true, and_true, hfeb]

/-- 29 February 2020, read on 15 January 2021, becomes 1 March 2020. -/
theorem feb29_not_recovered :
    ¬ ∀ (off now t : Int) (m : List Byte) (entry : Entry), now - 365 * 86400 < t → t ≤ now →
      (inputLogreadParseLine (ZoneRule.constant off) now
        (strftime journalctlFormat (localtime (ZoneRule.constant off) t) ++ 32 :: m)
          entry).timestamp = some { Timestamp.init with seconds := t } := by
  intro h
  have hfeb := h 0 1610668800 1582977600 [] Entry.init (by decide) (by decide)
  revert hfeb
  decide

/-- 28 February 2020 is recovered on the same day. -/
theorem feb28_recovered :
    (inputLogreadParseLine (ZoneRule.constant 3600) 1610668800
        (strftime journalctlFormat (localtime (ZoneRule.constant 3600) 1582891200) ++ [32, 120])
          Entry.init).timestamp = some { Timestamp.init with seconds := 1582891200 } ↔
      ¬((localtime (ZoneRule.constant 3600) 1582891200).tmMon = 1 ∧
        (localtime (ZoneRule.constant 3600) 1582891200).tmMday = 29 ∧
        (localtime (ZoneRule.constant 3600) 1582891200).tmYear ≠
          (localtime (ZoneRule.constant 3600) 1610668800).tmYear) :=
  timestamp_recovered_iff 3600 1610668800 1582891200 [120] Entry.init (by decide) (by decide)

end Lokicat.YearInference

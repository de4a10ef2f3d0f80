import Lokicat.InputLogread
import Mathlib.Tactic.IntervalCases

/-!
# Printed dates

What `strftime` prints for a valid date, `strptime` reads back with the same
format. A date printed for journalctl is no OpenWrt date, since no month starts
like a weekday.
-/

namespace Lokicat.PrintedDates

open Calendar CString InputLogread LocalTime Strptime

/-- A month is read back from its abbreviation. -/
theorem scan_month {n : Int} (h₁ : 0 ≤ n) (h₂ : n ≤ 11) (s : List Byte) (tm : Tm) :
    Directive.month.scan (abbreviation months n ++ 32 :: s) tm =
      some (32 :: s, { tm with tmMon := n }) := by
  interval_cases n <;> rfl

theorem scan_weekday_month {n : Int} (h₁ : 0 ≤ n) (h₂ : n ≤ 11) (s : List Byte) (tm : Tm) :
    Directive.weekday.scan (abbreviation months n ++ s) tm = none := by
  interval_cases n <;> rfl

theorem dropWhile_digit {n : Nat} (h : n < 10) (s : List Byte) :
    (digit n :: s).dropWhile isspace = digit n :: s := by
  have hspace := digit_not_space ⟨n, h⟩
  simp only at hspace
  simp only [List.dropWhile_cons, hspace, Bool.false_eq_true, if_false]

/-- A blank before a padded number is skipped. -/
theorem scan_space_twoDigits {n : Int} (h : n < 100) (s : List Byte) (tm : Tm) :
    Directive.space.scan (32 :: (twoDigits 48 n ++ s)) tm = some (twoDigits 48 n ++ s, tm) := by
  have hspace : isspace 32 = true := by decide
  have hzero : (48 : Byte) = digit 0 := by decide
  simp only [Directive.scan, twoDigits, List.cons_append, List.nil_append,
    List.dropWhile_cons_of_pos hspace]
  split
  · rw [hzero, dropWhile_digit (by decide)]
  · rw [dropWhile_digit (by omega)]

/-- A day of the month is read back, padded with a blank or not. -/
theorem strptime_day {n : Int} (h₁ : 1 ≤ n) (h₂ : n ≤ 31) (s : List Byte) (ds : List Directive)
    (tm : Tm) :
    strptime (32 :: (twoDigits 32 n ++ 32 :: s)) (.space :: .day :: ds) tm =
      strptime (32 :: s) ds { tm with tmMday := n } := by
  have hn : ((n.toNat : Nat) : Int) = n := Int.toNat_of_nonneg (by omega)
  by_cases hpad : n.toNat < 10
  · have hspace : isspace 32 = true := by decide
    have hskip : Directive.space.scan (32 :: (twoDigits 32 n ++ 32 :: s)) tm =
        some (digit n.toNat :: 32 :: s, tm) := by
      simp only [Directive.scan, twoDigits, hpad, if_true, Nat.mod_eq_of_lt hpad, List.cons_append,
        List.nil_append, List.dropWhile_cons_of_pos hspace, dropWhile_digit hpad]
    have hnumber : getNumber 1 31 2 (digit n.toNat :: 32 :: s) = some (n.toNat, 32 :: s) :=
      getNumber_one hpad (by omega) (by omega) (by decide) s
    have hday : Directive.day.scan (digit n.toNat :: 32 :: s) tm =
        some (32 :: s, { tm with tmMday := n }) := by
      simp only [Directive.scan, hnumber, Option.map_some, hn]
    rw [strptime_some hskip, strptime_some hday]
  · have htwo : twoDigits 32 n = twoDigits 48 n := by simp only [twoDigits, hpad, if_false]
    have hday : Directive.day.scan (twoDigits 48 n ++ 32 :: s) tm =
        some (32 :: s, { tm with tmMday := n }) := by
      simp only [Directive.scan, getNumber_twoDigits h₁ h₂ (by decide), Option.map_some, hn]
    rw [htwo, strptime_some (scan_space_twoDigits (by omega) _ _), strptime_some hday]

/-- A time of day is read back. -/
theorem strptime_time {h m s : Int} (hh : 0 ≤ h ∧ h ≤ 23) (hm : 0 ≤ m ∧ m ≤ 59)
    (hs : 0 ≤ s ∧ s ≤ 59) (r : List Byte) (ds : List Directive) (tm : Tm) :
    strptime (32 :: (twoDigits 48 h ++ 58 :: (twoDigits 48 m ++ 58 :: (twoDigits 48 s ++ r))))
        (.space :: .hour :: .char 58 :: .minute :: .char 58 :: .second :: ds) tm =
      strptime r ds { tm with tmHour := h, tmMin := m, tmSec := s } := by
  have hcolon : ∀ (r : List Byte) (tm : Tm), (Directive.char 58).scan (58 :: r) tm = some (r, tm) :=
    fun _ _ => by simp only [Directive.scan, if_true]
  have hhour : ∀ (r : List Byte) (tm : Tm), Directive.hour.scan (twoDigits 48 h ++ r) tm =
      some (r, { tm with tmHour := h }) := fun r tm => by
    simp only [Directive.scan, getNumber_twoDigits hh.1 hh.2 (by decide), Option.map_some,
      Int.toNat_of_nonneg hh.1]
  have hmin : ∀ (r : List Byte) (tm : Tm), Directive.minute.scan (twoDigits 48 m ++ r) tm =
      some (r, { tm with tmMin := m }) := fun r tm => by
    simp only [Directive.scan, getNumber_twoDigits hm.1 hm.2 (by decide), Option.map_some,
      Int.toNat_of_nonneg hm.1]
  have hsec : ∀ (r : List Byte) (tm : Tm), Directive.second.scan (twoDigits 48 s ++ r) tm =
      some (r, { tm with tmSec := s }) := fun r tm => by
    have hs₂ : s ≤ (61 : Nat) := by omega
    simp only [Directive.scan, getNumber_twoDigits hs.1 hs₂ (by decide), Option.map_some,
      Int.toNat_of_nonneg hs.1]
  rw [strptime_some (scan_space_twoDigits (by omega) _ _), strptime_some (hhour _ _),
    strptime_some (hcolon _ _), strptime_some (hmin _ _), strptime_some (hcolon _ _),
    strptime_some (hsec _ _)]

/-- The text of a journalctl date. -/
theorem strftime_journalctl (tm : Tm) (s : List Byte) :
    strftime journalctlFormat tm ++ s =
      abbreviation months tm.tmMon ++ 32 :: (twoDigits 32 tm.tmMday ++ 32 ::
        (twoDigits 48 tm.tmHour ++ 58 :: (twoDigits 48 tm.tmMin ++ 58 ::
          (twoDigits 48 tm.tmSec ++ s)))) := by
  simp [strftime, journalctlFormat, Directive.print]

/-- The fields a date for journalctl writes. -/
def written (tm tm₀ : Tm) : Tm :=
  { tm₀ with
    tmMon := tm.tmMon, tmMday := tm.tmMday
    tmHour := tm.tmHour, tmMin := tm.tmMin, tmSec := tm.tmSec }

/-- A valid date printed for journalctl is read back. -/
theorem strptime_journalctl {tm : Tm} (h : tm.Valid) (s : List Byte) (tm₀ : Tm) :
    strptime (strftime journalctlFormat tm ++ s) journalctlFormat tm₀ =
      (some s, written tm tm₀) := by
  obtain ⟨hdate, hmon₁, hmon₂, hh₁, hh₂, hm₁, hm₂, hs₁, hs₂⟩ := h
  have hday₁ := hdate.2.2.1
  have hday₂ := day_le hdate
  rw [date_of_month hmon₁ hmon₂] at hday₁ hday₂
  rw [strftime_journalctl, journalctlFormat, strptime_some (scan_month hmon₁ hmon₂ _ _),
    strptime_day hday₁ hday₂, strptime_time ⟨hh₁, hh₂⟩ ⟨hm₁, hm₂⟩ ⟨hs₁, hs₂⟩]
  rfl

/-- The OpenWrt format refuses it at once and writes nothing. -/
theorem strptime_openwrt {tm : Tm} (h : tm.Valid) (s : List Byte) (tm₀ : Tm) :
    strptime (strftime journalctlFormat tm ++ s) openwrtFormat tm₀ = (none, tm₀) := by
  rw [strftime_journalctl, openwrtFormat,
    strptime_none (scan_weekday_month h.2.1 h.2.2.1 _ _)]

/-- Such a line is stamped with the seconds of its date. -/
theorem parse_journalctl (z : ZoneRule) (now : Int) {tm : Tm} (h : tm.Valid) (s : List Byte)
    (entry : Logproto.Entry) :
    (inputLogreadParseLine z now (strftime journalctlFormat tm ++ s) entry).timestamp =
      some { Logproto.Timestamp.init with
        seconds := journalctlSeconds z now (written tm Tm.zero) } := by
  simp only [inputLogreadParseLine, strptime_openwrt h, strptime_journalctl h, storeLine]

end Lokicat.PrintedDates

import Lokicat.Message
import Lokicat.PrintedDates

/-!
# OpenWrt lines

What `strftime` prints in the OpenWrt format for a year of four digits is read
back to the same instant in a zone of constant offset, and what follows it is
the message, whatever it starts with: the year takes four digits and no more.
-/

namespace Lokicat.OpenwrtDates

open CString InputLogread LocalTime Logproto Message PrintedDates Strptime Util

/-- A weekday is read back from its abbreviation. -/
theorem scan_weekday {n : Int} (h₁ : 0 ≤ n) (h₂ : n ≤ 6) (s : List Byte) (tm : Tm) :
    Directive.weekday.scan (abbreviation weekdays n ++ 32 :: s) tm =
      some (32 :: s, { tm with tmWday := n }) := by
  interval_cases n <;> rfl

theorem scan_space_month {n : Int} (h₁ : 0 ≤ n) (h₂ : n ≤ 11) (s : List Byte) (tm : Tm) :
    Directive.space.scan (32 :: (abbreviation months n ++ s)) tm =
      some (abbreviation months n ++ s, tm) := by
  interval_cases n <;> rfl

theorem digitChar_digit : ∀ n : Fin 10, UInt8.ofNat (Nat.digitChar n).toNat = digit n := by decide

/-- A year of four digits is printed as these. -/
theorem decimal_year {y : Int} (h₁ : 1000 ≤ y) (h₂ : y ≤ 9999) :
    decimal y = [digit (y.toNat / 1000), digit (y.toNat / 100 % 10), digit (y.toNat / 10 % 10),
      digit (y.toNat % 10)] := by
  have habs : y.natAbs = y.toNat := by omega
  have hdigits : Nat.toDigits 10 y.toNat =
      [Nat.digitChar (y.toNat / 1000), Nat.digitChar (y.toNat / 100 % 10),
        Nat.digitChar (y.toNat / 10 % 10), Nat.digitChar (y.toNat % 10)] := by
    rw [Nat.toDigits_of_base_le (by decide) (by omega),
      Nat.toDigits_of_base_le (by decide) (by omega),
      Nat.toDigits_of_base_le (by decide) (by omega), Nat.toDigits_of_lt_base (by omega)]
    simp [Nat.div_div_eq_div_mul]
  have hd : ∀ n, n < 10 → UInt8.ofNat (Nat.digitChar n).toNat = digit n :=
    fun n hn => digitChar_digit ⟨n, hn⟩
  have hpos : ¬y < 0 := by omega
  simp only [decimal, if_neg hpos, List.nil_append, habs, hdigits, List.map_cons, List.map_nil]
  rw [hd _ (by omega), hd _ (by omega), hd _ (by omega), hd _ (by omega)]

/-- Four digits are read back whatever follows. -/
theorem getNumber_year {a b c d : Nat} (ha : a < 10) (hb : b < 10) (hc : c < 10) (hd : d < 10)
    (s : List Byte) :
    getNumber 0 9999 4 (digit a :: digit b :: digit c :: digit d :: s) =
      some (((a * 10 + b) * 10 + c) * 10 + d, s) := by
  have hdigit : ∀ n, n < 10 → isdigit (digit n) = true ∧ (digit n).toNat - 48 = n :=
    fun n hn => ⟨digit_isdigit ⟨n, hn⟩, digit_value ⟨n, hn⟩⟩
  have hskip : isspace (digit a) = false := digit_not_space ⟨a, ha⟩
  have h₁ : a * 10 ≤ 9999 := by omega
  have h₂ : (a * 10 + b) * 10 ≤ 9999 := by omega
  have h₃ : ((a * 10 + b) * 10 + c) * 10 ≤ 9999 := by omega
  simp only [getNumber, List.dropWhile_cons, hskip, Bool.false_eq_true, if_false, hdigit a ha,
    hdigit b hb, hdigit c hc, hdigit d hd, if_true, getDigits, h₁, h₂, h₃, and_self]
  rw [if_neg (by omega)]

/-- A year of four digits is read back. -/
theorem strptime_year {y : Int} (h₁ : 1000 ≤ y) (h₂ : y ≤ 9999) (s : List Byte) (tm : Tm) :
    strptime (32 :: (decimal y ++ s)) [.space, .year] tm =
      (some s, { tm with tmYear := y - 1900 }) := by
  have hspace : isspace 32 = true := by decide
  have hskip : Directive.space.scan (32 :: (decimal y ++ s)) tm = some (decimal y ++ s, tm) := by
    simp only [Directive.scan, decimal_year h₁ h₂, List.cons_append, List.nil_append,
      List.dropWhile_cons_of_pos hspace]
    rw [dropWhile_digit (by omega)]
  have hnumber : getNumber 0 9999 4 (decimal y ++ s) = some (y.toNat, s) := by
    simp only [decimal_year h₁ h₂, List.cons_append, List.nil_append]
    rw [getNumber_year (by omega) (by omega) (by omega) (by omega)]
    congr 2
    omega
  have hyear : Directive.year.scan (decimal y ++ s) tm =
      some (s, { tm with tmYear := y - 1900 }) := by
    simp only [Directive.scan, hnumber, Option.map_some, Int.toNat_of_nonneg (a := y) (by omega)]
  rw [strptime_some hskip, strptime_some hyear]
  rfl

/-- The text of an OpenWrt date. -/
theorem strftime_openwrt (tm : Tm) (s : List Byte) :
    strftime openwrtFormat tm ++ s =
      abbreviation weekdays tm.tmWday ++ 32 ::
        (strftime journalctlFormat tm ++ 32 :: (decimal (1900 + tm.tmYear) ++ s)) := by
  simp [strftime, openwrtFormat, journalctlFormat, Directive.print]

/-- A valid date printed in the OpenWrt format is read back. -/
theorem strptime_openwrt_date {tm : Tm} (h : tm.Valid) (hwday : 0 ≤ tm.tmWday ∧ tm.tmWday ≤ 6)
    (hyear : 1000 ≤ 1900 + tm.tmYear ∧ 1900 + tm.tmYear ≤ 9999) (s : List Byte) :
    strptime (strftime openwrtFormat tm ++ s) openwrtFormat Tm.zero =
      (some s, { tm with tmIsdst := 0 }) := by
  have hformat : openwrtFormat = .weekday :: .space :: (journalctlFormat ++ [.space, .year]) := rfl
  have hspace : ∀ tm₀ : Tm, ∀ r : List Byte,
      Directive.space.scan (32 :: (strftime journalctlFormat tm ++ r)) tm₀ =
        some (strftime journalctlFormat tm ++ r, tm₀) := by
    intro tm₀ r
    rw [strftime_journalctl]
    exact scan_space_month h.2.1 h.2.2.1 _ tm₀
  rw [strftime_openwrt, hformat, strptime_some (scan_weekday hwday.1 hwday.2 _ _),
    strptime_some (hspace _ _), strptime_append (strptime_journalctl h _ _),
    strptime_year hyear.1 hyear.2]
  simp only [written, Tm.zero]
  congr 2
  omega

/-- An OpenWrt line gives back the instant it was printed for and its message, without
the white space at either end. -/
theorem openwrt_round_trip (off now t : Int) (m ws : List Byte) (entry : Entry)
    (year : 1000 ≤ 1900 + (localtime (ZoneRule.constant off) t).tmYear ∧
      1900 + (localtime (ZoneRule.constant off) t).tmYear ≤ 9999)
    (blank : ∀ b ∈ ws, isspace b = true) :
    let z := ZoneRule.constant off
    inputLogreadParseLine z now (strftime openwrtFormat (localtime z t) ++ 32 :: (m ++ ws)) entry =
      ⟨some ⟨t, 0⟩, (m.dropWhile isspace).rdropWhile isspace⟩ := by
  intro z
  have hvalid : (localtime z t).Valid := localtime_valid z t
  have hwday : 0 ≤ (localtime z t).tmWday ∧ (localtime z t).tmWday ≤ 6 := by
    simp only [localtime, breakDown]
    omega
  have hdate := strptime_openwrt_date hvalid hwday year (32 :: (m ++ ws))
  have hseconds : (mktime z { localtime z t with tmIsdst := 0 }).1 = t := by
    have hwall : (Tm.wall { localtime z t with tmIsdst := 0 }) = t + off := wall_localtime z t
    rw [mktime_constant, hwall, Int.add_sub_cancel]
  have hspace : ∀ b ∈ [(32 : Byte)], isspace b = true := List.forall_mem_singleton.mpr (by decide)
  have hline : trim (32 :: (m ++ ws)) = trim m := trim_padded hspace blank m
  rw [← trim, ← hline]
  simp only [inputLogreadParseLine, hdate, hseconds]
  rw [← storeLine_line _ entry]
  rfl

/-- A message that starts with digits, a colon and another date. -/
theorem openwrt_round_trip_2019 :
    let z := ZoneRule.constant 3600
    let m := ascii ['2', '0', ':', ' ', 'F', 'e', 'b', ' ', '1', '0']
    inputLogreadParseLine z 0 (strftime openwrtFormat (localtime z 1549825659) ++ 32 :: (m ++ [10]))
        Entry.init =
      ⟨some ⟨1549825659, 0⟩, (m.dropWhile isspace).rdropWhile isspace⟩ :=
  openwrt_round_trip 3600 0 1549825659 (ascii ['2', '0', ':', ' ', 'F', 'e', 'b', ' ', '1', '0'])
    [10] Entry.init (by decide) (List.forall_mem_singleton.mpr (by decide))

end Lokicat.OpenwrtDates

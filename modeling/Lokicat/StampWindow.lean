import Lokicat.WallClock

/-!
# How far a stamp can be from the clock

Whatever a journalctl line says, in a zone of constant offset it is stamped with an
instant of the clock's year or of the year before, and never with one in the future.
The date can be impossible, such as 31 February, and the time can be a leap second.
In no zone does a stamp need more than 64 bits.
-/

namespace Lokicat.StampWindow

open Calendar CString InputLogread LocalTime Logproto PrintedDates Strptime WallClock YearInference

/-! ## What a directive accepts -/

theorem getNumber_range {lo hi n v : Nat} {s r : List Byte}
    (h : getNumber lo hi n s = some (v, r)) : lo ≤ v ∧ v ≤ hi := by
  simp only [getNumber] at h
  split at h
  · cases h
  · split at h
    · split at h
      · cases h
      · rename_i hrange
        rw [Option.some.injEq] at h
        have hv : v = (getDigits hi (n - 1) (_ - 48) _).1 := congrArg Prod.fst h.symm
        omega
    · cases h

theorem getName_range {i k : Nat} {names : List (List Byte × List Byte)} {s r : List Byte}
    (h : getName i names s = some (k, r)) : i ≤ k ∧ k < i + names.length := by
  induction names generalizing i with
  | nil => cases h
  | cons p names ih =>
    simp only [getName] at h
    split at h
    · cases h
      simp
    · split at h
      · cases h
        simp
      · have hnames := ih h
        simp only [List.length_cons]
        omega

/-- The field of the directive has a value that it accepts. -/
def Directive.InRange (tm : Tm) : Directive → Prop
  | .weekday => 0 ≤ tm.tmWday ∧ tm.tmWday ≤ 6
  | .month => 0 ≤ tm.tmMon ∧ tm.tmMon ≤ 11
  | .day => 1 ≤ tm.tmMday ∧ tm.tmMday ≤ 31
  | .hour => 0 ≤ tm.tmHour ∧ tm.tmHour ≤ 23
  | .minute => 0 ≤ tm.tmMin ∧ tm.tmMin ≤ 59
  | .second => 0 ≤ tm.tmSec ∧ tm.tmSec ≤ 61
  | .year => -1900 ≤ tm.tmYear ∧ tm.tmYear ≤ 8099
  | .space => True
  | .char _ => True

/-- A directive that writes what it has read into its own field leaves the others alone. -/
theorem field_inRange {d : Directive} {tm tm' : Tm} {o : Option (Nat × List Byte)}
    {f : Nat × List Byte → Tm} {s' : List Byte} (own : ∀ r, o = some r → Directive.InRange (f r) d)
    (others : ∀ r e, e ≠ d → Directive.InRange tm e → Directive.InRange (f r) e)
    (h : o.map (fun r => (r.2, f r)) = some (s', tm')) :
    Directive.InRange tm' d ∧ ∀ e, Directive.InRange tm e → Directive.InRange tm' e := by
  obtain ⟨r, hr, hwritten⟩ := Option.map_eq_some_iff.mp h
  cases hwritten
  refine ⟨own r hr, fun e he => ?_⟩
  by_cases hd : e = d
  · rw [hd]
    exact own r hr
  · exact others r e hd he

/-- A directive writes its own field in range and leaves the others alone. -/
theorem scan_inRange {d : Directive} {s s' : List Byte} {tm tm' : Tm}
    (h : d.scan s tm = some (s', tm')) :
    Directive.InRange tm' d ∧ ∀ e, Directive.InRange tm e → Directive.InRange tm' e := by
  cases d with
  | space =>
    cases h
    exact ⟨trivial, fun _ he => he⟩
  | char c =>
    simp only [Directive.scan] at h
    split at h
    · cases h
    · split at h
      · cases h
        exact ⟨trivial, fun _ he => he⟩
      · cases h
  | weekday | month =>
    refine field_inRange (fun r hr => ?_) (fun r e hne he => ?_) h
    · have hrange := getName_range hr
      have hlengths : weekdays.length = 7 ∧ months.length = 12 := ⟨rfl, rfl⟩
      simp only [Directive.InRange]
      omega
    · cases e <;> first | exact he | exact absurd rfl hne
  | day | hour | minute | second | year =>
    refine field_inRange (fun r hr => ?_) (fun r e hne he => ?_) h
    · have hrange := getNumber_range hr
      simp only [Directive.InRange]
      omega
    · cases e <;> first | exact he | exact absurd rfl hne

/-- After a match every field of the format is in range. -/
theorem strptime_inRange {s r : List Byte} {format : List Directive} {tm tm' : Tm}
    (h : strptime s format tm = (some r, tm')) :
    (∀ d ∈ format, Directive.InRange tm' d) ∧
      ∀ e, Directive.InRange tm e → Directive.InRange tm' e := by
  induction format generalizing s tm with
  | nil =>
    cases h
    exact ⟨by simp, fun _ he => he⟩
  | cons d ds ih =>
    cases hscan : d.scan s tm with
    | none =>
      rw [strptime_none hscan] at h
      cases h
    | some q =>
      rw [strptime_some hscan] at h
      obtain ⟨hd, hkeep⟩ := scan_inRange hscan
      obtain ⟨hds, hrest⟩ := ih h
      exact ⟨List.forall_mem_cons.mpr ⟨hrest d hd, hds⟩, fun e he => hrest e (hkeep e he)⟩

/-! ## Years on the clock -/

/-- Seconds on the wall clock before 1 January of a year counted from 1900. -/
def newYear (y : Int) : Int := (yearStart (1900 + y) - epochDay) * 86400

theorem newYear_succ (y : Int) :
    newYear y + 365 * 86400 ≤ newYear (y + 1) ∧ newYear (y + 1) ≤ newYear y + 366 * 86400 := by
  have hsucc := yearStart_succ (1900 + y)
  have hleap := leap_zero_or_one (1900 + y)
  simp only [newYear, ← Int.add_assoc]
  omega

/-- A clock shows a year from its first second to the next year's. -/
theorem year_shown_iff (z : ZoneRule) (t y : Int) :
    (localtime z t).tmYear = y ↔
      newYear y ≤ t + z.offset t ∧ t + z.offset t < newYear (y + 1) := by
  have hyear : (localtime z t).tmYear =
      yearOf ((t + z.offset t) / 86400 + epochDay) - 1900 := rfl
  have hbounds := yearOf_bounds ((t + z.offset t) / 86400 + epochDay)
  rw [hyear]
  simp only [newYear, ← Int.add_assoc]
  constructor
  · rintro rfl
    have hy : 1900 + (yearOf ((t + z.offset t) / 86400 + epochDay) - 1900) =
        yearOf ((t + z.offset t) / 86400 + epochDay) := by ring
    rw [hy]
    omega
  · rintro ⟨hlow, hhigh⟩
    have hy : yearOf ((t + z.offset t) / 86400 + epochDay) = 1900 + y :=
      yearOf_eq (by omega) (by omega)
    omega

theorem year_iff (off t y : Int) :
    (localtime (ZoneRule.constant off) t).tmYear = y ↔
      newYear y ≤ t + off ∧ t + off < newYear (y + 1) :=
  year_shown_iff (ZoneRule.constant off) t y

/-- What `%b %e %H:%M:%S` leaves in the struct: perhaps a day that its month does not
have, perhaps a leap second. -/
def Scanned (tm : Tm) : Prop := ∀ d ∈ journalctlFormat, Directive.InRange tm d

/-- The reading of such fields is in their year, or in the first two seconds of the next. -/
theorem wall_bounds {tm : Tm} (h : Scanned tm) (y : Int) :
    newYear y ≤ (tm.inYear y).wall ∧ (tm.inYear y).wall < newYear (y + 1) + 2 ∧
      (tm.tmSec ≤ 59 → (tm.inYear y).wall < newYear (y + 1)) := by
  have hmon : 0 ≤ tm.tmMon ∧ tm.tmMon ≤ 11 := h .month (by decide)
  have hday : 1 ≤ tm.tmMday ∧ tm.tmMday ≤ 31 := h .day (by decide)
  have hhour : 0 ≤ tm.tmHour ∧ tm.tmHour ≤ 23 := h .hour (by decide)
  have hmin : 0 ≤ tm.tmMin ∧ tm.tmMin ≤ 59 := h .minute (by decide)
  have hsec : 0 ≤ tm.tmSec ∧ tm.tmSec ≤ 61 := h .second (by decide)
  have hleap := leap_zero_or_one (1900 + y)
  have hsucc := yearStart_succ (1900 + y)
  have hdate : (tm.inYear y).date = ⟨1900 + y, tm.tmMon, tm.tmMday⟩ :=
    @date_of_month (tm.inYear y) hmon.1 hmon.2
  have hmonth : 0 ≤ monthStart (leap (1900 + y)) tm.tmMon ∧
      monthStart (leap (1900 + y)) tm.tmMon + 31 ≤ 365 + leap (1900 + y) := by
    simp only [monthStart]
    split <;> omega
  simp only [Tm.wall, hdate, Date.number, newYear, ← Int.add_assoc]
  simp only [Tm.inYear]
  omega

/-! ## Any zone -/

theorem scanned_of_valid {tm : Tm} (h : tm.Valid) : Scanned tm := by
  have hday := day_le h.1
  obtain ⟨hdate, hmon₁, hmon₂, hh₁, hh₂, hm₁, hm₂, hs₁, hs₂⟩ := h
  have hfirst := hdate.2.2.1
  rw [date_of_month hmon₁ hmon₂] at hday hfirst
  simp only at hday hfirst
  intro d hd
  simp only [journalctlFormat, List.mem_cons, List.not_mem_nil, or_false] at hd
  rcases hd with rfl | rfl | rfl | rfl | rfl | rfl | rfl | rfl | rfl <;>
    simp only [Directive.InRange] <;> omega

theorem scanned_inYear {tm : Tm} (h : Scanned tm) (y : Int) : Scanned (tm.inYear y) := by
  intro d hd
  cases d with
  | year => exact absurd hd (by decide)
  | _ => exact h _ hd

/-- Fields in a year that fits in an `int` are much less than 64 bits of seconds away. -/
theorem wall_fits {tm : Tm} (h : Scanned tm) {y : Int} (hy : -2 ^ 31 ≤ y ∧ y < 2 ^ 31) :
    -2 ^ 58 ≤ (tm.inYear y).wall ∧ (tm.inYear y).wall ≤ 2 ^ 58 := by
  have hbounds := wall_bounds h y
  simp only [newYear, yearStart, epochDay] at hbounds
  omega

/-- Clocks are set less than a day off Greenwich. -/
structure WithinDay (z : ZoneRule) : Prop where
  std : -86400 ≤ z.std ∧ z.std ≤ 86400
  dst : -86400 ≤ z.dst ∧ z.dst ≤ 86400

section WithinDay

variable {z : ZoneRule} (within : WithinDay z) {now : Int} (clock : -2 ^ 55 ≤ now ∧ now ≤ 2 ^ 55)

include within in
theorem offset_within (t : Int) : -86400 ≤ z.offset t ∧ z.offset t ≤ 86400 := by
  rw [ZoneRule.offset]
  split
  · exact within.dst
  · exact within.std

include within clock in
/-- The year of a clock reading fits in an `int`. -/
theorem year_bounds : -2 ^ 31 < (localtime z now).tmYear ∧ (localtime z now).tmYear < 2 ^ 31 := by
  have hshown := (year_shown_iff z now _).mp rfl
  have hoff := offset_within within now
  simp only [newYear, yearStart, epochDay] at hshown
  omega

include within clock in
/-- What a line names is in range, in a year of its own or next to the clock's. -/
theorem reading_scanned {line : List Byte} {r : Reading} (h : reading z now line = some r) :
    Scanned r.fields ∧ -2 ^ 31 ≤ r.fields.tmYear ∧ r.fields.tmYear < 2 ^ 31 := by
  have hyear := year_bounds within clock
  simp only [reading] at h
  split at h
  · rename_i res hopenwrt
    cases h
    have hscanned := (strptime_inRange (r := res) (Prod.ext hopenwrt rfl)).1
    have hy : -1900 ≤ (strptime line openwrtFormat Tm.zero).2.tmYear ∧
        (strptime line openwrtFormat Tm.zero).2.tmYear ≤ 8099 := hscanned .year (by decide)
    simp only
    exact ⟨fun d hd => hscanned d (by revert d; decide), by omega, by omega⟩
  · split at h
    · rename_i res hjournalctl
      have hscanned := (strptime_inRange (r := res) (Prod.ext hjournalctl rfl)).1
      split at h
      · cases h
        exact ⟨scanned_inYear hscanned _, by simp only [Tm.inYear]; omega⟩
      · cases h
        exact ⟨scanned_inYear hscanned _, by simp only [Tm.inYear]; omega⟩
    · cases h

theorem reading_none {line : List Byte} (h : reading z now line = none) (entry : Entry) :
    (inputLogreadParseLine z now line entry).timestamp = entry.timestamp := by
  simp only [reading] at h
  simp only [inputLogreadParseLine]
  generalize strptime line openwrtFormat Tm.zero = openwrt at *
  generalize strptime line journalctlFormat openwrt.2 = journalctl at *
  cases hopenwrt : openwrt.1 with
  | some res => simp [hopenwrt] at h
  | none =>
    cases hjournalctl : journalctl.1 with
    | some res =>
      simp only [hopenwrt, hjournalctl] at h
      split at h <;> cases h
    | none => rfl

include within clock in
/-- A stamp fits in 64 bits, whatever the line says. -/
theorem stamp_fits (line : List Byte) {entry : Entry} (fresh : entry.timestamp = none) :
    ∀ t ∈ (inputLogreadParseLine z now line entry).timestamp,
      -2 ^ 63 ≤ t.seconds ∧ t.seconds < 2 ^ 63 ∧ t.nanos = 0 := by
  intro t ht
  cases hreading : reading z now line with
  | none =>
    rw [reading_none hreading, fresh] at ht
    cases ht
  | some r =>
    rw [parse_seconds hreading entry] at ht
    cases ht
    obtain ⟨hscanned, hyear⟩ := reading_scanned within clock hreading
    have hstd := within.std
    have hseconds : -2 ^ 63 ≤ seconds z r ∧ seconds z r < 2 ^ 63 := by
      rw [seconds]
      split
      · have hshown := scanned_of_valid (localtime_valid z (yearOn z r.fields))
        have hwall := wall_fits hshown hyear
        have hoff := offset_within within (yearOn z r.fields)
        omega
      · have hwall := wall_fits hscanned hyear
        rw [inYear_self] at hwall
        omega
    exact ⟨hseconds.1, hseconds.2, rfl⟩

end WithinDay

/-! ## Zones of constant offset -/

/-- A date that the calendar has stays in a year in which it is taken. -/
theorem year_inYear {tm : Tm} (h : tm.Valid) (off y : Int) :
    (localtime (ZoneRule.constant off) ((tm.inYear y).wall - off)).tmYear = y := by
  have hday := number_wall h y
  have hbounds := number_inYear_bounds h.1 (1900 + y)
  rw [year_iff]
  simp only [newYear, ← Int.add_assoc]
  omega

section Window

variable {off now y : Int} {tm : Tm}

theorem firstGuess_wall (hyear : (localtime (ZoneRule.constant off) now).tmYear = y) :
    firstGuess (ZoneRule.constant off) now tm = (tm.inYear y).wall - off := by
  rw [firstGuess, mktime_constant, hyear]

/-- The date in the clock's year, when that is not in the future. -/
theorem window_this_year (hyear : (localtime (ZoneRule.constant off) now).tmYear = y)
    (h : Scanned tm) (hpast : firstGuess (ZoneRule.constant off) now tm ≤ now) :
    (localtime (ZoneRule.constant off) (firstGuess (ZoneRule.constant off) now tm)).tmYear = y ∧
      now - 366 * 86400 < firstGuess (ZoneRule.constant off) now tm := by
  have hguess := @firstGuess_wall off now y tm hyear
  have hnow := (year_iff off now y).mp hyear
  have hwall := wall_bounds h y
  have hlength := newYear_succ y
  constructor
  · exact (year_iff off _ _).mpr (by omega)
  · omega

/-- Otherwise the date that the first `mktime` has made of it, in the year before. -/
theorem window_last_year {g t : Int} (hyear : (localtime (ZoneRule.constant off) now).tmYear = y)
    (h : Scanned tm) (hg : firstGuess (ZoneRule.constant off) now tm = g)
    (hfuture : now < g)
    (ht : ((localtime (ZoneRule.constant off) g).inYear (y - 1)).wall - off = t) :
    t < now ∧ (localtime (ZoneRule.constant off) t).tmYear = y - 1 ∧
      (tm.tmSec ≤ 59 → now - 366 * 86400 < t) := by
  have hguess := @firstGuess_wall off now y tm hyear
  have hnow := (year_iff off now y).mp hyear
  have hvalid := localtime_valid (ZoneRule.constant off) g
  have hlast : (localtime (ZoneRule.constant off) t).tmYear = y - 1 := by
    rw [← ht]
    exact year_inYear hvalid off (y - 1)
  have hbefore := (year_iff off t (y - 1)).mp hlast
  rw [Int.sub_add_cancel] at hbefore
  refine ⟨by omega, hlast, fun hsec => ?_⟩
  -- Without a leap second the normalised fields are still in the clock's year.
  have hwall := wall_bounds h y
  have hsame : (localtime (ZoneRule.constant off) g).tmYear = y :=
    (year_iff off g y).mpr (by omega)
  have hnext := wall_next hvalid.2.1 hvalid.2.2.1 (y - 1)
  have hspan := span_bounds (1900 + (y - 1)) (localtime (ZoneRule.constant off) g).tmMon
  have hreading := wall_localtime (ZoneRule.constant off) g
  rw [constant_offset] at hreading
  rw [Int.sub_add_cancel, ← hsame, inYear_self, hreading, hsame] at hnext
  omega

end Window

/-- A line in the form of journalctl, whatever date it names, is stamped with a whole
second of the clock's year or the year before, not in the future and, unless it names a
leap second, less than 366 days ago. -/
theorem stamped_in_window (off now : Int) (line : List Byte) (entry : Entry) {res : List Byte}
    (hopenwrt : (strptime line openwrtFormat Tm.zero).1 = none)
    (hjournalctl : (strptime line journalctlFormat (strptime line openwrtFormat Tm.zero).2).1 =
      some res) :
    let z := ZoneRule.constant off
    let written := (strptime line journalctlFormat (strptime line openwrtFormat Tm.zero).2).2
    ∃ t, (inputLogreadParseLine z now line entry).timestamp =
        some { Timestamp.init with seconds := t } ∧
      t ≤ now ∧
      ((localtime z t).tmYear = (localtime z now).tmYear ∨
        (localtime z t).tmYear + 1 = (localtime z now).tmYear) ∧
      (written.tmSec ≤ 59 → now - 366 * 86400 < t) := by
  intro z written
  have hscanned : Scanned written :=
    (strptime_inRange (r := res) (Prod.ext hjournalctl rfl)).1
  refine ⟨journalctlSeconds z now written, ?_, ?_⟩
  · simp only [inputLogreadParseLine, hopenwrt, hjournalctl]
    rfl
  · rw [journalctlSeconds_eq]
    split
    · rename_i hfuture
      obtain ⟨hlt, hyear, hrecent⟩ := window_last_year rfl hscanned rfl hfuture rfl
      exact ⟨Int.le_of_lt hlt, .inr (eq_sub_iff_add_eq.mp hyear), hrecent⟩
    · rename_i hpast
      obtain ⟨hyear, hrecent⟩ := window_this_year rfl hscanned (Int.not_lt.mp hpast)
      exact ⟨Int.not_lt.mp hpast, .inl hyear, fun _ => hrecent⟩

/-- `"Feb 31 23:59:60"`, read on 15 January 2021 two hours east of Greenwich. -/
theorem feb31_in_window :
    let z := ZoneRule.constant 7200
    let line := ascii ['F', 'e', 'b', ' ', '3', '1', ' ', '2', '3', ':', '5', '9', ':', '6', '0']
    ∃ t, (inputLogreadParseLine z 1610668800 line Entry.init).timestamp =
        some { Timestamp.init with seconds := t } ∧
      t ≤ 1610668800 ∧
      ((localtime z t).tmYear = (localtime z 1610668800).tmYear ∨
        (localtime z t).tmYear + 1 = (localtime z 1610668800).tmYear) ∧
      ((strptime line journalctlFormat (strptime line openwrtFormat Tm.zero).2).2.tmSec ≤ 59 →
        1610668800 - 366 * 86400 < t) :=
  @stamped_in_window 7200 1610668800
    (ascii ['F', 'e', 'b', ' ', '3', '1', ' ', '2', '3', ':', '5', '9', ':', '6', '0']) Entry.init
    [] (by decide) (by decide)

end Lokicat.StampWindow

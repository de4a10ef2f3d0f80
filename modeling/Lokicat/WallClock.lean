import Lokicat.YearInference

/-!
# The wall-clock time of a line

A line's date is taken as standard time, and a date of last year is stepped
back with the flag of the struct shown a year on. The time stored is the time
written when standard time is in force then, and on no other day.
-/

namespace Lokicat.WallClock

open Calendar CString InputLogread LocalTime Logproto Strptime YearInference

/-- The fields written in a line, in the year they are taken in, and whether
that is last year since the date lies ahead of the clock in this year. -/
structure Reading where
  fields : Tm
  redated : Bool

def reading (z : ZoneRule) (now : Int) (line : List Byte) : Option Reading :=
  let openwrt := strptime line openwrtFormat Tm.zero
  match openwrt.1 with
  | some _ => some ⟨openwrt.2, false⟩
  | none =>
    let journalctl := strptime line journalctlFormat openwrt.2
    match journalctl.1 with
    | some _ =>
      let year := (localtime z now).tmYear
      if firstGuess z now journalctl.2 > now then some ⟨journalctl.2.inYear (year - 1), true⟩
      else some ⟨journalctl.2.inYear year, false⟩
    | none => none

theorem scan_isdst {d : Directive} {s s' : List Byte} {tm tm' : Tm}
    (h : d.scan s tm = some (s', tm')) : tm'.tmIsdst = tm.tmIsdst := by
  cases d with
  | space =>
    simp only [Directive.scan, Option.some.injEq, Prod.mk.injEq] at h
    rw [← h.2]
  | char c =>
    cases s with
    | nil => cases h
    | cons b bs =>
      simp only [Directive.scan] at h
      split at h
      · simp only [Option.some.injEq, Prod.mk.injEq] at h
        rw [← h.2]
      · cases h
  | _ =>
    simp only [Directive.scan, Option.map_eq_some_iff, Prod.mk.injEq] at h
    obtain ⟨-, -, -, rfl⟩ := h
    rfl

/-- `strptime` does not set the flag. -/
theorem strptime_isdst (s : List Byte) (ds : List Directive) (tm : Tm) :
    (strptime s ds tm).2.tmIsdst = tm.tmIsdst := by
  induction ds generalizing s tm with
  | nil => rfl
  | cons d ds ih =>
    cases h : d.scan s tm with
    | none => rw [strptime_none h]
    | some r => rw [strptime_some h, ih, scan_isdst h]

/-- The seconds stored for a reading. -/
def seconds (z : ZoneRule) (r : Reading) : Int :=
  if r.redated then
    ((localtime z (yearOn z r.fields)).inYear r.fields.tmYear).wall - z.offset (yearOn z r.fields)
  else r.fields.wall - z.std

/-- They are what `input_logread_parse_line` stores. -/
theorem parse_seconds {z : ZoneRule} {now : Int} {line : List Byte} {r : Reading}
    (h : reading z now line = some r) (entry : Entry) :
    (inputLogreadParseLine z now line entry).timestamp =
      some { Timestamp.init with seconds := seconds z r } := by
  simp only [reading] at h
  simp only [inputLogreadParseLine]
  have hopenwrt := strptime_isdst line openwrtFormat Tm.zero
  generalize strptime line openwrtFormat Tm.zero = openwrt at *
  have hjournalctl := strptime_isdst line journalctlFormat openwrt.2
  rw [hopenwrt] at hjournalctl
  generalize strptime line journalctlFormat openwrt.2 = journalctl at *
  cases hres : openwrt.1 with
  | some res =>
    simp only [hres, Option.some.injEq] at h
    subst h
    have hzero : openwrt.2.tmIsdst = 0 := hopenwrt
    simp [storeLine, seconds, mktime, ZoneRule.assumed, hzero]
  | none =>
    cases hres' : journalctl.1 with
    | none => simp [hres, hres'] at h
    | some res =>
      have hguess := firstGuess_eq hjournalctl z now
      simp only [hres, hres'] at h
      split at h
      · rename_i hfuture
        cases h
        simp only [storeLine, journalctlSeconds_eq, if_pos hfuture]
        rw [seconds, if_pos rfl, hguess]
        rfl
      · rename_i hfuture
        cases h
        simp only [storeLine, journalctlSeconds_eq, if_neg hfuture]
        rw [seconds, if_neg (by simp), hguess, yearOn]
        simp [Tm.inYear]

/-- The instant at which standard time shows the date of `tm` a year earlier. -/
def yearBefore (z : ZoneRule) (tm : Tm) : Int := (tm.inYear (tm.tmYear - 1)).wall - z.std

/-- What becomes of the date a year on: it is shown in its own year or runs over
into the next, where the step back takes it to the year before. -/
theorem stepped_back_twice {z : ZoneRule} {tm : Tm} (h₁ : 2 ≤ tm.tmMon) (h₂ : tm.tmMon ≤ 11)
    (hyear : (localtime z (yearOn z tm)).tmYear = tm.tmYear + 2)
    (hmon : (localtime z (yearOn z tm)).tmMon < 2) :
    ((localtime z (yearOn z tm)).inYear tm.tmYear).wall - z.offset (yearOn z tm) =
      yearBefore z tm := by
  have hshown := localtime_valid z (yearOn z tm)
  have hwall := wall_localtime z (yearOn z tm)
  have hon : yearOn z tm = (tm.inYear (tm.tmYear + 1)).wall - z.std := rfl
  have hbefore : yearBefore z tm = (tm.inYear (tm.tmYear - 1)).wall - z.std := rfl
  have h₀ : 0 ≤ tm.tmMon := by omega
  have hprev := wall_next h₀ h₂ (tm.tmYear - 1)
  have hnext := wall_next h₀ h₂ tm.tmYear
  have hback := wall_next hshown.2.1 hshown.2.2.1 tm.tmYear
  have hback' := wall_next hshown.2.1 hshown.2.2.1 (tm.tmYear + 1)
  have htwo : tm.tmYear + 1 + 1 = (localtime z (yearOn z tm)).tmYear := by omega
  have hlate : ¬tm.tmMon < 2 := by omega
  have hy : 1900 + (tm.tmYear - 1) + 1 = 1900 + tm.tmYear := by ring
  rw [htwo, inYear_self, hwall] at hback'
  rw [Int.sub_add_cancel, inYear_self] at hprev
  rw [inYear_self] at hnext
  simp only [span, hmon, hlate, if_true, if_false, hy, ← Int.add_assoc] at hprev hnext hback hback'
  omega

/-- Less than a day away: the offset in force and the standard one. -/
theorem offset_near {z : ZoneRule} (shift : |z.dst - z.std| < 86400) (s : Int) :
    -86400 < z.offset s - z.std ∧ z.offset s - z.std < 86400 := by
  rw [abs_lt] at shift
  simp only [ZoneRule.offset]
  split <;> omega

theorem wall_yearOn (z : ZoneRule) (tm : Tm) :
    (localtime z (yearOn z tm)).wall =
      (tm.inYear (tm.tmYear + 1)).wall + (z.offset (yearOn z tm) - z.std) := by
  rw [wall_localtime, yearOn]
  ring

/-- With such offsets a date a year on is shown in its own year or in one next to
it, and it runs over into the next year only from its last months into the first. -/
theorem shown_year {z : ZoneRule} (shift : |z.dst - z.std| < 86400) {tm : Tm} (h : tm.Valid) :
    let shown := localtime z (yearOn z tm)
    shown.tmYear = tm.tmYear ∨ shown.tmYear = tm.tmYear + 1 ∨
      (shown.tmYear = tm.tmYear + 2 ∧ shown.tmMon < 2 ∧ 2 ≤ tm.tmMon) := by
  intro shown
  have hvalid : shown.Valid := localtime_valid z (yearOn z tm)
  have hoff := offset_near shift (yearOn z tm)
  have hwall : shown.wall = _ := wall_yearOn z tm
  -- The two days are the same or adjacent.
  have hday := number_wall h (tm.tmYear + 1)
  have hshown : shown.date.number = shown.wall / 86400 + epochDay := by
    rw [wall_localtime, number_localtime]
  have hbounds := number_inYear_bounds h.1 (1900 + (tm.tmYear + 1))
  have hnumber := number_bounds hvalid.1
  have hyear : shown.date.year = 1900 + shown.tmYear := localtime_year z _
  rw [date_month h.2.1 h.2.2.1] at hbounds
  rw [hyear] at hnumber
  obtain hlt | heq | heq | heq | hgt : shown.tmYear < tm.tmYear ∨ shown.tmYear = tm.tmYear ∨
      shown.tmYear = tm.tmYear + 1 ∨ shown.tmYear = tm.tmYear + 2 ∨
        tm.tmYear + 2 < shown.tmYear := by
    omega
  · have hstart := yearStart_mono (1900 + shown.tmYear + 1) (1900 + tm.tmYear) (by omega)
    have hnext := yearStart_lt (1900 + tm.tmYear) (1900 + (tm.tmYear + 1)) (by omega)
    omega
  · exact .inl heq
  · exact .inr (.inl heq)
  · have hnext := yearStart_lt (1900 + (tm.tmYear + 1)) (1900 + (tm.tmYear + 1) + 1) (by omega)
    have hsame : 1900 + (tm.tmYear + 1) + 1 = 1900 + shown.tmYear := by omega
    rw [hsame] at hbounds hnext
    refine .inr (.inr ⟨heq, ?_, by omega⟩)
    rw [← date_month hvalid.2.1 hvalid.2.2.1]
    apply month_lt_two hvalid.1
    rw [hyear]
    omega
  · have hstart := yearStart_lt (1900 + (tm.tmYear + 1) + 1) (1900 + shown.tmYear) (by omega)
    omega

/-- The condition under which the time written is the time stored: standard time is
in force at the only instant that shows it. A date of last year must besides be shown,
a year on, in its own year and on its own side of the leap day; or run over the year's
end, with standard time in force on it the year before. -/
def Keeps (z : ZoneRule) (r : Reading) (t : Int) : Prop :=
  let shown := localtime z (yearOn z r.fields)
  if r.redated then
    (shown.tmYear = r.fields.tmYear + 1 ∧ z.offset t = z.std ∧
      span (1900 + r.fields.tmYear) shown.tmMon = span (1900 + r.fields.tmYear) r.fields.tmMon) ∨
    (shown.tmYear = r.fields.tmYear + 2 ∧ shown.tmMon < 2 ∧ 2 ≤ r.fields.tmMon ∧
      z.offset (yearBefore z r.fields) = z.std)
  else z.offset t = z.std

section Unique

variable {z : ZoneRule} {f : Tm} {t : Int}

theorem reads_iff
    (unique : ∀ s, (localtime z s).tmYear = f.tmYear ∧ (localtime z s).Shows f ↔ s = t) :
    f.Valid ∧ ∀ s, s + z.offset s = f.wall ↔ s = t := by
  obtain ⟨hyear, hshows⟩ := (unique t).mpr rfl
  have hvalid := valid_of_shows (localtime_valid z t) hyear hshows
  exact ⟨hvalid, fun s => (shows_iff z s hvalid).symm.trans (unique s)⟩

/-- Near the reading the fields are shown only at the one instant that shows them. -/
theorem standard_of_shows (shift : |z.dst - z.std| < 86400) (hvalid : f.Valid)
    (unique : ∀ s, s + z.offset s = f.wall ↔ s = t) {k : Int} (hk : -1 ≤ k ∧ k ≤ 1)
    (h : (localtime z (f.wall - z.std + k * 86400)).Shows f) : k = 0 ∧ z.offset t = z.std := by
  have hoff := offset_near shift (f.wall - z.std + k * 86400)
  have hself : (f.inYear f.tmYear).wall = f.wall := rfl
  have hwall := shows_near hvalid.2.1 hvalid.2.2.1 f.tmYear h
    (by rw [hself]; omega) (by rw [hself]; omega)
  rw [hself] at hwall
  have ht := (unique _).mp hwall
  rw [ht] at hwall hoff
  have hzero : k = 0 := by omega
  refine ⟨hzero, ?_⟩
  rw [hzero] at ht
  omega

theorem shows_of_keeps {r : Reading} (hvalid : r.fields.Valid)
    (unique : ∀ s, s + z.offset s = r.fields.wall ↔ s = t) (h : Keeps z r t) :
    (localtime z (seconds z r)).Shows r.fields := by
  have ht := (unique t).mpr rfl
  have hshows := ((shows_iff z t hvalid).mpr ht).2
  simp only [Keeps] at h
  cases hredated : r.redated with
  | false =>
    simp only [hredated, Bool.false_eq_true, if_false] at h
    have hseconds : seconds z r = t := by
      simp only [seconds, hredated, Bool.false_eq_true, if_false]
      omega
    rw [hseconds]
    exact hshows
  | true =>
    simp only [hredated, if_true] at h
    obtain ⟨hyear, hstd, hspan⟩ | ⟨hyear, hmon, hlate, hstd⟩ := h
    · have hseconds : seconds z r = t := by
        simp only [seconds, hredated, if_true]
        rw [stepped_back hvalid.2.1 hvalid.2.2.1 hyear, hspan]
        omega
      rw [hseconds]
      exact hshows
    · have hseconds : seconds z r = yearBefore z r.fields := by
        simp only [seconds, hredated, if_true]
        exact stepped_back_twice hlate hvalid.2.2.1 hyear hmon
      have hbefore : (r.fields.inYear (r.fields.tmYear - 1)).Valid :=
        inYear_valid hvalid _ (by omega)
      rw [hseconds]
      refine ((shows_iff z _ hbefore).mpr ?_).2
      rw [hstd, yearBefore]
      exact Int.sub_add_cancel _ _

theorem keeps_of_shows (shift : |z.dst - z.std| < 86400) {r : Reading} (hvalid : r.fields.Valid)
    (unique : ∀ s, s + z.offset s = r.fields.wall ↔ s = t)
    (h : (localtime z (seconds z r)).Shows r.fields) : Keeps z r t := by
  simp only [Keeps]
  cases hredated : r.redated with
  | false =>
    simp only [seconds, hredated, Bool.false_eq_true, if_false] at h ⊢
    have hzero : (localtime z (r.fields.wall - z.std + 0 * 86400)).Shows r.fields := by
      simpa using h
    exact (standard_of_shows shift hvalid unique (by decide) hzero).2
  | true =>
    simp only [seconds, hredated, if_true] at h ⊢
    obtain hyear | hyear | ⟨hyear, hmon, hlate⟩ := shown_year shift hvalid
    · -- Run over into the year before, the date is not stepped back at all.
      have hsame : (localtime z (yearOn z r.fields)).inYear r.fields.tmYear =
          localtime z (yearOn z r.fields) := by
        rw [← hyear, inYear_self]
      rw [hsame, wall_localtime, Int.add_sub_cancel] at h
      have hwall := (shows_iff z _ hvalid).mp ⟨hyear, h⟩
      have hon := wall_yearOn z r.fields
      have hoff := offset_near shift (yearOn z r.fields)
      have hlt := wall_year_lt hvalid.2.1 hvalid.2.2.1 r.fields.tmYear (r.fields.tmYear + 1)
        (by omega)
      rw [wall_localtime] at hon
      rw [inYear_self] at hlt
      omega
    · rw [stepped_back hvalid.2.1 hvalid.2.2.1 hyear] at h
      have hspan := span_bounds (1900 + r.fields.tmYear) r.fields.tmMon
      have hspan' := span_bounds (1900 + r.fields.tmYear) (localtime z (yearOn z r.fields)).tmMon
      obtain ⟨hzero, hstd⟩ := standard_of_shows shift hvalid unique (by omega) h
      exact .inl ⟨hyear, hstd, by omega⟩
    · rw [stepped_back_twice hlate hvalid.2.2.1 hyear hmon] at h
      have hoff := offset_near shift (yearBefore z r.fields)
      have hbefore : yearBefore z r.fields =
          (r.fields.inYear (r.fields.tmYear - 1)).wall - z.std := rfl
      have hwall := shows_near hvalid.2.1 hvalid.2.2.1 (r.fields.tmYear - 1) h (by omega) (by omega)
      exact .inr ⟨hyear, hmon, hlate, by omega⟩

end Unique

/-- The wall-clock time of a line that one instant shows is the local time of the
seconds stored if it is kept, and only then where daylight time is less than a day away. -/
theorem wall_clock_stored_iff (z : ZoneRule) (now : Int) (line : List Byte) (entry : Entry)
    (r : Reading) (t : Int) (read : reading z now line = some r)
    (unique : ∀ s, (localtime z s).tmYear = r.fields.tmYear ∧ (localtime z s).Shows r.fields ↔
      s = t) :
    ∃ seconds, (inputLogreadParseLine z now line entry).timestamp =
        some { Timestamp.init with seconds := seconds } ∧
      (Keeps z r t → (localtime z seconds).Shows r.fields) ∧
      (|z.dst - z.std| < 86400 → ((localtime z seconds).Shows r.fields ↔ Keeps z r t)) := by
  obtain ⟨hvalid, hunique⟩ := reads_iff unique
  have hkeeps := shows_of_keeps hvalid hunique
  exact ⟨seconds z r, parse_seconds read entry, hkeeps,
    fun shift => ⟨keeps_of_shows shift hvalid hunique, hkeeps⟩⟩

/-- Central European time with the daylight interval of 2019. -/
def centralEurope : ZoneRule := ⟨3600, 7200, fun t => decide (1553994000 ≤ t ∧ t < 1572138000)⟩

/-- Away from the changes of the clock one instant shows a time. -/
theorem centralEurope_unique {f : Tm} (h : f.Valid) {t : Int}
    (ht : t + centralEurope.offset t = f.wall)
    (hfar : t + 3600 < 1553994000 ∨ 1553994000 ≤ t - 3600 ∧ t + 3600 < 1572138000 ∨
      1572138000 ≤ t - 3600) (s : Int) :
    (localtime centralEurope s).tmYear = f.tmYear ∧ (localtime centralEurope s).Shows f ↔
      s = t := by
  rw [shows_iff _ _ h, ← ht]
  simp only [ZoneRule.offset, centralEurope, decide_eq_true_eq]
  constructor
  · intro hs
    split at hs <;> split at hs <;> omega
  · rintro rfl
    rfl

/-- A noon in July is stored as standard time and shown an hour late. -/
theorem summer_not_kept :
    ¬ ∀ (z : ZoneRule) (now : Int) (line : List Byte) (entry : Entry) (r : Reading) (t : Int),
      reading z now line = some r →
      (∀ s, (localtime z s).tmYear = r.fields.tmYear ∧ (localtime z s).Shows r.fields ↔ s = t) →
      ∃ seconds, (inputLogreadParseLine z now line entry).timestamp =
          some { Timestamp.init with seconds := seconds } ∧
        (localtime z seconds).Shows r.fields := by
  intro h
  let line := ascii ['W', 'e', 'd', ' ', 'J', 'u', 'l', ' ', '1', '0', ' ', '1', '2', ':', '0', '0',
    ':', '0', '0', ' ', '2', '0', '1', '9', ' ', 'x']
  have hstored : (inputLogreadParseLine centralEurope 0 line Entry.init).timestamp =
      some ⟨1562756400, 0⟩ := by decide
  obtain ⟨seconds, hseconds, hshows⟩ := h centralEurope 0 line Entry.init
    ⟨⟨0, 0, 12, 10, 6, 119, 3, 0⟩, false⟩ 1562752800 rfl
    (centralEurope_unique (by decide) (by decide) (by decide))
  rw [hstored, Option.some.injEq, Timestamp.mk.injEq] at hseconds
  rw [← hseconds.1] at hshows
  revert hshows
  decide

/-- Noon on the last day of a year, read two weeks later: the line is re-dated and kept. -/
theorem winter_kept :
    ∃ seconds, (inputLogreadParseLine centralEurope 1610668800
        (ascii ['D', 'e', 'c', ' ', '3', '1', ' ', '1', '2', ':', '0', '0', ':', '0', '0', ' ',
          'x'])
        Entry.init).timestamp = some { Timestamp.init with seconds := seconds } ∧
      (Keeps centralEurope ⟨⟨0, 0, 12, 31, 11, 120, 0, 0⟩, true⟩ 1609412400 →
        (localtime centralEurope seconds).Shows ⟨0, 0, 12, 31, 11, 120, 0, 0⟩) ∧
      (|centralEurope.dst - centralEurope.std| < 86400 →
        ((localtime centralEurope seconds).Shows ⟨0, 0, 12, 31, 11, 120, 0, 0⟩ ↔
          Keeps centralEurope ⟨⟨0, 0, 12, 31, 11, 120, 0, 0⟩, true⟩ 1609412400)) :=
  wall_clock_stored_iff centralEurope 1610668800 _ Entry.init
    ⟨⟨0, 0, 12, 31, 11, 120, 0, 0⟩, true⟩ 1609412400 (by rfl)
    (centralEurope_unique (by decide) (by decide) (by decide))

end Lokicat.WallClock

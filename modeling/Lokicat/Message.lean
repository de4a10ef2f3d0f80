import Lokicat.InputLogread

/-!
# The date and the message of a line

A line is tried as an OpenWrt line and then as a journalctl line. No line that
has one of the dates gets past the first directive of the other format, so the
struct that the attempts share is clean. What follows the date, or the whole line
if it has none, is kept up to the white space at its ends.
-/

namespace Lokicat.Message

open CString InputLogread LocalTime Logproto Strptime Util

/-! ## The two formats -/

/-- A name that matches is, letter case aside, how the string starts. -/
theorem matchName_prefix {name s r : List Byte} (h : matchName name s = some r) :
    name.map tolower <+: s.map tolower := by
  induction name generalizing s with
  | nil => exact List.nil_prefix
  | cons c cs ih =>
    cases s with
    | nil => cases h
    | cons b bs =>
      simp only [matchName] at h
      split at h
      · rename_i heq
        rw [List.map_cons, List.map_cons, eq_of_beq heq]
        exact List.cons_prefix_cons.mpr ⟨rfl, ih h⟩
      · cases h

theorem getName_prefix {i : Nat} {names : List (List Byte × List Byte)} {s : List Byte}
    {r : Nat × List Byte} (h : getName i names s = some r) :
    ∃ name ∈ names.flatMap (fun p => [p.1, p.2]), name.map tolower <+: s.map tolower := by
  induction names generalizing i with
  | nil => cases h
  | cons p names ih =>
    simp only [getName] at h
    split at h
    · rename_i hfull
      exact ⟨p.1, by simp, matchName_prefix hfull⟩
    · split at h
      · rename_i habbr
        exact ⟨p.2, by simp, matchName_prefix habbr⟩
      · obtain ⟨name, hname, hstart⟩ := ih h
        exact ⟨name, by rw [List.flatMap_cons]; exact List.mem_append_right _ hname, hstart⟩

/-- No weekday starts like a month. -/
theorem weekdays_months : ∀ w ∈ weekdays.flatMap (fun p => [p.1, p.2]),
    ∀ m ∈ months.flatMap (fun p => [p.1, p.2]),
      ¬w.map tolower <+: m.map tolower ∧ ¬m.map tolower <+: w.map tolower := by
  decide

theorem weekday_not_month {s : List Byte} {r : Nat × List Byte}
    (h : getName 0 weekdays s = some r) : getName 0 months s = none := by
  cases hmonth : getName 0 months s with
  | none => rfl
  | some q =>
    obtain ⟨w, hw, hws⟩ := getName_prefix h
    obtain ⟨m, hm, hms⟩ := getName_prefix hmonth
    obtain ⟨hwm, hmw⟩ := weekdays_months w hw m hm
    obtain hwm' | hmw' := List.prefix_or_prefix_of_prefix hws hms
    · exact absurd hwm' hwm
    · exact absurd hmw' hmw

/-- The OpenWrt format stops at its first directive, or the journalctl format does. -/
theorem openwrt_or_journalctl (line : List Byte) :
    strptime line openwrtFormat Tm.zero = (none, Tm.zero) ∨
      ∀ tm, strptime line journalctlFormat tm = (none, tm) := by
  cases hweekday : getName 0 weekdays line with
  | none =>
    have hscan : Directive.weekday.scan line Tm.zero = none := by
      simp only [Directive.scan, hweekday, Option.map_none]
    exact .inl (strptime_none hscan _)
  | some r =>
    refine .inr fun tm => ?_
    have hscan : Directive.month.scan line tm = none := by
      simp only [Directive.scan, weekday_not_month hweekday, Option.map_none]
    exact strptime_none hscan _

/-- `input_logread_parse_line` with the struct set to zero before the second attempt. -/
def parseLineReset (z : ZoneRule) (now : Int) (line : List Byte) (entry : Entry) : Entry :=
  let openwrt := strptime line openwrtFormat Tm.zero
  match openwrt.1 with
  | some res =>
    storeLine res
      { entry with timestamp := some { Timestamp.init with seconds := (mktime z openwrt.2).1 } }
  | none =>
    let journalctl := strptime line journalctlFormat Tm.zero
    match journalctl.1 with
    | some res =>
      storeLine res
        { entry with
          timestamp := some { Timestamp.init with
            seconds := journalctlSeconds z now journalctl.2 } }
    | none => storeLine line entry

/-- The second attempt is not contaminated: the struct might as well be set to zero,
and a line that starts with a journalctl date leaves no field of the first attempt. -/
theorem second_attempt_clean (z : ZoneRule) (now : Int) (line : List Byte) (entry : Entry) :
    inputLogreadParseLine z now line entry = parseLineReset z now line entry ∧
      ∀ tm, (strptime line journalctlFormat tm).1 ≠ none →
        strptime line openwrtFormat Tm.zero = (none, Tm.zero) := by
  obtain hopenwrt | hjournalctl := openwrt_or_journalctl line
  · refine ⟨?_, fun _ _ => hopenwrt⟩
    cases hsecond : (strptime line journalctlFormat Tm.zero).1 <;>
      simp only [inputLogreadParseLine, parseLineReset, hopenwrt, hsecond]
  · constructor
    · cases hfirst : (strptime line openwrtFormat Tm.zero).1 <;>
        simp only [inputLogreadParseLine, parseLineReset, hfirst, hjournalctl]
    · intro tm h
      rw [hjournalctl] at h
      exact absurd rfl h

/-! ## The message -/

/-- What follows the date, for the first of the two formats that the line has. -/
def afterDate (line : List Byte) : Option (List Byte) :=
  let openwrt := strptime line openwrtFormat Tm.zero
  match openwrt.1 with
  | some res => some res
  | none => (strptime line journalctlFormat openwrt.2).1

theorem afterDate_suffix {line res : List Byte} (h : afterDate line = some res) : res <:+ line := by
  simp only [afterDate] at h
  split at h
  · rename_i hopenwrt
    cases h
    exact strptime_suffix hopenwrt
  · exact strptime_suffix h

/-- A parse keeps what follows the date, and stamps the entry if there is a date. -/
theorem parse_cases (z : ZoneRule) (now : Int) (line : List Byte) (entry : Entry) :
    (∃ res seconds, afterDate line = some res ∧
      inputLogreadParseLine z now line entry =
        storeLine res { entry with timestamp := some { Timestamp.init with seconds := seconds } }) ∨
    (afterDate line = none ∧ inputLogreadParseLine z now line entry = storeLine line entry) := by
  simp only [afterDate, inputLogreadParseLine]
  cases (strptime line openwrtFormat Tm.zero).1 with
  | some res => exact .inl ⟨res, _, rfl, rfl⟩
  | none =>
    cases (strptime line journalctlFormat (strptime line openwrtFormat Tm.zero).2).1 with
    | some res => exact .inl ⟨res, _, rfl, rfl⟩
    | none => exact .inr ⟨rfl, rfl⟩

@[simp] theorem storeLine_timestamp (res : List Byte) (entry : Entry) :
    (storeLine res entry).timestamp = entry.timestamp := rfl

@[simp] theorem storeLine_line (res : List Byte) (entry : Entry) :
    (storeLine res entry).line = trim res := strncpy_trimWhitespace res

/-- What is kept of a line and where the timestamp comes from. -/
theorem parse_line (z : ZoneRule) (now : Int) (line : List Byte) (entry : Entry) :
    (inputLogreadParseLine z now line entry).line = trim ((afterDate line).getD line) := by
  obtain ⟨res, seconds, hdate, hparse⟩ | ⟨hdate, hparse⟩ := parse_cases z now line entry
  · rw [hparse, hdate, storeLine_line, Option.getD_some]
  · rw [hparse, hdate, storeLine_line, Option.getD_none]

theorem afterDate_split (line : List Byte) :
    ∃ p, line = p ++ (afterDate line).getD line ∧
      match afterDate line with
      | some res => line = p ++ res
      | none => p = [] := by
  cases hdate : afterDate line with
  | some res =>
    obtain ⟨p, hp⟩ := afterDate_suffix hdate
    exact ⟨p, hp.symm, hp.symm⟩
  | none => exact ⟨[], rfl, rfl⟩

theorem parse_nulFree (z : ZoneRule) (now : Int) {line : List Byte} (h : NulFree line)
    (entry : Entry) : NulFree (inputLogreadParseLine z now line entry).line := by
  intro b hb
  rw [parse_line] at hb
  obtain ⟨p, hp, -⟩ := afterDate_split line
  apply h
  rw [hp]
  exact List.mem_append_right _ (trim_mem b hb)

/-- The whole message is kept: a line is its date, if it has one, the text stored in the entry
and white space around it, and the entry is stamped exactly if there is a date. -/
theorem message_kept (z : ZoneRule) (now : Int) (line : List Byte) (entry : Entry)
    (text : NulFree line) :
    let e := inputLogreadParseLine z now line entry
    (∃ p w₁ w₂, line = p ++ w₁ ++ e.line ++ w₂ ∧
      (match afterDate line with
        | some res => line = p ++ res
        | none => p = []) ∧
      (∀ b ∈ w₁, isspace b = true) ∧ ∀ b ∈ w₂, isspace b = true) ∧
    (∀ b ∈ e.line.head?, isspace b = false) ∧ (∀ b ∈ e.line.getLast?, isspace b = false) ∧
    strlen e.line = e.line.length ∧
    match afterDate line with
      | some _ => ∃ seconds, e.timestamp = some { Timestamp.init with seconds := seconds }
      | none => e.timestamp = entry.timestamp := by
  intro e
  have hline : e.line = trim ((afterDate line).getD line) := parse_line z now line entry
  obtain ⟨p, hp, hdate⟩ := afterDate_split line
  obtain ⟨w₁, w₂, hsplit, hw₁, hw₂⟩ := trim_split ((afterDate line).getD line)
  have hlength : strlen e.line = e.line.length := by
    rw [strlen, cstr_eq_self (parse_nulFree z now text entry)]
  rw [hline] at hlength ⊢
  refine ⟨⟨p, w₁, w₂, ?_, hdate, hw₁, hw₂⟩, trim_head _, trim_last _, hlength, ?_⟩
  · rw [List.append_assoc p, List.append_assoc p, ← hsplit]
    exact hp
  · obtain ⟨res, seconds, hsome, hparse⟩ | ⟨hnone, hparse⟩ := parse_cases z now line entry
    · simp only [hsome, e, hparse, storeLine_timestamp]
      exact ⟨seconds, rfl⟩
    · simp only [hnone, e, hparse, storeLine_timestamp]

/-- A line without a date. -/
theorem message_kept_padded :
    let line := ascii [' ', 'a', ' ', 'b', ' ']
    let e := inputLogreadParseLine (ZoneRule.constant 0) 0 line Entry.init
    (∃ p w₁ w₂, line = p ++ w₁ ++ e.line ++ w₂ ∧
      (match afterDate line with
        | some res => line = p ++ res
        | none => p = []) ∧
      (∀ b ∈ w₁, isspace b = true) ∧ ∀ b ∈ w₂, isspace b = true) ∧
    (∀ b ∈ e.line.head?, isspace b = false) ∧ (∀ b ∈ e.line.getLast?, isspace b = false) ∧
    strlen e.line = e.line.length ∧
    match afterDate line with
      | some _ => ∃ seconds, e.timestamp = some { Timestamp.init with seconds := seconds }
      | none => e.timestamp = Entry.init.timestamp :=
  message_kept (ZoneRule.constant 0) 0 (ascii [' ', 'a', ' ', 'b', ' ']) Entry.init (by decide)

end Lokicat.Message

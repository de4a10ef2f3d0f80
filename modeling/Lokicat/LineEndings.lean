import Lokicat.Delivery
import Lokicat.Message

/-!
# White space at the end of a line

White space after a line changes nothing that is parsed from it: a directive that
could read it only skips it, and the text is trimmed. So a stream whose lines end in
CR LF is forwarded like the same stream with LF, however either is read.
-/

namespace Lokicat.LineEndings

open Chunks CString Delivery Framing InputLogread LocalTime Logproto MainLoop Message Strptime Util

/-- The second string is the first with white space behind it. -/
def Padded (s s' : List Byte) : Prop := ∃ ws, s' = s ++ ws ∧ ∀ b ∈ ws, isspace b = true

theorem padded_refl (s : List Byte) : Padded s s := ⟨[], by simp, by simp⟩

theorem trim_of_padded {s s' : List Byte} (h : Padded s s') : trim s' = trim s := by
  obtain ⟨ws, rfl, hws⟩ := h
  have hblank : ∀ b ∈ ([] : List Byte), isspace b = true := by simp
  exact trim_padded hblank hws s

/-! ## Directives -/

section Directives

variable {b : Byte}

theorem space_range (h : isspace b = true) : 9 ≤ b.toNat ∧ b.toNat ≤ 32 := by
  simp only [isspace, Bool.or_eq_true, beq_iff_eq, Bool.and_eq_true, decide_eq_true_eq,
    UInt8.le_iff_toNat_le] at h
  obtain rfl | ⟨h₁, h₂⟩ := h
  · decide
  · exact ⟨h₁, le_trans h₂ (by decide)⟩

theorem space_not_digit (h : isspace b = true) : isdigit b = false := by
  have hrange := space_range h
  simp only [isdigit, Bool.and_eq_false_iff, decide_eq_false_iff_not, UInt8.le_iff_toNat_le]
  left
  have : (48 : Byte).toNat = 48 := rfl
  omega

/-- No white space is taken for a letter of a name. -/
theorem space_not_letter (h : isspace b = true) {c : Byte} (hc : 97 ≤ tolower c) :
    (tolower b == tolower c) = false := by
  have hrange := space_range h
  have hlower : tolower b = b := by
    have : (65 : Byte).toNat = 65 := rfl
    apply if_neg
    simp only [Bool.and_eq_true, decide_eq_true_eq, UInt8.le_iff_toNat_le]
    omega
  rw [hlower, beq_eq_false_iff_ne]
  rintro rfl
  have : (97 : Byte).toNat = 97 := rfl
  rw [UInt8.le_iff_toNat_le] at hc
  omega

end Directives

/-- Two results of reading: both failed, or the same value with padded rests. -/
abbrev BothRead {α : Type} : Option (α × List Byte) → Option (α × List Byte) → Prop :=
  Option.Rel fun r r' => r.1 = r'.1 ∧ Padded r.2 r'.2

theorem matchName_padded {name : List Byte} (hname : ∀ c ∈ name, 97 ≤ tolower c)
    {s s' : List Byte} (h : Padded s s') :
    Option.Rel Padded (matchName name s) (matchName name s') := by
  induction name generalizing s s' with
  | nil => exact .some h
  | cons c cs ih =>
    obtain ⟨ws, rfl, hws⟩ := h
    cases s with
    | nil =>
      cases ws with
      | nil => exact .none
      | cons b ws =>
        have hb := space_not_letter (hws b (by simp)) (hname c (by simp))
        simp only [matchName, List.nil_append, hb, Bool.false_eq_true, if_false]
        exact .none
    | cons b s =>
      simp only [matchName, List.cons_append]
      split
      · exact ih (fun c hc => hname c (by simp [hc])) ⟨ws, rfl, hws⟩
      · exact .none

/-- Every byte of the names is a letter. -/
def Letters (names : List (List Byte × List Byte)) : Prop :=
  names.all (fun p => (p.1 ++ p.2).all fun c => 97 ≤ tolower c) = true

instance (names : List (List Byte × List Byte)) : Decidable (Letters names) :=
  inferInstanceAs (Decidable (_ = true))

theorem letters_weekdays : Letters weekdays := by decide

theorem letters_months : Letters months := by decide

theorem getName_padded {names : List (List Byte × List Byte)} (h : Letters names) (i : Nat)
    {s s' : List Byte} (hs : Padded s s') : BothRead (getName i names s) (getName i names s') := by
  induction names generalizing i with
  | nil => exact .none
  | cons p names ih =>
    obtain ⟨full, abbr⟩ := p
    simp only [Letters, List.all_cons, Bool.and_eq_true, List.all_eq_true, List.mem_append,
      decide_eq_true_eq] at h
    have hfull := matchName_padded (fun c hc => h.1 c (.inl hc)) hs
    have habbr := matchName_padded (fun c hc => h.1 c (.inr hc)) hs
    have hnames := ih (by simpa only [Letters, List.all_eq_true, List.mem_append,
      decide_eq_true_eq] using h.2) (i + 1)
    simp only [getName]
    generalize matchName full s = r, matchName full s' = r' at hfull
    generalize matchName abbr s = q, matchName abbr s' = q' at habbr
    cases hfull with
    | some hr => exact .some ⟨rfl, hr⟩
    | none =>
      cases habbr with
      | some hq => exact .some ⟨rfl, hq⟩
      | none => exact hnames

theorem getDigits_padded (hi n v : Nat) {s s' : List Byte} (h : Padded s s') :
    (getDigits hi n v s).1 = (getDigits hi n v s').1 ∧
      Padded (getDigits hi n v s).2 (getDigits hi n v s').2 := by
  induction n generalizing v s s' with
  | zero => exact ⟨rfl, h⟩
  | succ n ih =>
    obtain ⟨ws, rfl, hws⟩ := h
    cases s with
    | nil =>
      cases ws with
      | nil => exact ⟨rfl, padded_refl _⟩
      | cons b ws =>
        have hb := space_not_digit (hws b (by simp))
        simp only [getDigits, List.nil_append, hb, Bool.false_eq_true, and_false, if_false]
        exact ⟨trivial, b :: ws, rfl, hws⟩
    | cons b s =>
      simp only [getDigits, List.cons_append]
      split
      · exact ih _ ⟨ws, rfl, hws⟩
      · exact ⟨rfl, ws, rfl, hws⟩

/-- What is left after leading blanks is padded too. -/
theorem dropWhile_padded {p : Byte → Bool} {s s' : List Byte} (h : Padded s s') :
    Padded (s.dropWhile p) (s'.dropWhile p) := by
  obtain ⟨ws, rfl, hws⟩ := h
  rw [List.dropWhile_append]
  split
  · rename_i hnil
    rw [List.isEmpty_iff.mp hnil]
    exact ⟨ws.dropWhile p, rfl, fun b hb => hws b ((List.dropWhile_suffix p).subset hb)⟩
  · exact ⟨ws, rfl, hws⟩

theorem getNumber_padded (lo hi n : Nat) {s s' : List Byte} (h : Padded s s') :
    BothRead (getNumber lo hi n s) (getNumber lo hi n s') := by
  have hrest := dropWhile_padded (p := isspace) h
  simp only [getNumber]
  generalize s.dropWhile isspace = r at hrest
  generalize s'.dropWhile isspace = r' at hrest
  obtain ⟨ws, rfl, hws⟩ := hrest
  cases r with
  | nil =>
    cases ws with
    | nil => exact .none
    | cons b ws =>
      have hb := space_not_digit (hws b (by simp))
      simp only [List.nil_append, hb, Bool.false_eq_true, if_false]
      exact .none
  | cons b r =>
    have hdigits := getDigits_padded hi (n - 1) (b.toNat - 48) ⟨ws, rfl, hws⟩ (s := r)
    simp only [List.cons_append]
    split
    · rw [← hdigits.1]
      split
      · exact .none
      · exact .some hdigits
    · exact .none

/-! ## Formats and lines -/

/-- A directive reads the same from a padded string, if it does not ask for white space. -/
theorem scan_padded {d : Directive} (hd : ∀ c, d = .char c → isspace c = false)
    {s s' : List Byte} (h : Padded s s') (tm : Tm) :
    Option.Rel (fun r r' => r.2 = r'.2 ∧ Padded r.1 r'.1) (d.scan s tm) (d.scan s' tm) := by
  have hfield : ∀ (f : Nat → Tm) {r r' : Option (Nat × List Byte)}, BothRead r r' →
      Option.Rel (fun q q' => q.2 = q'.2 ∧ Padded q.1 q'.1) (r.map fun x => (x.2, f x.1))
        (r'.map fun x => (x.2, f x.1)) := by
    rintro f r r' (⟨hvalue, hrest⟩ | -)
    · exact .some ⟨congrArg f hvalue, hrest⟩
    · exact .none
  cases d with
  | space => exact .some ⟨rfl, dropWhile_padded h⟩
  | weekday => exact hfield (fun n => { tm with tmWday := n }) (getName_padded letters_weekdays 0 h)
  | month => exact hfield (fun n => { tm with tmMon := n }) (getName_padded letters_months 0 h)
  | day => exact hfield (fun n => { tm with tmMday := n }) (getNumber_padded 1 31 2 h)
  | hour => exact hfield (fun n => { tm with tmHour := n }) (getNumber_padded 0 23 2 h)
  | minute => exact hfield (fun n => { tm with tmMin := n }) (getNumber_padded 0 59 2 h)
  | second => exact hfield (fun n => { tm with tmSec := n }) (getNumber_padded 0 61 2 h)
  | year => exact hfield (fun n => { tm with tmYear := n - 1900 }) (getNumber_padded 0 9999 4 h)
  | char c =>
    obtain ⟨ws, rfl, hws⟩ := h
    cases s with
    | nil =>
      cases ws with
      | nil => exact .none
      | cons b ws =>
        have hb : b ≠ c := by
          rintro rfl
          have hspace := hws b (by simp)
          rw [hd b rfl] at hspace
          cases hspace
        simp only [Directive.scan, List.nil_append, if_neg hb]
        exact .none
    | cons b s =>
      simp only [Directive.scan, List.cons_append]
      split
      · exact .some ⟨rfl, ws, rfl, hws⟩
      · exact .none

theorem strptime_padded (format : List Directive)
    (hformat : ∀ d ∈ format, ∀ c, d = .char c → isspace c = false) {s s' : List Byte}
    (h : Padded s s') (tm : Tm) :
    Option.Rel Padded (strptime s format tm).1 (strptime s' format tm).1 ∧
      (strptime s format tm).2 = (strptime s' format tm).2 := by
  induction format generalizing s s' tm with
  | nil => exact ⟨.some h, rfl⟩
  | cons d ds ih =>
    have hscan := scan_padded (hformat d (by simp)) h tm
    simp only [strptime]
    generalize d.scan s tm = r at hscan
    generalize d.scan s' tm = r' at hscan
    cases hscan with
    | none => exact ⟨.none, rfl⟩
    | @some x x' hx =>
      obtain ⟨rest, tm'⟩ := x
      obtain ⟨rest', tm''⟩ := x'
      obtain ⟨htm, hrest⟩ := hx
      simp only at htm hrest
      subst htm
      exact ih (fun d hd => hformat d (by simp [hd])) hrest tm'

theorem storeLine_padded {s s' : List Byte} (h : Padded s s') (entry : Entry) :
    storeLine s' entry = storeLine s entry := by
  simp only [storeLine, strncpy_trimWhitespace, trim_of_padded h]

/-- A line is parsed the same with white space behind it. -/
theorem parse_padded (z : ZoneRule) (now : Int) {line line' : List Byte} (h : Padded line line')
    (entry : Entry) :
    inputLogreadParseLine z now line' entry = inputLogreadParseLine z now line entry := by
  have hopenwrt := strptime_padded openwrtFormat (by simp [openwrtFormat]; decide) h
    Tm.zero
  simp only [inputLogreadParseLine, ← hopenwrt.2]
  have hjournalctl := strptime_padded journalctlFormat
    (by simp [journalctlFormat]; decide) h (strptime line openwrtFormat Tm.zero).2
  replace hopenwrt := hopenwrt.1
  generalize (strptime line openwrtFormat Tm.zero).1 = r at hopenwrt
  generalize (strptime line' openwrtFormat Tm.zero).1 = r' at hopenwrt
  cases hopenwrt with
  | some hr => exact storeLine_padded hr _
  | none =>
    simp only [← hjournalctl.2]
    replace hjournalctl := hjournalctl.1
    generalize (strptime line journalctlFormat
      (strptime line openwrtFormat Tm.zero).2).1 = q at hjournalctl
    generalize (strptime line' journalctlFormat
      (strptime line openwrtFormat Tm.zero).2).1 = q' at hjournalctl
    cases hjournalctl with
    | some hq => exact storeLine_padded hq _
    | none => exact storeLine_padded h _

/-! ## Streams -/

/-- Every newline is preceded by a carriage return. -/
def crlf (s : List Byte) : List Byte := s.flatMap fun b => if isNewline b then [13, b] else [b]

theorem crlf_append (s t : List Byte) : crlf (s ++ t) = crlf s ++ crlf t := List.flatMap_append

theorem crlf_plain {s : List Byte} (h : ∀ b ∈ s, isNewline b = false) : crlf s = s := by
  induction s with
  | nil => rfl
  | cons b s ih =>
    have hb := h b (by simp)
    have htail := ih fun c hc => h c (by simp [hc])
    simpa [crlf, hb] using htail

/-- The lines of the changed stream are the lines of the stream, each changed. -/
theorem records_crlf (s : List Byte) :
    records isNewline (crlf s) = (records isNewline s).map crlf := by
  induction hn : s.length using Nat.strong_induction_on generalizing s with
  | _ n ih =>
    rcases line_or_plain s with ⟨w, d, bs, rfl, hw, hd⟩ | hplain
    · have hline : crlf (w ++ d :: bs) = (w ++ [13]) ++ d :: crlf bs := by
        rw [crlf_append, crlf_plain hw]
        simp [crlf, hd]
      have hw' : ∀ b ∈ w ++ [13], isNewline b = false :=
        List.forall_mem_append.mpr ⟨hw, List.forall_mem_singleton.mpr (by decide)⟩
      have hrecord : crlf (w ++ [d]) = w ++ [13] ++ [d] := by
        rw [crlf_append, crlf_plain hw]
        simp [crlf, hd]
      have htail := ih bs.length (by simp [← hn]; omega) bs rfl
      rw [hline, (records_record hw' hd _).1, (records_record hw hd _).1, List.map_cons, htail,
        hrecord]
    · rw [crlf_plain hplain, (records_plain hplain).1]
      rfl

theorem space_of_newline {b : Byte} (h : isNewline b = true) : isspace b = true := by
  rw [isNewline, beq_iff_eq] at h
  subst h
  decide

theorem nulFree_crlf {s : List Byte} (h : NulFree s) : NulFree (crlf s) := by
  intro b hb
  obtain ⟨c, hc, hbc⟩ := List.mem_flatMap.mp hb
  split at hbc
  · obtain rfl | rfl : b = 13 ∨ b = c := by simpa using hbc
    · decide
    · exact h b hc
  · rw [List.mem_singleton.mp hbc]
    exact h c hc

/-- A line is parsed to the same entry with either ending. -/
theorem parsed_crlf (z : ZoneRule) (now : Int) {line : List Byte} (hline : IsRecord isNewline line)
    (hfree : NulFree line) : parsed z now (crlf line) = parsed z now line := by
  rw [parsed, parsed, cstr_eq_self hfree, cstr_eq_self (nulFree_crlf hfree)]
  obtain ⟨w, d, rfl, hw, hd⟩ := hline
  have hchanged : crlf (w ++ [d]) = w ++ [13, d] := by
    rw [crlf_append, crlf_plain hw]
    simp [crlf, hd]
  have hspace := space_of_newline hd
  have hlf : Padded w (w ++ [d]) := ⟨[d], rfl, List.forall_mem_singleton.mpr hspace⟩
  have hcrlf : Padded w (w ++ [13, d]) :=
    ⟨[13, d], rfl, List.forall_mem_cons.mpr ⟨by decide, List.forall_mem_singleton.mpr hspace⟩⟩
  rw [hchanged, parse_padded z now hlf, parse_padded z now hcrlf]

/-- Text with CR LF at the ends of its lines is forwarded like the text with LF, however the
two are cut into reads and whenever they come. -/
theorem crlf_forwarded (cfg : Config) (now : Int) (turns turns' : List Turn)
    (clocks : ∀ t ∈ turns, ∀ k, (t.line k).parseClock = now)
    (clocks' : ∀ t ∈ turns', ∀ k, (t.line k).parseClock = now)
    (text : NulFree (runMain cfg turns).bytesRead)
    (same : (runMain cfg turns').bytesRead = crlf (runMain cfg turns).bytesRead) :
    let st := runMain cfg turns
    let st' := runMain cfg turns'
    st'.batches.flatten ++ st'.stream.entries = st.batches.flatten ++ st.stream.entries := by
  intro st st'
  have hlf := completed_text cfg clocks text
  have hcrlf := completed_text cfg clocks' (same ▸ nulFree_crlf text)
  rw [handed_over, handed_over, hlf, hcrlf, same, records_crlf, List.map_map]
  refine List.map_congr_left fun line hline => ?_
  exact parsed_crlf cfg.zone now (records_shape isNewline _ line hline)
    fun b hb => text b (records_mem hline b hb)

/-- One line with either ending, cut in different places. -/
theorem crlf_one_line :
    let st := runMain utcConfig [readTurn 1 [97], readTurn 1 [10, 98]]
    let st' := runMain utcConfig [readTurn 1 [97, 13], readTurn 1 [10, 98]]
    st'.batches.flatten ++ st'.stream.entries = st.batches.flatten ++ st.stream.entries :=
  crlf_forwarded utcConfig 1 [readTurn 1 [97], readTurn 1 [10, 98]]
    [readTurn 1 [97, 13], readTurn 1 [10, 98]] (by simp [readTurn, idleTurn])
    (by simp [readTurn, idleTurn]) (by decide) (by decide)

end Lokicat.LineEndings

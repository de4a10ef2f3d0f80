import Lokicat.Iteration
import Lokicat.Logproto
import Lokicat.Strptime
import Lokicat.Util

/-!
# input_logread.c

`input_logread_parse_line` turns one line into an entry. `input_logread` reads
lines from a file, `input_logread20` from chunks of any size: it keeps an
unfinished line in the entry and parses it once its newline has come.
-/

namespace Lokicat.InputLogread

open CString Iteration LocalTime Logproto Strptime Util

inductive InputStatus where
  | success : InputStatus
  | eof : InputStatus
  | continue : InputStatus
  | error : InputStatus
  deriving DecidableEq, Repr

/-- `"%a %b %e %H:%M:%S %Y"` -/
def openwrtFormat : List Directive :=
  [.weekday, .space, .month, .space, .day, .space, .hour, .char 58, .minute, .char 58, .second,
    .space, .year]

/-- `"%b %e %H:%M:%S"` -/
def journalctlFormat : List Directive :=
  [.month, .space, .day, .space, .hour, .char 58, .minute, .char 58, .second]

/-- The last year in which the date read is not in the future, taken over
today's year; the struct is re-dated as the first `mktime` has left it. -/
def journalctlSeconds (z : ZoneRule) (now : Int) (tm : Tm) : Int :=
  let today := localtime z now
  let tm := { tm with tmYear := today.tmYear }
  let first := mktime z tm
  let tm := first.2
  let second := mktime z today
  let today := second.2
  let tm := if first.1 > second.1 then { tm with tmYear := today.tmYear - 1 } else tm
  (mktime z tm).1

/-- Trim what follows the date and store a copy of it in the entry. -/
def storeLine (res : List Byte) (entry : Entry) : Entry :=
  let trimmed := trimWhitespace res
  { entry with line := strncpy trimmed.1 trimmed.2 }

def inputLogreadParseLine (z : ZoneRule) (now : Int) (line : List Byte) (entry : Entry) : Entry :=
  let openwrt := strptime line openwrtFormat Tm.zero
  match openwrt.1 with
  | some res =>
    storeLine res
      { entry with timestamp := some { Timestamp.init with seconds := (mktime z openwrt.2).1 } }
  | none =>
    let journalctl := strptime line journalctlFormat openwrt.2
    match journalctl.1 with
    | some res =>
      storeLine res
        { entry with
          timestamp := some { Timestamp.init with
            seconds := journalctlSeconds z now journalctl.2 } }
    | none => storeLine line entry

/-- `getline`: the next line with its newline, or the unterminated last one. -/
def getline : List Byte → Option (List Byte × List Byte)
  | [] => none
  | b :: bs =>
    if isNewline b then some ([b], bs)
    else
      match getline bs with
      | none => some ([b], [])
      | some (line, stream) => some (b :: line, stream)

/-- The status, the entry and what is left of the file. -/
def inputLogread (z : ZoneRule) (now : Int) (stream : List Byte) (entry : Entry) :
    InputStatus × Entry × List Byte :=
  match getline stream with
  | some (line, stream) => (.success, inputLogreadParseLine z now (cstr line) entry, stream)
  | none => (.eof, entry, stream)

/-- The bytes up to and with the first newline, and whether there is one. -/
def findNewline : List Byte → Nat × Bool
  | [] => (0, false)
  | b :: bs => if isNewline b then (1, true) else ((findNewline bs).1 + 1, (findNewline bs).2)

/-- The status, the bytes taken from the buffer and the entry. -/
def inputLogread20 (z : ZoneRule) (now : Int) (buf : List Byte) (entry : Entry) :
    InputStatus × Nat × Entry :=
  let found := findNewline buf
  let i := found.1
  let beforeLen := strlen entry.line
  let line := entry.line.take beforeLen ++ buf.take i
  if found.2 then (.success, i, inputLogreadParseLine z now (cstr line) entry)
  else (.continue, i, { entry with line := line })

/-- The entry made of one line, starting from a fresh one. -/
def parsed (z : ZoneRule) (now : Int) (line : List Byte) : Entry :=
  inputLogreadParseLine z now (cstr line) Entry.init

/-- One round of reading a file line by line, a fresh entry for each line. -/
def readBody (z : ZoneRule) (now : Int) (s : List Byte × List Entry) :
    Pass (List Byte × List Entry) (List Entry) :=
  match inputLogread z now s.1 Entry.init with
  | (.success, entry, stream) => .again (stream, s.2 ++ [entry])
  | _ => .leave s.2

/-- The entries of a file, read until `input_logread` returns eof. -/
def readAll (z : ZoneRule) (now : Int) (stream : List Byte) : Option (List Entry) :=
  loop (readBody z now) (stream.length + 1) (stream, [])

theorem findNewline_record {w : List Byte} (hw : ∀ b ∈ w, isNewline b = false) {d : Byte}
    (hd : isNewline d = true) (bs : List Byte) :
    findNewline (w ++ d :: bs) = (w.length + 1, true) := by
  induction w with
  | nil => simp [findNewline, hd]
  | cons b w ih =>
    have hb := hw b (by simp)
    have htail := ih (fun c hc => hw c (by simp [hc]))
    simp [findNewline, hb, htail]

theorem findNewline_plain {w : List Byte} (hw : ∀ b ∈ w, isNewline b = false) :
    findNewline w = (w.length, false) := by
  induction w with
  | nil => rfl
  | cons b w ih =>
    have hb := hw b (by simp)
    have htail := ih (fun c hc => hw c (by simp [hc]))
    simp [findNewline, hb, htail]

/-- A buffer either starts with a line or holds no newline. -/
theorem line_or_plain (buf : List Byte) :
    (∃ w d bs, buf = w ++ d :: bs ∧ (∀ b ∈ w, isNewline b = false) ∧ isNewline d = true) ∨
      ∀ b ∈ buf, isNewline b = false := by
  induction buf with
  | nil => exact Or.inr (by simp)
  | cons b buf ih =>
    cases hb : isNewline b with
    | true => exact Or.inl ⟨[], b, buf, rfl, by simp, hb⟩
    | false =>
      rcases ih with ⟨w, d, bs, rfl, hw, hd⟩ | hplain
      · refine Or.inl ⟨b :: w, d, bs, rfl, ?_, hd⟩
        intro c hc
        rcases List.mem_cons.mp hc with rfl | hc
        · exact hb
        · exact hw c hc
      · refine Or.inr ?_
        intro c hc
        rcases List.mem_cons.mp hc with rfl | hc
        · exact hb
        · exact hplain c hc

/-- With a newline in the buffer the pending text and the first line are parsed. -/
theorem inputLogread20_success (z : ZoneRule) (now : Int) {w : List Byte}
    (hw : ∀ b ∈ w, isNewline b = false) {d : Byte} (hd : isNewline d = true) (bs : List Byte)
    (entry : Entry) :
    inputLogread20 z now (w ++ d :: bs) entry =
      (.success, w.length + 1,
        inputLogreadParseLine z now (cstr (cstr entry.line ++ (w ++ [d]))) entry) := by
  have htake : (w ++ d :: bs).take (w.length + 1) = w ++ [d] := by
    rw [List.take_append, List.take_of_length_le (by omega)]
    simp
  simp only [inputLogread20, findNewline_record hw hd, take_strlen, htake, if_true]

/-- Without one the whole buffer joins the pending text. -/
theorem inputLogread20_continue (z : ZoneRule) (now : Int) {buf : List Byte}
    (h : ∀ b ∈ buf, isNewline b = false) (entry : Entry) :
    inputLogread20 z now buf entry =
      (.continue, buf.length, { entry with line := cstr entry.line ++ buf }) := by
  simp only [inputLogread20, findNewline_plain h, take_strlen, List.take_length,
    Bool.false_eq_true, if_false]

/-- The stored line and an unset timestamp are all a parse reads of its entry. -/
theorem parseLine_fresh (z : ZoneRule) (now : Int) (line : List Byte) {entry : Entry}
    (h : entry.timestamp = none) :
    inputLogreadParseLine z now line entry = inputLogreadParseLine z now line Entry.init := by
  cases entry with
  | mk timestamp old =>
    simp only at h
    subst h
    simp only [inputLogreadParseLine, storeLine, Entry.init]

theorem getline_record {w : List Byte} (hw : ∀ b ∈ w, isNewline b = false) {d : Byte}
    (hd : isNewline d = true) (bs : List Byte) : getline (w ++ d :: bs) = some (w ++ [d], bs) := by
  induction w with
  | nil => simp [getline, hd]
  | cons b w ih =>
    have hb := hw b (by simp)
    have htail := ih (fun c hc => hw c (by simp [hc]))
    simp [getline, hb, htail]

theorem getline_plain {w : List Byte} (hw : ∀ b ∈ w, isNewline b = false) (hne : w ≠ []) :
    getline w = some (w, []) := by
  induction w with
  | nil => exact absurd rfl hne
  | cons b w ih =>
    have hb := hw b (by simp)
    cases w with
    | nil => simp [getline, hb]
    | cons c w =>
      have htail := ih (fun c hc => hw c (by simp [hc])) (by simp)
      simp only [getline, hb, Bool.false_eq_true, if_false] at htail ⊢
      rw [htail]

/-- The line reader returns each line of the file, then eof. -/
theorem readAll_lines (z : ZoneRule) (now : Int) (stream : List Byte) :
    readAll z now stream = some ((Framing.lines isNewline stream).map (parsed z now)) := by
  obtain ⟨r, hr, hpost⟩ := loop_correct (readBody z now)
    (fun s => s.2 ++ (Framing.lines isNewline s.1).map (parsed z now) =
      (Framing.lines isNewline stream).map (parsed z now))
    (fun r => r = (Framing.lines isNewline stream).map (parsed z now))
    (fun s => s.1.length)
    (by
      intro ⟨buf, acc⟩ s' hinv hbody
      rcases line_or_plain buf with ⟨w, d, bs, rfl, hw, hd⟩ | hplain
      · simp only [readBody, inputLogread, getline_record hw hd, Pass.again.injEq] at hbody
        subst hbody
        rw [Framing.lines_record hw hd, List.map_cons] at hinv
        refine ⟨by simpa [parsed] using hinv, ?_⟩
        simp only [List.length_append, List.length_cons]
        omega
      · by_cases hne : buf = []
        · subst hne
          simp [readBody, inputLogread, getline] at hbody
        · simp only [readBody, inputLogread, getline_plain hplain hne, Pass.again.injEq] at hbody
          subst hbody
          rw [Framing.lines_plain hplain hne] at hinv
          exact ⟨by simpa [parsed] using hinv, List.length_pos_iff.mpr hne⟩)
    (by
      intro ⟨buf, acc⟩ r hinv hbody
      by_cases hne : buf = []
      · subst hne
        simp only [readBody, inputLogread, getline, Pass.leave.injEq] at hbody
        subst hbody
        simpa using hinv
      · rcases line_or_plain buf with ⟨w, d, bs, rfl, hw, hd⟩ | hplain
        · simp [readBody, inputLogread, getline_record hw hd] at hbody
        · simp [readBody, inputLogread, getline_plain hplain hne] at hbody)
    (stream.length + 1) (stream, []) (by simp) (by simp)
  rw [readAll, hr, hpost]

end Lokicat.InputLogread

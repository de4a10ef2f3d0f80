import Lokicat.Bytes
import Lokicat.Message

/-!
# No access outside a buffer

Every function of the byte model succeeds on the buffers it is given and computes
what the function on values computes. A string at an index of a buffer ends in a NUL
inside the buffer, which is why no loop runs off its end; the room in the batch is
why no store does.
-/

namespace Lokicat.ByteSafety

open Buffers Bytes CString InputLogread LocalTime Logproto MainLoop Message Strptime

/-- The buffer holds this string at an index, with its terminator. -/
structure StringAt (buf : Buffer Byte) (i : Nat) (s : List Byte) : Prop where
  nulFree : NulFree s
  split : ∃ front d back, buf = full front ++ full s ++ some d :: full back ∧ front.length = i ∧
    isNul d = true

/-- A stored line: its bytes and the terminator. -/
def stored (line : List Byte) : Buffer Byte := full (line ++ [0])

theorem stringAt_stored (line : List Byte) : StringAt (stored line) 0 (cstr line) := by
  have hsplit : cstr line ++ line.dropWhile (fun b => !isNul b) = line :=
    List.takeWhile_append_dropWhile
  obtain ⟨d, back, hstored, hd⟩ : ∃ d back, line ++ [0] = cstr line ++ d :: back ∧
      isNul d = true := by
    cases hrest : line.dropWhile (fun b => !isNul b) with
    | nil =>
      rw [hrest, List.append_nil] at hsplit
      exact ⟨0, [], by rw [hsplit], rfl⟩
    | cons d back =>
      refine ⟨d, back ++ [0], ?_, ?_⟩
      · conv_lhs => rw [← hsplit, hrest]
        rw [List.append_assoc, List.cons_append]
      · have hhead := List.head?_dropWhile_not (fun b => !isNul b) line
        rw [hrest] at hhead
        simpa using hhead
  refine ⟨Framing.visible_free isNul line, [], d, back, ?_, rfl, hd⟩
  rw [stored, hstored, full_append, full_cons, full_nil, List.nil_append]

theorem trimTrailing_le (s : List Byte) (n : Nat) : Util.trimTrailing s n ≤ n := by
  induction n with
  | zero => simp [Util.trimTrailing]
  | succ n ih =>
    rw [Util.trimTrailing]
    split <;> omega

theorem trimWhitespace_length (s : List Byte) :
    (Util.trimWhitespace s).2 ≤ (Util.trimWhitespace s).1.length := by
  simp only [Util.trimWhitespace]
  split
  · exact le_refl _
  · exact trimTrailing_le _ _

section Strings

variable {buf : Buffer Byte} {i : Nat} {s : List Byte}

theorem stringAt_suffix {p : List Byte} (h : StringAt buf i (p ++ s)) :
    StringAt buf (i + p.length) s := by
  obtain ⟨hfree, front, d, back, rfl, rfl, hd⟩ := h
  refine ⟨fun b hb => hfree b (List.mem_append_right p hb), front ++ p, d, back, ?_, by simp, hd⟩
  simp only [full_append, List.append_assoc]

theorem strlen_stringAt (h : StringAt buf i s) : Bytes.strlen buf i = some s.length := by
  obtain ⟨hfree, front, d, back, rfl, rfl, hd⟩ := h
  have hdrop : (full front ++ full s ++ some d :: full back).drop front.length =
      full s ++ some d :: full back := by
    rw [List.append_assoc, ← full_length front, List.drop_left]
  rw [Bytes.strlen, hdrop]
  exact countWhile_stop (fun b hb => by simp [notNul, hfree b hb]) (by simp [notNul, hd]) _

theorem string_stringAt (h : StringAt buf i s) : Bytes.string buf i = some s := by
  rw [Bytes.string, strlen_stringAt h, Option.bind_eq_bind, Option.bind_some]
  obtain ⟨-, front, d, back, rfl, rfl, -⟩ := h
  rw [← full_length front]
  exact readMany_gap (full front) _ s

theorem read_stringAt (h : StringAt buf i s) {k : Nat} (hk : k < s.length) :
    read buf (i + k) = some s[k] := by
  obtain ⟨-, front, d, back, rfl, rfl, -⟩ := h
  have hlt : front.length + k < (front ++ s).length := by
    rw [List.length_append]
    omega
  rw [← full_append, read_full_append hlt]
  simp

theorem read_terminator (h : StringAt buf i s) :
    ∃ d, read buf (i + s.length) = some d ∧ isNul d = true := by
  obtain ⟨-, front, d, back, rfl, rfl, hd⟩ := h
  refine ⟨d, ?_, hd⟩
  have hlength : front.length + s.length = (full front ++ full s).length := by simp
  rw [hlength]
  exact read_append _ _ d

/-! ## Trimming and copying -/

theorem trimTrailing_stringAt (h : StringAt buf i s) {n : Nat} (hn : n ≤ s.length) :
    Bytes.trimTrailing buf i n = some (Util.trimTrailing s n) := by
  induction n with
  | zero => rfl
  | succ n ih =>
    have hlt : n < s.length := by omega
    have hget : s.getD n 0 = s[n] := by simp [hlt]
    simp only [Bytes.trimTrailing, Util.trimTrailing, read_stringAt h hlt, hget,
      Option.bind_eq_bind, Option.bind_some]
    by_cases hpos : 0 < n
    · by_cases hspace : isspace s[n] = true
      · simp only [hpos, hspace, if_true, and_self]
        exact ih (by omega)
      · simp only [hpos, hspace, if_true, and_false, if_false, Bool.false_eq_true]
    · simp only [hpos, false_and, if_false]

/-- Trimming moves the index behind the leading white space. -/
theorem trimWhitespace_stringAt (h : StringAt buf i s) :
    ∃ j, Bytes.trimWhitespace buf i = some (j, (Util.trimWhitespace s).2) ∧
      StringAt buf j (Util.trimWhitespace s).1 := by
  have hsplit : s.takeWhile isspace ++ s.dropWhile isspace = s := List.takeWhile_append_dropWhile
  have hrest : StringAt buf (i + (s.takeWhile isspace).length) (s.dropWhile isspace) :=
    stringAt_suffix (by rwa [hsplit])
  -- The leading loop stops at the first other byte, or at the terminator.
  have hcount : countWhile isspace (buf.drop i) = some (s.takeWhile isspace).length := by
    have hspaces : ∀ b ∈ s.takeWhile isspace, isspace b = true :=
      fun b hb => List.mem_takeWhile_imp hb
    obtain ⟨-, front, d, back, rfl, rfl, hd⟩ := h
    rw [List.append_assoc, ← full_length front, List.drop_left]
    cases htail : s.dropWhile isspace with
    | nil =>
      rw [htail, List.append_nil] at hsplit
      have hstop : isspace d = false := by
        rw [isNul, beq_iff_eq] at hd
        subst hd
        rfl
      rw [hsplit] at hspaces ⊢
      exact countWhile_stop hspaces hstop _
    | cons b bs =>
      have hstop : isspace b = false := by
        have hhead := List.head?_dropWhile_not isspace s
        rw [htail] at hhead
        simpa using hhead
      have hfull : full s ++ some d :: full back =
          full (s.takeWhile isspace) ++ some b :: (full bs ++ some d :: full back) := by
        conv_lhs => rw [← hsplit, htail]
        rw [full_append, full_cons, List.append_assoc, List.cons_append]
      rw [hfull]
      exact countWhile_stop hspaces hstop _
  simp only [Bytes.trimWhitespace, hcount, strlen_stringAt hrest, Option.bind_eq_bind,
    Option.bind_some]
  by_cases hempty : s.dropWhile isspace = []
  · obtain ⟨d, hread, hd⟩ := read_terminator hrest
    rw [hempty, List.length_nil, Nat.add_zero] at hread
    refine ⟨i + (s.takeWhile isspace).length, ?_, ?_⟩
    · simp only [hread, hd, Util.trimWhitespace, hempty, Option.bind_some, if_true]
    · simpa only [Util.trimWhitespace, hempty, if_true] using hrest
  · have hpos : 0 < (s.dropWhile isspace).length := List.length_pos_iff.mpr hempty
    have hread := read_stringAt hrest hpos
    have hfirst : isNul (s.dropWhile isspace)[0] = false :=
      hrest.nulFree _ (List.getElem_mem hpos)
    rw [Nat.add_zero] at hread
    refine ⟨i + (s.takeWhile isspace).length, ?_, ?_⟩
    · simp only [hread, hfirst, trimTrailing_stringAt hrest (le_refl _), Util.trimWhitespace,
        hempty, Option.bind_some, Bool.false_eq_true, if_false]
    · simpa only [Util.trimWhitespace, hempty, if_false] using hrest

/-- Copying bytes of a string that are all there fills a gap with them. -/
theorem strncpy_stringAt (h : StringAt buf i s) (front gap back : Buffer Byte)
    (hgap : gap.length ≤ s.length) :
    Bytes.strncpy (front ++ gap ++ back) front.length buf i gap.length =
      some (front ++ full (s.take gap.length) ++ back) := by
  induction gap generalizing front i s with
  | nil => rfl
  | cons c gap ih =>
    cases s with
    | nil => simp at hgap
    | cons b s =>
      have hread : read buf i = some b := read_stringAt h (k := 0) (by simp)
      have hb : isNul b = false := h.nulFree b (by simp)
      have hwrite : write (front ++ c :: gap ++ back) front.length b =
          some (front ++ some b :: gap ++ back) := by
        rw [List.append_assoc, List.cons_append, write_append, List.append_assoc,
          List.cons_append]
      have htail := ih (stringAt_suffix (p := [b]) h) (front ++ [some b]) (by simpa using hgap)
      simp only [List.length_append, List.length_singleton, List.append_assoc,
        List.singleton_append] at htail
      simp only [List.length_cons, Bytes.strncpy, hread, hwrite, hb, Option.bind_eq_bind,
        Option.bind_some, Bool.false_eq_true, if_false, List.take_succ_cons]
      simpa only [full_cons, List.append_assoc, List.cons_append] using htail

/-- The copy that is stored is the trimmed text and its terminator. -/
theorem storeLine_stringAt (h : StringAt buf i s) (entry : RawEntry) :
    Bytes.storeLine buf i entry =
      some { entry with
        line := stored (Util.strncpy (Util.trimWhitespace s).1 (Util.trimWhitespace s).2) } := by
  obtain ⟨j, htrim, hj⟩ := trimWhitespace_stringAt h
  generalize hlength : (Util.trimWhitespace s).2 = n at htrim
  have hn : n ≤ (Util.trimWhitespace s).1.length := hlength ▸ trimWhitespace_length s
  have hcopy := strncpy_stringAt hj [] (malloc n) [none] (by simpa using hn)
  have hwrite := write_append (full ((Util.trimWhitespace s).1.take n)) [] none (0 : Byte)
  simp only [malloc_length, List.nil_append, List.length_nil] at hcopy
  rw [full_length, List.length_take, Nat.min_eq_left hn] at hwrite
  simp only [Bytes.storeLine, htrim, malloc_succ, hcopy, hwrite, Option.bind_eq_bind,
    Option.bind_some, Util.strncpy, stored, full_append]
  rfl

end Strings

/-! ## Parsing and reading -/

/-- An entry with its line as a buffer. -/
def raw (entry : Entry) : RawEntry := ⟨entry.timestamp, stored entry.line⟩

theorem raw_init : raw Entry.init = RawEntry.init := rfl

/-- A parse stays inside the line. -/
theorem parseLine_stored (z : ZoneRule) (now : Int) (line : List Byte) (entry : Entry) :
    Bytes.inputLogreadParseLine z now (stored line) (raw entry) =
      some (raw (InputLogread.inputLogreadParseLine z now (cstr line) entry)) := by
  have hline := stringAt_stored line
  have hafter : ∀ res, res <:+ cstr line →
      StringAt (stored line) ((cstr line).length - res.length) res := by
    rintro res ⟨p, hp⟩
    have hlength : (cstr line).length - res.length = 0 + p.length := by
      rw [← hp, List.length_append]
      omega
    rw [hlength]
    exact stringAt_suffix (hp ▸ hline)
  simp only [Bytes.inputLogreadParseLine, InputLogread.inputLogreadParseLine,
    string_stringAt hline, Option.bind_eq_bind, Option.bind_some]
  cases hopenwrt : (strptime (cstr line) openwrtFormat Tm.zero).1 with
  | some res => exact storeLine_stringAt (hafter res (strptime_suffix hopenwrt)) _
  | none =>
    cases hjournalctl : (strptime (cstr line) journalctlFormat
        (strptime (cstr line) openwrtFormat Tm.zero).2).1 with
    | some res => exact storeLine_stringAt (hafter res (strptime_suffix hjournalctl)) _
    | none => exact storeLine_stringAt hline _

/-- The search for a newline reads no further than the chunk. -/
theorem findNewline_chunk (front bytes : List Byte) (back : Buffer Byte) :
    Bytes.findNewline (full front ++ full bytes ++ back) front.length bytes.length =
      some (InputLogread.findNewline bytes) := by
  induction bytes generalizing front with
  | nil => rfl
  | cons b bytes ih =>
    have hread : read (full front ++ full (b :: bytes) ++ back) front.length = some b := by
      rw [full_cons, List.append_assoc, List.cons_append, ← full_length front]
      exact read_append _ _ b
    have htail := ih (front ++ [b])
    simp only [full_append, List.append_assoc, List.length_append, List.length_singleton] at htail
    have hsame : full front ++ full (b :: bytes) ++ back =
        full front ++ (full [b] ++ (full bytes ++ back)) := by
      simp [full]
    simp only [List.length_cons, Bytes.findNewline, hread, InputLogread.findNewline,
      Option.bind_eq_bind, Option.bind_some]
    cases isNewline b with
    | true => rfl
    | false =>
      rw [hsame, htail]
      rfl

theorem findNewline_le (bytes : List Byte) :
    (InputLogread.findNewline bytes).1 ≤ bytes.length := by
  rcases line_or_plain bytes with ⟨w, d, bs, rfl, hw, hd⟩ | hplain
  · rw [findNewline_record hw hd]
    simp
  · rw [findNewline_plain hplain]

/-- The new line buffer takes the old text, the bytes and a terminator, and no more. -/
theorem inputLogread20_chunk (z : ZoneRule) (now : Int) (front bytes : List Byte)
    (back : Buffer Byte) (entry : Entry) :
    Bytes.inputLogread20 z now (full front ++ full bytes ++ back) front.length bytes.length
        (raw entry) =
      some ((InputLogread.inputLogread20 z now bytes entry).1,
        (InputLogread.inputLogread20 z now bytes entry).2.1,
        raw (InputLogread.inputLogread20 z now bytes entry).2.2) := by
  have hbefore := stringAt_stored entry.line
  have hi := findNewline_le bytes
  have hfind := findNewline_chunk front bytes back
  simp only [InputLogread.inputLogread20, take_strlen]
  generalize InputLogread.findNewline bytes = found at hi hfind
  obtain ⟨i, newline⟩ := found
  have hstrlen := strlen_stringAt hbefore
  obtain ⟨-, nothing, d, rest, hstored, hnothing, -⟩ := hbefore
  rw [List.length_eq_zero_iff.mp hnothing, full_nil, List.nil_append] at hstored
  generalize cstr entry.line = text at hstrlen hstored ⊢
  -- The terminator, the old text and the bytes go to cells of their own.
  have hend : write (malloc (text.length + i + 1)) (text.length + i + 1 - 1) (0 : Byte) =
      some (malloc text.length ++ malloc i ++ [some 0]) := by
    have hwrite := write_append (malloc (text.length + i)) [] none (0 : Byte)
    rw [malloc_length] at hwrite
    rw [malloc_succ, Nat.add_sub_cancel, hwrite, malloc_add]
  have hold : memcpy (malloc text.length ++ malloc i ++ [some 0]) 0 (stored entry.line) 0
      text.length = some (full text ++ (malloc i ++ [some 0])) := by
    have hcopy := memcpy_gap [] (malloc i ++ [some 0]) [] (some d :: full rest)
      (malloc_length text.length)
    rw [hstored]
    simpa using hcopy
  have hnew : memcpy (full text ++ (malloc i ++ [some 0])) text.length
      (full front ++ full bytes ++ back) front.length i = some (stored (text ++ bytes.take i)) := by
    have hlength : (malloc i : Buffer Byte).length = (bytes.take i).length := by simpa using hi
    have hcopy := memcpy_gap (full text) [some 0] (full front) (full (bytes.drop i) ++ back) hlength
    have hbytes : full bytes = full (bytes.take i) ++ full (bytes.drop i) := by
      rw [← full_append, List.take_append_drop]
    rw [← hlength, malloc_length, full_length, full_length] at hcopy
    rw [hbytes, stored, full_append, full_append, full_cons, full_nil]
    simpa only [List.append_assoc] using hcopy
  simp only [Bytes.inputLogread20, hfind, raw, hstrlen, hend, hold, hnew, Option.bind_eq_bind,
    Option.bind_some]
  cases newline with
  | true =>
    have hparse := parseLine_stored z now (text ++ bytes.take i) entry
    rw [raw] at hparse
    simp only [hparse, if_true, Option.bind_some]
    rfl
  | false => rfl

end Lokicat.ByteSafety

import Lokicat.Memory
import Lokicat.Message
import Mathlib.Algebra.Order.BigOperators.Group.List
import Mathlib.Data.Multiset.OrderedMonoid

/-!
# What each function does to the blocks

A `Held` is an entry with the blocks its pointers lead to. Every function of the
memory model keeps the blocks of the entries it is given in that form, computes the
same values as the function on values, and never fails. One block can get lost: the
old text of an entry that `input_logread20` replaces without freeing it.
-/

namespace Lokicat.Footprint

open CString Heaps InputLogread LocalTime Logproto MainLoop Memory Message Strptime Util

/-- An entry block, its timestamp and its line, as far as it has them. -/
structure Held where
  address : Nat
  timestamp : Option (Nat × Timestamp)
  line : Option (Nat × List Byte)

def Held.fresh (a : Nat) : Held := ⟨a, none, none⟩

def Held.block (x : Held) : EntryBlock where
  timestamp := x.timestamp.elim .null fun t => .block t.1
  line := x.line.elim .emptyString fun l => .block l.1

/-- The blocks of an entry. -/
def Held.cells (x : Held) : Multiset (Nat × Block) :=
  {(x.address, .entry x.block)} + x.timestamp.elim 0 (fun t => {(t.1, .timestamp t.2)}) +
    x.line.elim 0 fun l => {(l.1, .text l.2)}

def Held.value (x : Held) : Entry := ⟨x.timestamp.map Prod.snd, x.line.elim [] Prod.snd⟩

/-- The block that is lost when the line of the entry is replaced. -/
def Held.orphan (x : Held) : Multiset (Nat × Block) :=
  x.line.elim 0 fun l => if cstr l.2 = [] then {(l.1, .text l.2)} else 0

theorem entry_mem (x : Held) : (x.address, .entry x.block) ∈ x.cells := by
  simp [Held.cells]

theorem timestamp_mem {x : Held} {t : Nat × Timestamp} (h : x.timestamp = some t) :
    (t.1, .timestamp t.2) ∈ x.cells := by
  simp [Held.cells, h]

theorem line_mem {x : Held} {l : Nat × List Byte} (h : x.line = some l) :
    (l.1, .text l.2) ∈ x.cells := by
  simp [Held.cells, h]

variable {m : Multiset (Nat × Block)}

theorem ends_entryAt {a : Nat} {e : EntryBlock} (h : (a, .entry e) ∈ m) :
    Ends (entryAt a) m e m :=
  runs_then (ends_load h) (ends_pure e m)

theorem ends_timestampAt (x : Held) (h : x.cells ≤ m) :
    Ends (timestampAt x.block.timestamp) m x.value.timestamp m := by
  cases htimestamp : x.timestamp with
  | none =>
    simp only [Held.block, Held.value, htimestamp]
    exact ends_pure _ m
  | some t =>
    have hmem := Multiset.mem_of_le h (timestamp_mem htimestamp)
    simp only [Held.block, Held.value, htimestamp]
    exact runs_then (ends_load hmem) (ends_pure _ m)

theorem ends_stringAt (x : Held) (h : x.cells ≤ m) :
    Ends (stringAt x.block.line) m (cstr x.value.line) m := by
  cases hline : x.line with
  | none =>
    simp only [Held.block, Held.value, hline]
    exact ends_pure _ m
  | some l =>
    have hmem := Multiset.mem_of_le h (line_mem hline)
    simp only [Held.block, Held.value, hline]
    exact runs_then (ends_load hmem) (ends_pure _ m)

theorem ends_setTimestamp (a : Nat) (e : EntryBlock) (p : Pointer) (m : Multiset (Nat × Block)) :
    Ends (setTimestamp a p) (m + {(a, .entry e)}) ()
      (m + {(a, .entry { e with timestamp := p })}) :=
  runs_then (ends_entryAt (by simp)) (ends_store _ rfl)

theorem ends_setLine (a : Nat) (e : EntryBlock) (p : Pointer) (m : Multiset (Nat × Block)) :
    Ends (setLine a p) (m + {(a, .entry e)}) () (m + {(a, .entry { e with line := p })}) :=
  runs_then (ends_entryAt (by simp)) (ends_store _ rfl)

theorem runs_newEntry (m : Multiset (Nat × Block)) :
    Runs newEntry m (fun a m' => m' = m + (Held.fresh a).cells) := runs_alloc _ m

/-! ## Parsing -/

/-- A fresh block that a pointer of another block is set to. -/
theorem runs_attach {a : Nat} {old b : Block} {new : Nat → Block} {set : Nat → Prog Block Unit}
    (hset : ∀ c m, Ends (set c) (m + {(a, old)}) () (m + {(a, new c)}))
    (m : Multiset (Nat × Block)) :
    Runs (alloc b >>= set) (m + {(a, old)}) fun _ m' => ∃ c, m' = m + {(c, b)} + {(a, new c)} := by
  refine runs_bind (runs_alloc b _) ?_
  rintro c _ rfl
  rw [add_right_comm]
  refine runs_mono (hset c _) ?_
  rintro _ _ ⟨-, rfl⟩
  exact ⟨c, rfl⟩

theorem runs_stamp (seconds : Int) (a : Nat) (e : EntryBlock) (m : Multiset (Nat × Block)) :
    Runs (stamp seconds a) (m + {(a, .entry e)}) fun _ m' => ∃ t,
      m' = m + {(t, .timestamp { Timestamp.init with seconds := seconds })} +
        {(a, .entry { e with timestamp := .block t })} :=
  runs_attach (fun t => ends_setTimestamp a e (.block t)) m

theorem runs_storeLine (res : List Byte) (a : Nat) (e : EntryBlock) (m : Multiset (Nat × Block)) :
    Runs (Memory.storeLine res a) (m + {(a, .entry e)}) fun _ m' => ∃ l,
      m' = m + {(l, .text (trim res))} + {(a, .entry { e with line := .block l })} := by
  rw [← strncpy_trimWhitespace]
  exact runs_attach (fun l => ends_setLine a e (.block l)) m

/-- A parse gives an unstamped entry a line, and a timestamp if the line has a date. What the
line pointed to does not matter: it may be freed already. -/
theorem runs_parseLine (z : ZoneRule) (now : Int) {l a : Nat} {text : List Byte} {p : Pointer}
    {entry : Entry} (hentry : entry.timestamp = none) (hl : (l, .text text) ∈ m) :
    Runs (Memory.inputLogreadParseLine z now (.block l) a)
      (m + {(a, .entry ⟨.null, p⟩)}) fun _ m' => ∃ x : Held, m' = m + x.cells ∧ x.address = a ∧
        x.line ≠ none ∧ x.value = InputLogread.inputLogreadParseLine z now (cstr text) entry := by
  have hread : Ends (stringAt (.block l)) (m + {(a, .entry ⟨.null, p⟩)}) (cstr text)
      (m + {(a, .entry ⟨.null, p⟩)}) :=
    runs_then (ends_load (Multiset.mem_add.mpr (.inl hl))) (ends_pure _ _)
  have hstamped : ∀ seconds res, Runs
      (do stamp seconds a; Memory.storeLine res a : Prog Block Unit)
      (m + {(a, .entry ⟨.null, p⟩)}) fun _ m' => ∃ x : Held, m' = m + x.cells ∧ x.address = a ∧
        x.line ≠ none ∧ x.value = ⟨some { Timestamp.init with seconds := seconds }, trim res⟩ := by
    intro seconds res
    refine runs_bind (runs_stamp seconds a _ m) ?_
    rintro _ _ ⟨t, rfl⟩
    refine runs_mono (runs_storeLine res a _ _) ?_
    rintro _ _ ⟨l', rfl⟩
    refine ⟨⟨a, some (t, _), some (l', trim res)⟩, ?_, rfl, by simp, rfl⟩
    simp only [Held.cells, Held.block, Option.elim_some]
    abel
  have hunstamped : ∀ res, Runs (Memory.storeLine res a) (m + {(a, .entry ⟨.null, p⟩)})
      fun _ m' => ∃ x : Held, m' = m + x.cells ∧ x.address = a ∧ x.line ≠ none ∧
        x.value = ⟨none, trim res⟩ := by
    intro res
    refine runs_mono (runs_storeLine res a _ m) ?_
    rintro _ _ ⟨l', rfl⟩
    refine ⟨⟨a, none, some (l', trim res)⟩, ?_, rfl, by simp, rfl⟩
    simp only [Held.cells, Held.block, Option.elim_some, Option.elim_none]
    abel
  refine runs_then hread ?_
  simp only [InputLogread.inputLogreadParseLine, InputLogread.storeLine, strncpy_trimWhitespace,
    hentry]
  cases (strptime (cstr text) openwrtFormat Tm.zero).1 with
  | some res => exact hstamped _ res
  | none =>
    cases (strptime (cstr text) journalctlFormat
        (strptime (cstr text) openwrtFormat Tm.zero).2).1 with
    | some res => exact hstamped _ res
    | none => exact hunstamped _

/-! ## Reading -/

theorem cells_unstamped {x : Held} (h : x.timestamp = none) :
    x.cells = {(x.address, .entry x.block)} + x.line.elim 0 fun l => {(l.1, .text l.2)} := by
  rw [Held.cells, h, Option.elim_none, add_zero]

/-- The old line is freed, or it is lost, or there is none. -/
theorem ends_freeOld {x : Held} (h : x.timestamp = none) (m : Multiset (Nat × Block)) :
    Ends (freeIf (0 < (cstr x.value.line).length) x.block.line) (m + x.cells) ()
      (m + x.orphan + {(x.address, .entry x.block)}) := by
  rw [cells_unstamped h]
  cases hline : x.line with
  | none =>
    simp only [Held.value, Held.orphan, hline, Option.elim_none, cstr_nil, List.length_nil,
      add_zero]
    exact ends_pure () _
  | some l =>
    simp only [Held.value, Held.orphan, hline, Option.elim_some, List.length_pos_iff]
    by_cases hempty : cstr l.2 = []
    · simp only [hempty, if_true]
      rw [← add_assoc, add_right_comm]
      exact ends_pure () _
    · have hpointer : x.block.line = .block l.1 := by simp [Held.block, hline]
      have hfree : freeIf (decide (cstr l.2 ≠ [])) (.block l.1) = free l.1 :=
        if_pos (by simp [hempty])
      rw [hpointer, hfree, if_neg hempty, add_zero]
      exact ends_free (add_assoc m _ _).symm

/-- One call has the status and the count of the function on values, and the entry has its
value; of the old line nothing is left in use but what is lost. -/
theorem runs_inputLogread20 (z : ZoneRule) (now : Int) (buf : List Byte) {x : Held}
    (h : x.timestamp = none) (m : Multiset (Nat × Block)) :
    Runs (Memory.inputLogread20 z now buf x.address) (m + x.cells) fun r m' =>
      ∃ x' : Held, InputLogread.inputLogread20 z now buf x.value = (r.1, r.2, x'.value) ∧
        m' = m + x.orphan + x'.cells ∧ x'.address = x.address ∧ x'.line ≠ none ∧
        (r.1 = .continue → x'.timestamp = none) := by
  have hcells : x.cells ≤ m + x.cells := Multiset.le_add_left _ _
  refine runs_then (ends_entryAt (Multiset.mem_of_le hcells (entry_mem x))) ?_
  refine runs_then (ends_stringAt x hcells) ?_
  refine runs_bind (runs_alloc _ _) ?_
  rintro l _ rfl
  generalize hline : cstr x.value.line ++ buf.take (findNewline buf).1 = line
  rw [add_right_comm]
  refine runs_then (ends_freeOld h _) ?_
  have hblock : x.block = ⟨.null, x.block.line⟩ := by simp [Held.block, h]
  have htimestamp : x.value.timestamp = none := by simp [Held.value, h]
  have hfresh : (l, Block.text line) ∈ m + {(l, .text line)} + x.orphan := by simp
  simp only [InputLogread.inputLogread20, take_strlen, hline]
  cases (findNewline buf).2 with
  | true =>
    rw [hblock]
    refine runs_bind (runs_parseLine z now htimestamp hfresh) ?_
    rintro _ _ ⟨x', rfl, haddress, hline, hvalue⟩
    refine runs_then (ends_free (m := m + x.orphan + x'.cells) (b := Block.text line) ?_) ?_
    · abel
    · exact runs_pure ⟨x', by rw [hvalue]; rfl, rfl, haddress, hline, by simp⟩
  | false =>
    refine runs_then (ends_setLine x.address x.block (.block l) _) ?_
    refine runs_pure ⟨⟨x.address, none, some (l, line)⟩, ?_, ?_, rfl, by simp, by simp⟩
    · simp only [Held.value, h]
      rfl
    · simp only [Held.cells, Held.block, h, Option.elim_some, Option.elim_none]
      abel

/-! ## Sending and freeing a batch -/

/-- An entry that has been parsed: its line is a block of its own and holds no NUL. -/
structure Held.Parsed (x : Held) : Prop where
  line : x.line ≠ none
  text : NulFree x.value.line

/-- A call completes a line, which then holds no NUL, or keeps a text that is not empty. -/
theorem inputLogread20_cases {z : ZoneRule} {now : Int} {buf : List Byte} (hne : buf ≠ [])
    {entry e : Entry} {status : InputStatus} {n : Nat}
    (h : InputLogread.inputLogread20 z now buf entry = (status, n, e)) :
    (status = .success ∧ NulFree e.line) ∨ (status = .continue ∧ e.line ≠ []) := by
  rcases line_or_plain buf with ⟨w, d, bs, rfl, hw, hd⟩ | hplain
  · rw [inputLogread20_success z now hw hd] at h
    cases h
    exact .inl ⟨rfl, parse_nulFree z now (Framing.visible_free isNul _) entry⟩
  · rw [inputLogread20_continue z now hplain] at h
    cases h
    exact .inr ⟨rfl, by simp [hne]⟩

theorem ends_freeTimestamp (x : Held) (m : Multiset (Nat × Block)) :
    Ends (freeIf (x.block.timestamp ≠ .null) x.block.timestamp)
      (m + x.timestamp.elim 0 fun t => {(t.1, .timestamp t.2)}) () m := by
  obtain ⟨a, timestamp, line⟩ := x
  cases timestamp with
  | none =>
    rw [Option.elim_none, add_zero]
    exact ends_pure () m
  | some t => exact ends_free rfl

theorem ends_freeLine {x : Held} (h : x.line ≠ none) (m : Multiset (Nat × Block)) :
    Ends (freeIf (x.block.line ≠ .null) x.block.line)
      (m + x.line.elim 0 fun l => {(l.1, .text l.2)}) () m := by
  obtain ⟨a, timestamp, line⟩ := x
  cases line with
  | none => exact absurd rfl h
  | some l => exact ends_free rfl

/-- A parsed entry is freed with all its blocks. -/
theorem ends_freeEntry {x : Held} (h : x.line ≠ none) (m : Multiset (Nat × Block)) :
    Ends (freeEntry x.address) (x.cells + m) () m := by
  refine runs_then (ends_entryAt (Multiset.mem_add.mpr (.inl (entry_mem x)))) ?_
  have hcells : x.cells + m = m + {(x.address, .entry x.block)} +
      x.line.elim 0 (fun l => {(l.1, .text l.2)}) +
      x.timestamp.elim 0 fun t => {(t.1, .timestamp t.2)} := by
    rw [Held.cells]
    abel
  rw [hcells]
  refine runs_then (ends_freeTimestamp x _) ?_
  refine runs_then (ends_freeLine h _) ?_
  exact ends_free rfl

theorem ends_valueAt {x : Held} (h : NulFree x.value.line) (hle : x.cells ≤ m) :
    Ends (valueAt x.address) m x.value m := by
  refine runs_then (ends_entryAt (Multiset.mem_of_le hle (entry_mem x))) ?_
  refine runs_then (ends_timestampAt x hle) ?_
  refine runs_then (ends_stringAt x hle) ?_
  rw [cstr_eq_self h]
  exact ends_pure _ m

/-- A flush sends the values of the batch and gives all its blocks back. -/
theorem ends_flushPushRequest {v : Vars} {held : List Held} (parsed : ∀ x ∈ held, x.Parsed)
    (hentries : v.entries = held.map Held.address) (m : Multiset (Nat × Block)) :
    Ends (flushPushRequest v) ((held.map Held.cells).sum + m)
      { v with
        entries := []
        timestampOldestEntry := 0
        requests := v.requests ++ [⟨[⟨v.labels, held.map Held.value⟩]⟩] } m := by
  simp only [flushPushRequest, hentries]
  refine runs_then (ends_mapM Held.address Held.value ?_) ?_
  · intro x hx
    have hle : x.cells ≤ (held.map Held.cells).sum :=
      List.le_sum_of_mem (List.mem_map_of_mem hx)
    exact ends_valueAt (parsed x hx).text (hle.trans (Multiset.le_add_right _ _))
  · refine runs_then (ends_forM Held.address Held.cells ?_) (ends_pure _ m)
    intro x hx m
    exact ends_freeEntry (parsed x hx).line m

end Lokicat.Footprint

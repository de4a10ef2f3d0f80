import Lokicat.Footprint

/-!
# Reading a file on the heap (input_logread.c, util.c)

`input_logread` frees the buffer of `getline` on both of its ways out, and
`logproto__entry__free` gives back what a parse has allocated, the entry itself
excepted. A client that reads a file to its end and frees each entry has the entries
of the file and leaves nothing behind. What it may not free is an entry that has not
been filled.
-/

namespace Lokicat.FileReader

open CString Footprint Heaps InputLogread Iteration LocalTime Logproto Memory Message

/-- `getline` with a NULL buffer: the buffer, and the rest of the file unless it has ended.
Some libraries allocate the buffer before they find out that it has. -/
def getline (early : Bool) (stream : List Byte) : Prog Block (Pointer × Option (List Byte)) :=
  match InputLogread.getline stream with
  | some (line, stream) => do
    let a ← alloc (.text line)
    pure (.block a, some stream)
  | none =>
    if early then do
      let a ← alloc (.text [])
      pure (.block a, none)
    else pure (.null, none)

/-- The status and what is left of the file. -/
def inputLogread (early : Bool) (z : ZoneRule) (now : Int) (stream : List Byte) (entry : Nat) :
    Prog Block (InputStatus × List Byte) := do
  let line ← getline early stream
  match line.2 with
  | some stream => do
    Memory.inputLogreadParseLine z now line.1 entry
    freePointer line.1
    pure (.success, stream)
  | none => do
    freePointer line.1
    pure (.eof, stream)

/-- `logproto__entry__free` -/
def entryFree (entry : Nat) : Prog Block Unit := do
  let e ← entryAt entry
  freeIf (e.timestamp ≠ .null) e.timestamp
  freeIf (e.line ≠ .null) e.line

/-- One round of a client: a fresh entry is filled, read and freed. -/
def readBody (early : Bool) (z : ZoneRule) (now : Int) (s : List Byte × List Entry) :
    Prog Block (Pass (List Byte × List Entry) (List Entry)) := do
  let entry ← newEntry
  let r ← inputLogread early z now s.1 entry
  match r.1 with
  | .success => do
    let value ← valueAt entry
    entryFree entry
    free entry
    pure (.again (r.2, s.2 ++ [value]))
  | _ => do
    free entry
    pure (.leave s.2)

/-- The entries of a file. -/
def readAll (early : Bool) (z : ZoneRule) (now : Int) (stream : List Byte) :
    Prog Block (List Entry) :=
  loopM (readBody early z now) (stream.length + 1) (stream, [])

variable {m : Multiset (Nat × Block)}

/-! ## What the functions do to the blocks -/

theorem runs_getline {stream line rest : List Byte}
    (h : InputLogread.getline stream = some (line, rest)) (early : Bool)
    (m : Multiset (Nat × Block)) :
    Runs (getline early stream) m fun r m' =>
      ∃ l, r = (.block l, some rest) ∧ m' = m + {(l, .text line)} := by
  simp only [getline, h]
  apply runs_bind (runs_alloc _ m)
  rintro l _ rfl
  exact runs_pure ⟨l, rfl, rfl⟩

/-- At the end of the file the buffer, if there is one, can be freed. -/
theorem runs_getline_end {stream : List Byte} (h : InputLogread.getline stream = none)
    (early : Bool) (m : Multiset (Nat × Block)) :
    Runs (getline early stream) m fun r m' => r.2 = none ∧ Ends (freePointer r.1) m' () m := by
  simp only [getline, h]
  cases early with
  | true =>
    apply runs_bind (runs_alloc _ m)
    rintro l _ rfl
    exact runs_pure ⟨rfl, ends_free rfl⟩
  | false => exact runs_pure ⟨rfl, ends_pure () m⟩

/-- A line is read into a fresh entry; at the end of the file the entry stays as it is. -/
theorem runs_inputLogread (early : Bool) (z : ZoneRule) (now : Int) (stream : List Byte) (a : Nat)
    (m : Multiset (Nat × Block)) :
    Runs (inputLogread early z now stream a) (m + (Held.fresh a).cells) fun r m' =>
      ∃ x : Held, InputLogread.inputLogread z now stream Entry.init = (r.1, x.value, r.2) ∧
        m' = m + x.cells ∧ x.address = a ∧
        (r.1 = .success ∧ x.Parsed ∨ r.1 = .eof ∧ x = Held.fresh a) := by
  have hfresh : (Held.fresh a).cells = {(a, .entry ⟨.null, .emptyString⟩)} := by
    simp [Held.fresh, Held.cells, Held.block]
  simp only [InputLogread.inputLogread]
  cases hline : InputLogread.getline stream with
  | some r =>
    obtain ⟨line, rest⟩ := r
    apply runs_bind (runs_getline hline early _)
    rintro _ _ ⟨l, rfl, rfl⟩
    rw [hfresh, add_right_comm]
    apply runs_bind (@runs_parseLine _ z now l a line .emptyString Entry.init rfl (by simp))
    rintro _ _ ⟨x, rfl, haddress, hx, hvalue⟩
    apply runs_then (ends_free (m := m + x.cells) (b := Block.text line) (by abel))
    have hparsed : x.Parsed :=
      ⟨hx, by rw [hvalue]; exact parse_nulFree z now (Framing.visible_free isNul line) _⟩
    exact runs_pure ⟨x, by rw [hvalue], rfl, haddress, .inl ⟨rfl, hparsed⟩⟩
  | none =>
    apply runs_bind (runs_getline_end hline early _)
    rintro ⟨line, rest⟩ m' ⟨rfl, hfree⟩
    apply runs_then hfree
    exact runs_pure ⟨Held.fresh a, rfl, rfl, rfl, .inr ⟨rfl, rfl⟩⟩

/-- Of a parsed entry its own block is left. -/
theorem ends_entryFree {x : Held} (h : x.Parsed) (m : Multiset (Nat × Block)) :
    Ends (entryFree x.address) (m + x.cells) () (m + {(x.address, .entry x.block)}) := by
  apply runs_then (ends_entryAt (Multiset.mem_add.mpr (.inr (entry_mem x))))
  have hcells : m + x.cells = m + {(x.address, .entry x.block)} +
      x.line.elim 0 (fun l => {(l.1, .text l.2)}) +
      x.timestamp.elim 0 fun t => {(t.1, .timestamp t.2)} := by
    rw [Held.cells]
    abel
  rw [hcells]
  exact runs_then (ends_freeTimestamp x _) (ends_freeLine h.line _)

/-- An entry that is as it was initialised must not be freed: its line is not on the heap. -/
theorem fails_entryFree (a : Nat) (m : Multiset (Nat × Block)) :
    Fails (entryFree a) (m + (Held.fresh a).cells) := by
  have hentry := entry_mem (Held.fresh a)
  apply fails_bind (ends_entryAt (Multiset.mem_add.mpr (.inr hentry)))
  rintro _ _ ⟨rfl, rfl⟩ h -
  rfl

/-! ## Whole files -/

/-- A round in step with the reader on values. -/
theorem runs_readBody (early : Bool) (z : ZoneRule) (now : Int) (s : List Byte × List Entry)
    (m : Multiset (Nat × Block)) :
    Runs (readBody early z now s) m fun r m' =>
      InStep (fun s t => s = t ∧ m' = m) (fun x y => x = y ∧ m' = m) r
        (InputLogread.readBody z now s) := by
  apply runs_bind (runs_newEntry m)
  rintro a _ rfl
  apply runs_bind (runs_inputLogread early z now s.1 a m)
  rintro ⟨status, rest⟩ _ ⟨x, hread, rfl, haddress, hstatus⟩
  simp only [InputLogread.readBody, hread]
  obtain ⟨rfl, hparsed⟩ | ⟨rfl, rfl⟩ := hstatus
  · subst haddress
    apply runs_then (ends_valueAt hparsed.text (Multiset.le_add_left _ _))
    apply runs_then (ends_entryFree hparsed m)
    apply runs_then (ends_free rfl)
    exact runs_pure (.again ⟨rfl, rfl⟩)
  · have hcells : m + (Held.fresh a).cells = m + {(a, .entry (Held.fresh a).block)} := by
      simp [Held.fresh, Held.cells]
    apply runs_then (ends_free hcells)
    exact runs_pure (.leave ⟨rfl, rfl⟩)

theorem ends_readAll (early : Bool) (z : ZoneRule) (now : Int) (stream : List Byte)
    (m : Multiset (Nat × Block)) :
    Ends (readAll early z now stream) m
      ((Framing.lines isNewline stream).map (parsed z now)) m := by
  refine runs_mono (runs_loopM (fun m' s t => s = t ∧ m' = m) (fun m' x y => x = y ∧ m' = m) ?_
    ⟨rfl, rfl⟩ (readAll_lines z now stream)) fun _ _ h => h
  rintro _ s _ ⟨rfl, rfl⟩
  exact runs_readBody early z now s _

/-- The use of an entry in the tests: it is initialised, filled and freed. -/
def readOne (early : Bool) (z : ZoneRule) (now : Int) (stream : List Byte) : Prog Block Nat := do
  let entry ← newEntry
  let _ ← inputLogread early z now stream entry
  entryFree entry
  pure entry

theorem status_inputLogread (z : ZoneRule) (now : Int) (stream : List Byte) (entry : Entry) :
    (InputLogread.inputLogread z now stream entry).1 = if stream = [] then .eof else .success := by
  cases stream with
  | nil => rfl
  | cons b bs =>
    obtain ⟨r, hline⟩ : ∃ r, InputLogread.getline (b :: bs) = some r := by
      rw [InputLogread.getline]
      split
      · exact ⟨_, rfl⟩
      · split <;> exact ⟨_, rfl⟩
    simp [InputLogread.inputLogread, hline]

/-- Reading a file to its end and freeing each entry never fails, gives the entries of the lines
and leaves the blocks in use as they were. An entry can be freed exactly if there was a line. -/
theorem file_read (early : Bool) (z : ZoneRule) (now : Int) (stream : List Byte)
    (m : Multiset (Nat × Block)) :
    Ends (readAll early z now stream) m ((Framing.lines isNewline stream).map (parsed z now)) m ∧
      if stream = [] then Fails (readOne early z now stream) m
      else Runs (readOne early z now stream) m fun a m' => ∃ e, m' = m + {(a, .entry e)} := by
  have hstatus := status_inputLogread z now stream Entry.init
  refine ⟨ends_readAll early z now stream m, ?_⟩
  by_cases hstream : stream = []
  · rw [if_pos hstream] at hstatus ⊢
    apply fails_bind (runs_newEntry m)
    rintro a _ rfl
    apply fails_bind (runs_inputLogread early z now stream a m)
    rintro ⟨status, rest⟩ _ ⟨x, hread, rfl, -, ⟨rfl, -⟩ | ⟨-, rfl⟩⟩
    · rw [hread] at hstatus
      cases hstatus
    · exact fails_first (fails_entryFree a m) _
  · rw [if_neg hstream] at hstatus ⊢
    apply runs_bind (runs_newEntry m)
    rintro a _ rfl
    apply runs_bind (runs_inputLogread early z now stream a m)
    rintro ⟨status, rest⟩ _ ⟨x, hread, rfl, haddress, ⟨-, hparsed⟩ | ⟨rfl, -⟩⟩
    · subst haddress
      apply runs_then (ends_entryFree hparsed m)
      exact runs_pure ⟨x.block, rfl⟩
    · rw [hread] at hstatus
      cases hstatus

end Lokicat.FileReader

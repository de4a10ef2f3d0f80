import Lokicat.MainSteps

/-!
# The calls of the inner loop

Every pass of the inner loop is one call of `input_logread20`. The calls take
the bytes read between them, one line each, and only the last one can be left
with an unfinished line.
-/

namespace Lokicat.InnerLoop

open CString InputLogread Iteration MainLoop MainSteps

/-- A call of `input_logread20`: the bytes given, the bytes taken and the status. -/
structure Call where
  given : Nat
  taken : Nat
  status : InputStatus
  deriving DecidableEq, Repr

def calls (tr : List Action) : List Call :=
  tr.filterMap (fun | .call given taken status => some ⟨given, taken, status⟩ | _ => none)

/-- A call makes progress and stays in its buffer. -/
def Call.Sound (c : Call) : Prop := 1 ≤ c.taken ∧ c.taken ≤ c.given

@[simp] theorem calls_append (tr as : List Action) : calls (tr ++ as) = calls tr ++ calls as :=
  List.filterMap_append ..

@[simp] theorem calls_completeLine (cfg : Config) (env : LineEnv) (given : Nat) (text : List Byte)
    (st : State) :
    calls (completeLine cfg env given text st).trace =
      calls st.trace ++ [⟨given, text.length, .success⟩] := by
  simp only [completeLine, storeEntry]
  split <;> simp [State.emit, calls]

@[simp] theorem calls_holdText (text : List Byte) (st : State) :
    calls (holdText text st).trace = calls st.trace ++ [⟨text.length, text.length, .continue⟩] := by
  simp [holdText, State.emit, calls]

/-- The calls `cs` completed a line each and together took the bytes `xs`. -/
structure Consumed (cs : List Call) (xs : List Byte) : Prop where
  success : ∀ c ∈ cs, c.status = .success
  sound : ∀ c ∈ cs, c.Sound
  total : (cs.map Call.taken).sum = xs.length
  lines : cs.length = xs.countP isNewline
  closed : ∀ b ∈ xs.getLast?, isNewline b = true

theorem consumed_nil : Consumed [] [] where
  success := by simp
  sound := by simp
  total := rfl
  lines := rfl
  closed := by simp

theorem consumed_line {cs : List Call} {xs w : List Byte} {d : Byte} (h : Consumed cs xs)
    (bs : List Byte) (hw : ∀ b ∈ w, isNewline b = false) (hd : isNewline d = true) :
    Consumed (cs ++ [⟨(w ++ d :: bs).length, (w ++ [d]).length, .success⟩]) (xs ++ (w ++ [d])) := by
  have hplain : w.countP isNewline = 0 := Framing.countP_plain hw
  constructor
  · rw [List.forall_mem_append, List.forall_mem_singleton]
    exact ⟨h.success, rfl⟩
  · rw [List.forall_mem_append, List.forall_mem_singleton]
    exact ⟨h.sound, by simp [Call.Sound]⟩
  · simp [h.total]
  · simp [h.lines, List.countP_append, hplain, hd]
  · simpa [← List.append_assoc] using hd

/-- The calls on a whole chunk: they complete lines to its end, or the last one holds back
what follows the last newline. -/
inductive OfChunk : List Call → List Byte → Prop where
  | ended (cs : List Call) (bytes : List Byte) (lines : Consumed cs bytes) : OfChunk cs bytes
  | held (cs : List Call) (xs buf : List Byte) (lines : Consumed cs xs) (rest : buf ≠ [])
      (plain : ∀ b ∈ buf, isNewline b = false) :
      OfChunk (cs ++ [⟨buf.length, buf.length, .continue⟩]) (xs ++ buf)

theorem loop_calls (cfg : Config) (line : Nat → LineEnv) (bytes : List Byte) (st : State) :
    ∃ st', loop (innerBody cfg line) (bytes.length + 1) ⟨0, bytes, st⟩ = some st' ∧
      ∃ cs, calls st'.trace = calls st.trace ++ cs ∧ OfChunk cs bytes := by
  apply inner_correct cfg line (fun _ buf st' => ∃ cs xs, calls st'.trace = calls st.trace ++ cs ∧
    bytes = xs ++ buf ∧ Consumed cs xs)
  · rintro k w d bs st' hw hd ⟨cs, xs, hcalls, hbytes, hcons⟩
    refine ⟨_, _, ?_, ?_, consumed_line hcons bs hw hd⟩
    · rw [calls_completeLine, hcalls, List.append_assoc]
    · simp [hbytes]
  · rintro k st' ⟨cs, xs, hcalls, hbytes, hcons⟩
    rw [List.append_nil] at hbytes
    exact ⟨cs, hcalls, .ended cs bytes (hbytes ▸ hcons)⟩
  · rintro k buf st' hne hplain ⟨cs, xs, hcalls, hbytes, hcons⟩
    refine ⟨cs ++ [⟨buf.length, buf.length, .continue⟩], ?_, ?_⟩
    · rw [calls_holdText, hcalls, List.append_assoc]
    · rw [hbytes]
      exact .held cs xs buf hcons hne hplain
  · exact ⟨[], [], by simp, rfl, consumed_nil⟩

/-- The inner loop ends within one pass more than there are bytes. Its calls succeed
or ask for more, each takes at least a byte and no more than it is given, and
together they take what was read; there is a success for each newline, and only
the last call can ask for more, which it does exactly when no newline ends the chunk. -/
theorem inner_loop_consumes (cfg : Config) (line : Nat → LineEnv) (bytes : List Byte) (st : State) :
    ∃ st' cs, loop (innerBody cfg line) (bytes.length + 1) ⟨0, bytes, st⟩ = some st' ∧
      calls st'.trace = calls st.trace ++ cs ∧
      (∀ c ∈ cs, (c.status = .success ∨ c.status = .continue) ∧ 1 ≤ c.taken ∧ c.taken ≤ c.given) ∧
      (cs.map Call.taken).sum = bytes.length ∧
      cs.countP (fun c => c.status = .success) = bytes.countP isNewline ∧
      (∀ c ∈ cs.dropLast, c.status = .success) ∧
      ((∃ c ∈ cs.getLast?, c.status = .continue) ↔ ∃ b ∈ bytes.getLast?, isNewline b = false) := by
  obtain ⟨st', hloop, cs, hcalls, hchunk⟩ := loop_calls cfg line bytes st
  refine ⟨st', cs, hloop, hcalls, ?_⟩
  have hcount : ∀ ds : List Call, (∀ c ∈ ds, c.status = .success) →
      ds.countP (fun c => c.status = .success) = ds.length := by
    intro ds h
    rw [List.countP_eq_length]
    simpa using h
  cases hchunk with
  | ended _ _ h =>
    refine ⟨fun c hc => ⟨.inl (h.success c hc), h.sound c hc⟩, h.total, ?_,
      fun c hc => h.success c (List.mem_of_mem_dropLast hc), ?_⟩
    · rw [hcount _ h.success, h.lines]
    · constructor
      · rintro ⟨c, hc, hcontinue⟩
        rw [h.success c (List.mem_of_mem_getLast? hc)] at hcontinue
        cases hcontinue
      · rintro ⟨b, hb, hplain⟩
        rw [h.closed b hb] at hplain
        cases hplain
  | held ds xs buf h hne hplain =>
    have hzero : buf.countP isNewline = 0 := Framing.countP_plain hplain
    have hlast : (xs ++ buf).getLast? = some (buf.getLast hne) := by
      rw [List.getLast?_append_of_ne_nil xs hne, List.getLast?_eq_some_getLast hne]
    refine ⟨?_, ?_, ?_, ?_, ?_⟩
    · intro c hc
      obtain hc | hc := List.mem_append.mp hc
      · exact ⟨.inl (h.success c hc), h.sound c hc⟩
      · rw [List.mem_singleton.mp hc]
        exact ⟨.inr rfl, List.length_pos_iff.mpr hne, le_refl _⟩
    · simp [h.total]
    · simp [hcount _ h.success, h.lines, hzero]
    · simpa using h.success
    · simp only [hlast, List.getLast?_concat]
      constructor
      · intro _
        exact ⟨_, rfl, hplain _ (List.getLast_mem hne)⟩
      · intro _
        exact ⟨_, rfl, rfl⟩

end Lokicat.InnerLoop

import Lokicat.MainLoop
import Mathlib.Logic.Relation

/-!
# What a step of the main loop can do

The inner loop has two productive passes: it completes the first line of what
is left of the chunk, or holds a chunk without newline back. Every iteration of
the main loop is a sequence of `Micro` steps, of which only the age check and
the completion of a line touch the batch.
-/

namespace Lokicat.MainSteps

open CString InputLogread Iteration Ledger Logproto MainLoop Push

/-- The inner loop's state after the line `text` of a chunk of `given` bytes. -/
def completeLine (cfg : Config) (env : LineEnv) (given : Nat) (text : List Byte) (st : State) :
    State :=
  let line := cstr (cstr st.entry.line ++ text)
  let e := inputLogreadParseLine cfg.zone env.parseClock line st.entry
  storeEntry cfg env
    (State.emit { st.emit (.call given text.length .success) with entry := e }
      (.completed e env.parseClock))

/-- The inner loop's state after a chunk without newline. -/
def holdText (text : List Byte) (st : State) : State :=
  { st.emit (.call text.length text.length .continue) with
    entry := { st.entry with line := cstr st.entry.line ++ text } }

theorem innerBody_nil (cfg : Config) (line : Nat → LineEnv) (k : Nat) (st : State) :
    innerBody cfg line ⟨k, [], st⟩ = .leave st := by
  simp [innerBody]

theorem innerBody_line (cfg : Config) (line : Nat → LineEnv) (k : Nat) {w : List Byte}
    (hw : ∀ b ∈ w, isNewline b = false) {d : Byte} (hd : isNewline d = true) (bs : List Byte)
    (st : State) :
    innerBody cfg line ⟨k, w ++ d :: bs, st⟩ =
      .again ⟨k + 1, bs, completeLine cfg (line k) (w ++ d :: bs).length (w ++ [d]) st⟩ := by
  have hne : w ++ d :: bs ≠ [] := by simp
  have hdrop : (w ++ d :: bs).drop (w.length + 1) = bs := by
    rw [List.drop_append, List.drop_eq_nil_of_le (by omega)]
    simp
  simp only [innerBody, if_neg hne, inputLogread20_success cfg.zone _ hw hd, hdrop, completeLine,
    List.length_append, List.length_singleton]

theorem innerBody_plain (cfg : Config) (line : Nat → LineEnv) (k : Nat) {buf : List Byte}
    (hne : buf ≠ []) (h : ∀ b ∈ buf, isNewline b = false) (st : State) :
    innerBody cfg line ⟨k, buf, st⟩ = .leave (holdText buf st) := by
  simp only [innerBody, if_neg hne, inputLogread20_continue cfg.zone _ h, holdText]

/-- The rule of the inner loop: an invariant kept by every completed line ends
it in its postcondition, and the loop ends. -/
theorem inner_correct (cfg : Config) (line : Nat → LineEnv) (Inv : Nat → List Byte → State → Prop)
    (Post : State → Prop)
    (complete : ∀ k w d bs st, (∀ b ∈ w, isNewline b = false) → isNewline d = true →
      Inv k (w ++ d :: bs) st →
      Inv (k + 1) bs (completeLine cfg (line k) (w ++ d :: bs).length (w ++ [d]) st))
    (done : ∀ k st, Inv k [] st → Post st)
    (hold : ∀ k buf st, buf ≠ [] → (∀ b ∈ buf, isNewline b = false) → Inv k buf st →
      Post (holdText buf st))
    {bytes : List Byte} {st : State} (start : Inv 0 bytes st) :
    ∃ st', loop (innerBody cfg line) (bytes.length + 1) ⟨0, bytes, st⟩ = some st' ∧ Post st' := by
  apply loop_correct (innerBody cfg line) (fun s => Inv s.count s.start s.main) Post
    (fun s => s.start.length)
  · intro ⟨k, buf, st⟩ s' hinv hbody
    rcases line_or_plain buf with ⟨w, d, bs, rfl, hw, hd⟩ | hplain
    · rw [innerBody_line cfg line k hw hd, Pass.again.injEq] at hbody
      subst hbody
      refine ⟨complete k w d bs st hw hd hinv, ?_⟩
      simp only [List.length_append, List.length_cons]
      omega
    · by_cases hne : buf = []
      · subst hne
        rw [innerBody_nil] at hbody
        cases hbody
      · rw [innerBody_plain cfg line k hne hplain] at hbody
        cases hbody
  · intro ⟨k, buf, st⟩ r hinv hbody
    rcases line_or_plain buf with ⟨w, d, bs, rfl, hw, hd⟩ | hplain
    · rw [innerBody_line cfg line k hw hd] at hbody
      cases hbody
    · by_cases hne : buf = []
      · subst hne
        rw [innerBody_nil, Pass.leave.injEq] at hbody
        subst hbody
        exact done k st hinv
      · rw [innerBody_plain cfg line k hne hplain, Pass.leave.injEq] at hbody
        subst hbody
        exact hold k buf st hne hplain hinv
  · exact start
  · simp

/-- The bound on the passes is never met. -/
theorem loop_forward (cfg : Config) (line : Nat → LineEnv) (bytes : List Byte) (st : State) :
    loop (innerBody cfg line) (bytes.length + 1) ⟨0, bytes, st⟩ =
      some (forward cfg line bytes st) := by
  obtain ⟨r, hr, -⟩ : ∃ r, loop (innerBody cfg line) (bytes.length + 1) ⟨0, bytes, st⟩ = some r ∧
      True := by
    apply inner_correct cfg line (fun _ _ _ => True) <;> simp
  simp only [forward, hr]

theorem forward_correct {cfg : Config} {line : Nat → LineEnv} (Inv : Nat → List Byte → State → Prop)
    (Post : State → Prop)
    (complete : ∀ k w d bs st, (∀ b ∈ w, isNewline b = false) → isNewline d = true →
      Inv k (w ++ d :: bs) st →
      Inv (k + 1) bs (completeLine cfg (line k) (w ++ d :: bs).length (w ++ [d]) st))
    (done : ∀ k st, Inv k [] st → Post st)
    (hold : ∀ k buf st, buf ≠ [] → (∀ b ∈ buf, isNewline b = false) → Inv k buf st →
      Post (holdText buf st))
    {bytes : List Byte} {st : State} (start : Inv 0 bytes st) :
    Post (forward cfg line bytes st) := by
  obtain ⟨r, hr, hpost⟩ := inner_correct cfg line Inv Post complete done hold start
  rw [loop_forward, Option.some.injEq] at hr
  rw [hr]
  exact hpost

/-- An action that no view of the batch sees. -/
def Action.Quiet : Action → Prop
  | .read _ => True
  | .call _ _ _ => True
  | _ => False

theorem quiet_singleton {a : Action} (h : Action.Quiet a) : ∀ x ∈ [a], Action.Quiet x :=
  List.forall_mem_singleton.mpr h

/-- The atomic steps. -/
inductive Micro (cfg : Config) : State → State → Prop where
  | look (now : Int) (o : PushOutcome) (st : State) : Micro cfg st (ageCheck cfg now o st)
  | line (env : LineEnv) (st : State) :
      Micro cfg st (storeEntry cfg env (st.emit (.completed st.entry env.parseClock)))
  | quiet (st st' : State) (as : List Action) (silent : ∀ a ∈ as, Action.Quiet a)
      (trace : st'.trace = st.trace ++ as) (stream : st'.stream = st.stream)
      (oldest : st'.timestampOldestEntry = st.timestampOldestEntry) : Micro cfg st st'

abbrev Micros (cfg : Config) : State → State → Prop := Relation.ReflTransGen (Micro cfg)

theorem micros_completeLine (cfg : Config) (env : LineEnv) (given : Nat) (text : List Byte)
    (st : State) : Micros cfg st (completeLine cfg env given text st) := by
  let line := cstr (cstr st.entry.line ++ text)
  let e := inputLogreadParseLine cfg.zone env.parseClock line st.entry
  let called := { st.emit (.call given text.length .success) with entry := e }
  have hcall : Micro cfg st called :=
    .quiet st called [.call given text.length .success] (quiet_singleton trivial) rfl rfl rfl
  exact .tail (.single hcall) (.line env called)

/-- The request a flush passes to `send_push_request`. -/
def sentBy (cfg : Config) (cause : Cause) (o : PushOutcome) (st : State) : Sent :=
  ⟨cause, st.pushRequest, o, (sendPushRequest st.pushRequest cfg.lokiUrl o).2⟩

@[simp] theorem sentBy_entries (cfg : Config) (cause : Cause) (o : PushOutcome) (st : State) :
    (sentBy cfg cause o st).entries = st.stream.entries := by
  simp [Sent.entries, sentBy, State.pushRequest]

@[simp] theorem flush_trace (cfg : Config) (cause : Cause) (o : PushOutcome) (st : State) :
    (flush cfg cause o st).trace = st.trace ++ [.sent (sentBy cfg cause o st)] := rfl

@[simp] theorem flush_entries (cfg : Config) (cause : Cause) (o : PushOutcome) (st : State) :
    (flush cfg cause o st).stream.entries = [] := rfl

@[simp] theorem flush_oldest (cfg : Config) (cause : Cause) (o : PushOutcome) (st : State) :
    (flush cfg cause o st).timestampOldestEntry = 0 := rfl

@[simp] theorem flush_set (cfg : Config) (cause : Cause) (o : PushOutcome) (st : State) :
    (flush cfg cause o st).set = st.set := rfl

@[simp] theorem flush_phase (cfg : Config) (cause : Cause) (o : PushOutcome) (st : State) :
    (flush cfg cause o st).phase = st.phase := rfl

@[simp] theorem ageCheck_set (cfg : Config) (now : Int) (o : PushOutcome) (st : State) :
    (ageCheck cfg now o st).set = st.set := by
  simp only [ageCheck]
  split <;> split <;> rfl

@[simp] theorem ageCheck_phase (cfg : Config) (now : Int) (o : PushOutcome) (st : State) :
    (ageCheck cfg now o st).phase = st.phase := by
  simp only [ageCheck]
  split <;> split <;> rfl

@[simp] theorem completeLine_set (cfg : Config) (env : LineEnv) (given : Nat) (text : List Byte)
    (st : State) : (completeLine cfg env given text st).set = st.set := by
  simp only [completeLine, storeEntry]
  split <;> rfl

@[simp] theorem completeLine_phase (cfg : Config) (env : LineEnv) (given : Nat) (text : List Byte)
    (st : State) : (completeLine cfg env given text st).phase = st.phase := by
  simp only [completeLine, storeEntry]
  split <;> rfl

/-- The inner loop leaves the descriptor set alone, and it ends. -/
theorem forward_frame (cfg : Config) (line : Nat → LineEnv) (bytes : List Byte) (st : State) :
    (forward cfg line bytes st).set = st.set ∧ (forward cfg line bytes st).phase = st.phase := by
  apply forward_correct (fun _ _ st' => st'.set = st.set ∧ st'.phase = st.phase)
    (fun st' => st'.set = st.set ∧ st'.phase = st.phase)
  · intro k w d bs st' _ _ h
    simpa using h
  · intro _ st' h
    exact h
  · intro _ buf st' _ _ h
    exact h
  · exact ⟨rfl, rfl⟩

theorem micros_forward (cfg : Config) (line : Nat → LineEnv) (bytes : List Byte) (st : State) :
    Micros cfg st (forward cfg line bytes st) := by
  apply forward_correct (fun _ _ st' => Micros cfg st st') (Micros cfg st)
  · intro k w d bs st' _ _ h
    exact h.trans (micros_completeLine cfg (line k) _ _ st')
  · intro _ st' h
    exact h
  · intro _ buf st' _ _ h
    exact h.tail (.quiet st' _ [.call buf.length buf.length .continue] (quiet_singleton trivial)
      rfl rfl rfl)
  · exact .refl

/-- A change outside batch, age mark and trace. -/
theorem micro_frame (cfg : Config) {st st' : State} (trace : st'.trace = st.trace)
    (stream : st'.stream = st.stream)
    (oldest : st'.timestampOldestEntry = st.timestampOldestEntry) : Micro cfg st st' :=
  .quiet st st' [] (by simp) (by simp [trace]) stream oldest

/-- The ways an iteration at the loop head can go. -/
inductive MainStep (cfg : Config) (st : State) (t : Turn) : State → Prop where
  | waitFailed (waited : t.waited = .error) :
      MainStep cfg st t { ageCheck cfg t.now t.outcome st with phase := .died }
  | idle (f : Nat → Bool) (waited : t.waited = .ready f)
      (none : (select (cfg.fd + 1) (ageCheck cfg t.now t.outcome st).set f).1 = 0) :
      MainStep cfg st t { ageCheck cfg t.now t.outcome st with
        set := (select (cfg.fd + 1) (ageCheck cfg t.now t.outcome st).set f).2 }
  | readFailed (f : Nat → Bool) (waited : t.waited = .ready f)
      (some : (select (cfg.fd + 1) (ageCheck cfg t.now t.outcome st).set f).1 ≠ 0)
      (read : t.read = .error) :
      MainStep cfg st t { ageCheck cfg t.now t.outcome st with
        set := (select (cfg.fd + 1) (ageCheck cfg t.now t.outcome st).set f).2
        phase := .died }
  | ended (f : Nat → Bool) (c : Chunk) (waited : t.waited = .ready f)
      (some : (select (cfg.fd + 1) (ageCheck cfg t.now t.outcome st).set f).1 ≠ 0)
      (read : t.read = .data c) (eof : c.bytes = []) :
      MainStep cfg st t { ageCheck cfg t.now t.outcome st with
        set := (select (cfg.fd + 1) (ageCheck cfg t.now t.outcome st).set f).2
        phase := .left }
  | data (f : Nat → Bool) (c : Chunk) (waited : t.waited = .ready f)
      (some : (select (cfg.fd + 1) (ageCheck cfg t.now t.outcome st).set f).1 ≠ 0)
      (read : t.read = .data c) (bytes : c.bytes ≠ []) :
      MainStep cfg st t (forward cfg t.line c.bytes
        (State.emit { ageCheck cfg t.now t.outcome st with
          set := (select (cfg.fd + 1) (ageCheck cfg t.now t.outcome st).set f).2 }
          (.read c.bytes)))

theorem stepMain_cases (cfg : Config) (t : Turn) {st : State} (h : st.phase = .looping) :
    MainStep cfg st t (stepMain cfg st t) := by
  simp only [stepMain, h]
  cases hwait : t.waited with
  | error => exact .waitFailed hwait
  | ready f =>
    by_cases hnone : (select (cfg.fd + 1) (ageCheck cfg t.now t.outcome st).set f).1 = 0
    · simp only [hnone, if_true]
      exact .idle f hwait hnone
    · simp only [hnone, if_false]
      cases hread : t.read with
      | error => exact .readFailed f hwait hnone hread
      | data c =>
        by_cases heof : c.bytes = []
        · simp only [heof, List.length_nil, if_true]
          exact .ended f c hwait hnone hread heof
        · simp only [List.length_eq_zero_iff, heof, if_false]
          exact .data f c hwait hnone hread heof

theorem stepMain_stopped (cfg : Config) (t : Turn) {st : State} (h : st.phase ≠ .looping) :
    stepMain cfg st t = st := by
  cases hphase : st.phase <;> simp_all [stepMain]

/-- Every iteration of the main loop is a sequence of atomic steps. -/
theorem micros_stepMain (cfg : Config) (st : State) (t : Turn) :
    Micros cfg st (stepMain cfg st t) := by
  by_cases hphase : st.phase = .looping
  · have hlook : Micros cfg st (ageCheck cfg t.now t.outcome st) := .single (.look _ _ st)
    have hstep := stepMain_cases cfg t hphase
    generalize stepMain cfg st t = st' at hstep
    cases hstep with
    | waitFailed => exact hlook.tail (micro_frame cfg rfl rfl rfl)
    | idle => exact hlook.tail (micro_frame cfg rfl rfl rfl)
    | readFailed => exact hlook.tail (micro_frame cfg rfl rfl rfl)
    | ended => exact hlook.tail (micro_frame cfg rfl rfl rfl)
    | data f c =>
      refine Relation.ReflTransGen.trans ?_ (micros_forward cfg _ _ _)
      exact hlook.tail (.quiet _ _ [.read c.bytes] (quiet_singleton trivial) rfl rfl rfl)
  · rw [stepMain_stopped cfg t hphase]

/-- What an atomic step does to the batch, the age mark and the trace. -/
inductive BatchStep (cfg : Config) (st st' : State) : Prop where
  | quiet (as : List Action) (silent : ∀ a ∈ as, Action.Quiet a)
      (trace : st'.trace = st.trace ++ as) (entries : st'.stream.entries = st.stream.entries)
      (oldest : st'.timestampOldestEntry = st.timestampOldestEntry)
  | kept (now : Int) (young : ageExpired cfg st.timestampOldestEntry now = false)
      (trace : st'.trace = st.trace ++ [.looked now])
      (entries : st'.stream.entries = st.stream.entries)
      (oldest : st'.timestampOldestEntry = st.timestampOldestEntry)
  | expired (now : Int) (s : Sent) (old : ageExpired cfg st.timestampOldestEntry now = true)
      (cause : s.cause = .age now) (request : s.entries = st.stream.entries)
      (trace : st'.trace = st.trace ++ [.looked now, .sent s])
      (entries : st'.stream.entries = []) (oldest : st'.timestampOldestEntry = 0)
  | stored (e : Entry) (p a : Int) (room : st.stream.entries.length + 1 < maxEntries)
      (trace : st'.trace = st.trace ++ [.completed e p, .stored st.stream.entries.length e a])
      (entries : st'.stream.entries = st.stream.entries ++ [e])
      (oldest : st'.timestampOldestEntry =
        if st.timestampOldestEntry = 0 then cInt a else st.timestampOldestEntry)
  | filled (e : Entry) (p a : Int) (s : Sent) (full : maxEntries ≤ st.stream.entries.length + 1)
      (cause : s.cause = .full) (request : s.entries = st.stream.entries ++ [e])
      (trace : st'.trace =
        st.trace ++ [.completed e p, .stored st.stream.entries.length e a, .sent s])
      (entries : st'.stream.entries = []) (oldest : st'.timestampOldestEntry = 0)

theorem ageExpired_pos {cfg : Config} {oldest now : Int} (h : ageExpired cfg oldest now = true) :
    0 < oldest := by
  simp only [ageExpired, Bool.and_eq_true, decide_eq_true_eq] at h
  exact h.1

/-- With room for the sum the test adds exactly. -/
theorem ageExpired_room (cfg : Config) {oldest now : Int} (hpos : 0 < oldest)
    (hroom : oldest + maxAgeOfEntry < 2 ^ 31) :
    ageExpired cfg oldest now = true ↔ oldest + maxAgeOfEntry < cInt now := by
  have hsum : intAdd cfg.overflow oldest maxAgeOfEntry = oldest + maxAgeOfEntry := by
    apply if_pos
    simp only [maxAgeOfEntry] at hroom ⊢
    omega
  simp only [ageExpired, hsum, Bool.and_eq_true, decide_eq_true_eq]
  omega

/-- The ways the age check can go: no mark, a mark that is young, a mark that is old. -/
theorem ageCheck_cases (cfg : Config) (now : Int) (o : PushOutcome) (st : State) :
    (st.timestampOldestEntry ≤ 0 ∧ ageCheck cfg now o st = st) ∨
    (0 < st.timestampOldestEntry ∧ ageExpired cfg st.timestampOldestEntry now = false ∧
      ageCheck cfg now o st = st.emit (.looked now)) ∨
    (ageExpired cfg st.timestampOldestEntry now = true ∧
      ageCheck cfg now o st = flush cfg (.age now) o (st.emit (.looked now))) := by
  by_cases hpos : st.timestampOldestEntry > 0
  · cases hage : ageExpired cfg st.timestampOldestEntry now with
    | false =>
      refine .inr (.inl ⟨hpos, rfl, ?_⟩)
      simp only [ageCheck, State.emit, hpos, hage, Bool.false_eq_true, if_true, if_false]
    | true =>
      refine .inr (.inr ⟨rfl, ?_⟩)
      simp only [ageCheck, State.emit, hpos, hage, if_true]
  · have hage : ageExpired cfg st.timestampOldestEntry now = false :=
      Bool.eq_false_iff.mpr (fun h => hpos (ageExpired_pos h))
    refine .inl ⟨by omega, ?_⟩
    simp only [ageCheck, hpos, hage, Bool.false_eq_true, if_false]

theorem batchStep_ageCheck (cfg : Config) (now : Int) (o : PushOutcome) (st : State) :
    BatchStep cfg st (ageCheck cfg now o st) := by
  obtain ⟨-, hcheck⟩ | ⟨-, hyoung, hcheck⟩ | ⟨hold, hcheck⟩ := ageCheck_cases cfg now o st
  · rw [hcheck]
    exact .quiet [] (by simp) (by simp) rfl rfl
  · rw [hcheck]
    exact .kept now hyoung rfl rfl rfl
  · rw [hcheck]
    exact .expired now (sentBy cfg (.age now) o (st.emit (.looked now))) hold rfl
      (sentBy_entries ..) (by simp [State.emit]) rfl rfl

/-- The state before the test for a full batch. -/
def pushEntry (env : LineEnv) (st : State) : State :=
  { st.emit (.stored st.stream.entries.length st.entry env.storeClock) with
    timestampOldestEntry :=
      if st.timestampOldestEntry = 0 then cInt env.storeClock else st.timestampOldestEntry
    stream := { st.stream with entries := st.stream.entries ++ [st.entry] } }

/-- The ways a store can go: there is room for another entry, or the batch is full. -/
theorem storeEntry_cases (cfg : Config) (env : LineEnv) (st : State) :
    (st.stream.entries.length + 1 < maxEntries ∧
      storeEntry cfg env st = { pushEntry env st with entry := Entry.init }) ∨
    (maxEntries ≤ st.stream.entries.length + 1 ∧
      storeEntry cfg env st =
        { flush cfg .full env.outcome (pushEntry env st) with entry := Entry.init }) := by
  by_cases hfull : maxEntries ≤ st.stream.entries.length + 1
  · refine .inr ⟨hfull, ?_⟩
    simp only [storeEntry, pushEntry, State.emit, List.length_append, List.length_singleton,
      ge_iff_le, hfull, if_true]
  · refine .inl ⟨by omega, ?_⟩
    simp only [storeEntry, pushEntry, State.emit, List.length_append, List.length_singleton,
      ge_iff_le, hfull, if_false]

theorem batchStep_storeEntry (cfg : Config) (env : LineEnv) (st : State) :
    BatchStep cfg st (storeEntry cfg env (st.emit (.completed st.entry env.parseClock))) := by
  obtain ⟨hroom, hstore⟩ | ⟨hfull, hstore⟩ :=
    storeEntry_cases cfg env (st.emit (.completed st.entry env.parseClock))
  · rw [hstore]
    exact .stored st.entry env.parseClock env.storeClock hroom (by simp [pushEntry, State.emit])
      rfl rfl
  · rw [hstore]
    exact .filled st.entry env.parseClock env.storeClock
      (sentBy cfg .full env.outcome
        (pushEntry env (st.emit (.completed st.entry env.parseClock)))) hfull
      rfl (sentBy_entries ..) (by simp [pushEntry, State.emit]) rfl rfl

theorem batchStep_of_micro {cfg : Config} {st st' : State} (h : Micro cfg st st') :
    BatchStep cfg st st' := by
  cases h with
  | look now o => exact batchStep_ageCheck cfg now o st
  | line env => exact batchStep_storeEntry cfg env st
  | quiet _ _ as silent trace stream oldest => exact .quiet as silent trace (by rw [stream]) oldest

/-- The trace only grows. -/
theorem micros_trace {cfg : Config} {st st' : State} (h : Micros cfg st st') :
    st.trace <+: st'.trace := by
  induction h with
  | refl => exact List.prefix_refl _
  | tail _ hstep ih =>
    apply ih.trans
    cases batchStep_of_micro hstep <;> simp only [*, List.prefix_append]

/-- An invariant of the start kept by every atomic step holds after every run. -/
theorem runMain_micros {cfg : Config} (Inv : State → Prop) (start : Inv (init cfg))
    (keep : ∀ st st', Micro cfg st st' → Inv st → Inv st') (turns : List Turn) :
    Inv (runMain cfg turns) := by
  apply run_invariant Inv _ start
  intro st t hst
  have h := micros_stepMain cfg st t
  generalize stepMain cfg st t = st' at h
  induction h with
  | refl => exact hst
  | tail _ hstep ih => exact keep _ _ hstep ih

theorem runMain_invariant {cfg : Config} (Inv : State → Prop) (start : Inv (init cfg))
    (keep : ∀ st st', BatchStep cfg st st' → Inv st → Inv st') (turns : List Turn) :
    Inv (runMain cfg turns) :=
  runMain_micros Inv start (fun st st' h => keep st st' (batchStep_of_micro h)) turns

end Lokicat.MainSteps

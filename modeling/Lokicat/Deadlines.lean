import Lokicat.AgeFlush
import Mathlib.Data.List.Chain

/-!
# How long an entry waits

The age check is made once a turn, so an entry waits for the age limit and one more
turn at most. Turns take as long as their `select`, their `read` and their pushes do.
-/

namespace Lokicat.Deadlines

open AgeFlush Batching CString InputLogread Iteration Ledger Logproto MainLoop MainSteps Push

/-- Turns that start at most `gap` seconds after each other and store their entries within
that time. -/
structure Paced (gap : Int) (turns : List Turn) : Prop where
  apart : turns.IsChain (fun t t' => t'.now ≤ t.now + gap)
  during : ∀ t ∈ turns, ∀ k, t.now ≤ (t.line k).storeClock ∧ (t.line k).storeClock ≤ t.now + gap

/-- The clock at a shipment: that of the age check, or of the store that filled the batch. -/
def sentAt (q : Sent × List (Entry × Int)) : Int :=
  match q.1.cause with
  | .age now => now
  | .full => (q.2.getLast?.map Prod.snd).getD 0

/-- No waiting entry has been there for longer than the age limit. -/
def Young (now : Int) (st : State) : Prop :=
  ∀ p ∈ st.account.waiting, now ≤ p.2 + maxAgeOfEntry

/-- No entry was shipped later than the age limit and a turn after its store. -/
def Punctual (gap : Int) (st : State) : Prop :=
  ∀ q ∈ st.account.shipped, ∀ p ∈ q.2, sentAt q ≤ p.2 + maxAgeOfEntry + gap

theorem punctual_ship {gap : Int} {st st' : State} {q : Sent × List (Entry × Int)}
    (h : Punctual gap st) (account : st'.account = ⟨st.account.shipped ++ [q], []⟩)
    (due : ∀ p ∈ q.2, sentAt q ≤ p.2 + maxAgeOfEntry + gap) : Punctual gap st' := by
  rw [Punctual, account, List.forall_mem_append, List.forall_mem_singleton]
  exact ⟨h, due⟩

/-- What a completed line does to the account. -/
theorem account_completeLine (cfg : Config) (env : LineEnv) (given : Nat) (text : List Byte)
    (st : State) :
    ∃ e, (completeLine cfg env given text st).account =
        ⟨st.account.shipped, st.account.waiting ++ [(e, env.storeClock)]⟩ ∨
      ∃ s, s.cause = .full ∧ (completeLine cfg env given text st).account =
        ⟨st.account.shipped ++ [(s, st.account.waiting ++ [(e, env.storeClock)])], []⟩ := by
  let line := cstr (cstr st.entry.line ++ text)
  let e := inputLogreadParseLine cfg.zone env.parseClock line st.entry
  let called := { st.emit (.call given text.length .success) with entry := e }
  have hcalled : called.account = st.account :=
    account_quiet (quiet_singleton (a := .call given text.length .success) trivial) rfl
  have hline : completeLine cfg env given text st =
      storeEntry cfg env (called.emit (.completed e env.parseClock)) := rfl
  obtain ⟨-, hstore⟩ | ⟨-, hstore⟩ :=
    storeEntry_cases cfg env (called.emit (.completed e env.parseClock))
  · refine ⟨e, .inl ?_⟩
    rw [hline, hstore, ← hcalled]
    exact account_stored (p := env.parseClock) (i := called.stream.entries.length)
      (by simp [pushEntry, State.emit, called])
  · refine ⟨e, .inr ⟨sentBy cfg .full env.outcome
      (pushEntry env (called.emit (.completed e env.parseClock))), rfl, ?_⟩⟩
    rw [hline, hstore, ← hcalled]
    exact account_filled (p := env.parseClock) (i := called.stream.entries.length)
      (by simp [pushEntry, State.emit, called])

section Turn

variable {cfg : Config} {gap : Int} {st : State} {t : Turn}

/-- The age check ships what was young one turn ago. -/
theorem punctual_ageCheck (h : Punctual gap st) (young : Young (t.now - gap) st) :
    Punctual gap (ageCheck cfg t.now t.outcome st) := by
  obtain ⟨-, hcheck⟩ | ⟨-, -, hcheck⟩ | ⟨-, hcheck⟩ := ageCheck_cases cfg t.now t.outcome st
  · rwa [hcheck]
  · have haccount : (st.emit (.looked t.now)).account = st.account := account_kept rfl
    rwa [hcheck, Punctual, haccount]
  · let s := sentBy cfg (.age t.now) t.outcome (st.emit (.looked t.now))
    have haccount : (flush cfg (.age t.now) t.outcome (st.emit (.looked t.now))).account =
        ⟨st.account.shipped ++ [(s, st.account.waiting)], []⟩ :=
      account_expired (by rw [flush_trace, State.emit, List.append_assoc]; rfl)
    rw [hcheck]
    apply punctual_ship h haccount
    intro p hp
    have hyoung := young p hp
    show t.now ≤ p.2 + maxAgeOfEntry + gap
    omega

/-- An entry stored in the turn is young, and so are those that it is shipped with. -/
theorem onTime_completeLine {env : LineEnv} (given : Nat) (text : List Byte)
    (during : t.now ≤ env.storeClock ∧ env.storeClock ≤ t.now + gap)
    (h : Punctual gap st ∧ Young t.now st) :
    Punctual gap (completeLine cfg env given text st) ∧
      Young t.now (completeLine cfg env given text st) := by
  obtain ⟨hpunctual, hyoung⟩ := h
  obtain ⟨e, haccount⟩ := account_completeLine cfg env given text st
  have hlimit : 0 ≤ maxAgeOfEntry := by decide
  have hbatch : ∀ p ∈ st.account.waiting ++ [(e, env.storeClock)], t.now ≤ p.2 + maxAgeOfEntry := by
    rw [List.forall_mem_append, List.forall_mem_singleton]
    exact ⟨hyoung, by omega⟩
  obtain haccount | ⟨s, hcause, haccount⟩ := haccount
  · constructor
    · rwa [Punctual, haccount]
    · rwa [Young, haccount]
  · constructor
    · apply punctual_ship hpunctual haccount
      intro p hp
      have hsent : sentAt (s, st.account.waiting ++ [(e, env.storeClock)]) = env.storeClock := by
        simp [sentAt, hcause]
      have hp := hbatch p hp
      rw [hsent]
      omega
    · simp [Young, haccount]

/-- So it is with all the lines of a chunk. -/
theorem onTime_forward (bytes : List Byte)
    (during : ∀ k, t.now ≤ (t.line k).storeClock ∧ (t.line k).storeClock ≤ t.now + gap)
    (h : Punctual gap st ∧ Young t.now st) :
    Punctual gap (forward cfg t.line bytes st) ∧ Young t.now (forward cfg t.line bytes st) := by
  apply forward_correct (fun _ _ st => Punctual gap st ∧ Young t.now st)
    (fun st => Punctual gap st ∧ Young t.now st)
  · intro k w d bs st _ _ h
    exact onTime_completeLine _ _ (during k) h
  · intro _ st h
    exact h
  · intro _ buf st _ _ h
    have haccount : (holdText buf st).account = st.account :=
      account_quiet (quiet_singleton (a := .call buf.length buf.length .continue) trivial) rfl
    rwa [Punctual, Young, haccount]
  · exact h

end Turn

/-- The clock readings of a run only grow. -/
theorem micros_readings {cfg : Config} {st st' : State} (h : Micros cfg st st') :
    clockReadings st.trace <+: clockReadings st'.trace := (micros_trace h).filterMap _

theorem steady_earlier {rs ss : List Int} (h : Steady ss) (hp : rs <+: ss) : Steady rs := by
  obtain ⟨rest, rfl⟩ := hp
  exact steady_before h

/-- One turn, from a batch that was young one turn ago. -/
theorem onTime_step {cfg : Config} {gap : Int} {st : State} {t : Turn} (dated : Dated st)
    (steady : Steady (clockReadings (stepMain cfg st t).trace))
    (during : ∀ k, t.now ≤ (t.line k).storeClock ∧ (t.line k).storeClock ≤ t.now + gap)
    (punctual : Punctual gap st) (young : st.phase = .looping → Young (t.now - gap) st) :
    Punctual gap (stepMain cfg st t) ∧
      ((stepMain cfg st t).phase = .looping → Young t.now (stepMain cfg st t)) := by
  by_cases hphase : st.phase = .looping
  · have hpunctual : Punctual gap (ageCheck cfg t.now t.outcome st) :=
      punctual_ageCheck punctual (young hphase)
    have hyoung : Steady (clockReadings (ageCheck cfg t.now t.outcome st).trace) →
        Young t.now (ageCheck cfg t.now t.outcome st) := waiting_young t.now t.outcome dated
    have hstep := stepMain_cases cfg t hphase
    generalize stepMain cfg st t = st' at hstep steady
    cases hstep with
    | waitFailed => exact ⟨hpunctual, fun _ => hyoung steady⟩
    | idle => exact ⟨hpunctual, fun _ => hyoung steady⟩
    | readFailed => exact ⟨hpunctual, fun _ => hyoung steady⟩
    | ended => exact ⟨hpunctual, fun _ => hyoung steady⟩
    | data f c =>
      let fed : State := State.emit { ageCheck cfg t.now t.outcome st with
        set := (select (cfg.fd + 1) (ageCheck cfg t.now t.outcome st).set f).2 } (.read c.bytes)
      have hfed : Micro cfg (ageCheck cfg t.now t.outcome st) fed :=
        .quiet _ _ [.read c.bytes] (quiet_singleton trivial) rfl rfl rfl
      have haccount : fed.account = (ageCheck cfg t.now t.outcome st).account :=
        account_quiet (quiet_singleton (a := .read c.bytes) trivial) rfl
      have hchecked := hyoung (steady_earlier steady
        (micros_readings (.head hfed (micros_forward cfg t.line c.bytes fed))))
      have hstart : Punctual gap fed ∧ Young t.now fed := by
        rw [Punctual, Young, haccount]
        exact ⟨hpunctual, hchecked⟩
      obtain ⟨hforward, hwaiting⟩ := onTime_forward c.bytes during hstart
      exact ⟨hforward, fun _ => hwaiting⟩
  · rw [stepMain_stopped cfg t hphase]
    exact ⟨punctual, fun h => absurd h hphase⟩

theorem onTime_run (cfg : Config) {gap : Int} {turns : List Turn}
    (steady : Steady (clockReadings (runMain cfg turns).trace)) (paced : Paced gap turns) :
    Punctual gap (runMain cfg turns) ∧ ((runMain cfg turns).phase = .looping →
      ∀ now, (∀ t ∈ turns.getLast?, now ≤ t.now) → Young now (runMain cfg turns)) := by
  induction turns using List.reverseRecOn with
  | nil => simp [Punctual, Young, runMain, init, State.account, moves, empty]
  | append_singleton turns t ih =>
    obtain ⟨hapart, -, hgap⟩ := List.isChain_append.mp paced.apart
    rw [runMain, run_concat, ← runMain] at steady ⊢
    have hbefore := steady_earlier steady (micros_readings (micros_stepMain cfg _ t))
    obtain ⟨hpunctual, hyoung⟩ :=
      ih hbefore ⟨hapart, fun t' ht' => paced.during t' (List.mem_append_left _ ht')⟩
    have hwaiting : (runMain cfg turns).phase = .looping →
        Young (t.now - gap) (runMain cfg turns) := by
      intro hlooping
      apply hyoung hlooping
      intro t' ht'
      have hnext := hgap t' ht' t (by simp)
      omega
    obtain ⟨hpunctual', hyoung'⟩ := onTime_step (dated_run cfg turns hbefore) steady
      (paced.during t (by simp)) hpunctual hwaiting
    refine ⟨hpunctual', fun hlooping now hnow p hp => ?_⟩
    have hlast := hnow t (by simp)
    have hwaiting := hyoung' hlooping p hp
    omega

/-- While the clock is steady and the turns come at most `gap` seconds apart, no entry is
shipped later than thirty seconds and a turn after it was stored, for whatever reason, and while
the loop runs no entry waits that was older than thirty seconds at the last age check. -/
theorem shipped_in_time (cfg : Config) (gap : Int) (turns : List Turn)
    (steady : Steady (clockReadings (runMain cfg turns).trace)) (paced : Paced gap turns) :
    let st := runMain cfg turns
    st.account.shipped.map Prod.fst = sents st.trace ∧
      (∀ q ∈ st.account.shipped, q.1.entries = q.2.map Prod.fst ∧
        ∀ p ∈ q.2, sentAt q ≤ p.2 + maxAgeOfEntry + gap) ∧
      st.account.waiting.map Prod.fst = st.stream.entries ∧
      (st.phase = .looping → ∀ t ∈ turns.getLast?, ∀ p ∈ st.account.waiting,
        t.now ≤ p.2 + maxAgeOfEntry) := by
  intro st
  have inv := ledgered_run cfg turns
  obtain ⟨hpunctual, hyoung⟩ := onTime_run cfg steady paced
  refine ⟨shipped_sents _, fun q hq => ⟨inv.shipped q hq, hpunctual q hq⟩, inv.waiting, ?_⟩
  intro hlooping t ht
  apply hyoung hlooping t.now
  intro t' ht'
  rw [Option.mem_unique ht' ht]

/-- Two lines twenty seconds apart, shipped by the age check eleven seconds later. -/
def hurriedLines : List Turn := [readTurn 1 [97, 10], readTurn 21 [98, 10], idleTurn 32]

/-- The first of them had waited for 31 of the 50 seconds. -/
theorem hurried_in_time :
    let st := runMain utcConfig hurriedLines
    st.account.shipped.map Prod.fst = sents st.trace ∧
      (∀ q ∈ st.account.shipped, q.1.entries = q.2.map Prod.fst ∧
        ∀ p ∈ q.2, sentAt q ≤ p.2 + maxAgeOfEntry + 20) ∧
      st.account.waiting.map Prod.fst = st.stream.entries ∧
      (st.phase = .looping → ∀ t ∈ hurriedLines.getLast?, ∀ p ∈ st.account.waiting,
        t.now ≤ p.2 + maxAgeOfEntry) := by
  apply shipped_in_time utcConfig 20 hurriedLines ⟨by decide, by decide⟩
  constructor
  · decide
  · intro t ht k
    simp only [hurriedLines, List.mem_cons, List.not_mem_nil, or_false] at ht
    rcases ht with rfl | rfl | rfl <;> simp [readTurn, idleTurn]

end Lokicat.Deadlines

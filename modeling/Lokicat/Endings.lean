import Lokicat.SelectSet

/-!
# How a run ends

The loop leaves at the end of its input only while it watches it. So a process that was
fed without a pause returns 0 when its input is closed, and one that once had to wait too
long does not return at all unless `select` fails.
-/

namespace Lokicat.Endings

open Iteration MainLoop MainSteps SelectSet

/-- What a turn has for a loop that watches the descriptor. -/
inductive Supply where
  | bytes : Supply
  | endOfFile : Supply
  | failure : Supply
  /-- `select` times out. -/
  | silence : Supply
  deriving DecidableEq, Repr

def supply (fd : Nat) (t : Turn) : Supply :=
  match t.waited with
  | .error => .failure
  | .ready f =>
    if f fd then
      match t.read with
      | .error => .failure
      | .data c => if c.bytes = [] then .endOfFile else .bytes
    else .silence

def Waited.failed : Waited → Bool
  | .error => true
  | .ready _ => false

/-- How a run ends for what it is supplied with: nothing else has an effect. -/
def ending (fd : Nat) : List Turn → Phase
  | [] => .looping
  | t :: ts =>
    match supply fd t with
    | .bytes => ending fd ts
    | .endOfFile => .left
    | .failure => .died
    | .silence => if ts.any (fun t => Waited.failed t.waited) then .died else .looping

/-- At a loop head with the descriptor in the set. -/
structure Watching (cfg : Config) (st : State) : Prop where
  phase : st.phase = .looping
  set : st.set = {cfg.fd}

/-- At a loop head with nothing in the set. -/
structure Idle (st : State) : Prop where
  phase : st.phase = .looping
  set : st.set = ∅

section Turn

variable {cfg : Config} {st : State} (t : Turn)

theorem select_watching (set : st.set = {cfg.fd}) (f : Nat → Bool) :
    select (cfg.fd + 1) (ageCheck cfg t.now t.outcome st).set f =
      if f cfg.fd then (1, {cfg.fd}) else (0, ∅) := by
  rw [ageCheck_set, set, select]
  cases hready : f cfg.fd <;> simp [Finset.filter_singleton, hready]

theorem watching_step (h : Watching cfg st) :
    match supply cfg.fd t with
    | .bytes => Watching cfg (stepMain cfg st t)
    | .endOfFile => (stepMain cfg st t).phase = .left
    | .failure => (stepMain cfg st t).phase = .died
    | .silence => Idle (stepMain cfg st t) := by
  have hselect := select_watching t h.set
  have hstep := stepMain_cases cfg t h.phase
  generalize stepMain cfg st t = st' at hstep
  cases hstep with
  | waitFailed waited => simp [supply, waited]
  | idle f waited none =>
    rw [hselect] at none ⊢
    cases hready : f cfg.fd with
    | true => simp [hready] at none
    | false =>
      simp only [supply, waited, hready, Bool.false_eq_true, if_false]
      exact ⟨by simp [h.phase], rfl⟩
  | readFailed f waited some read =>
    rw [hselect] at some
    cases hready : f cfg.fd with
    | true => simp [supply, waited, hready, read]
    | false => simp [hready] at some
  | ended f c waited some read eof =>
    rw [hselect] at some
    cases hready : f cfg.fd with
    | true => simp [supply, waited, hready, read, eof]
    | false => simp [hready] at some
  | data f c waited some read bytes =>
    rw [hselect] at some ⊢
    cases hready : f cfg.fd with
    | true =>
      simp only [supply, waited, hready, read, bytes, if_true, if_false]
      exact ⟨by simp [forward_frame, State.emit, h.phase], by simp [forward_frame, State.emit]⟩
    | false => simp [hready] at some

/-- An empty set stays empty, and only `select` can fail. -/
theorem idle_step (h : Idle st) :
    if Waited.failed t.waited then (stepMain cfg st t).phase = .died
    else Idle (stepMain cfg st t) := by
  obtain ⟨waited, hstep⟩ | ⟨⟨f, waited⟩, hstep⟩ := @stepMain_unwatched cfg st t h.phase h.set
  · simp [Waited.failed, waited, hstep]
  · simp only [Waited.failed, waited, hstep, Bool.false_eq_true, if_false]
    exact ⟨by simp [h.phase], rfl⟩

end Turn

section Run

variable {cfg : Config} {st : State}

theorem run_stopped (h : st.phase ≠ .looping) (turns : List Turn) :
    run (stepMain cfg) st turns = st := by
  induction turns with
  | nil => rfl
  | cons t turns ih => rw [run_cons, stepMain_stopped cfg t h, ih]

theorem idle_run (h : Idle st) (turns : List Turn) :
    (run (stepMain cfg) st turns).phase =
      if turns.any (fun t => Waited.failed t.waited) then .died else .looping := by
  induction turns generalizing st with
  | nil => simp [h.phase]
  | cons t turns ih =>
    have hstep : if Waited.failed t.waited then (stepMain cfg st t).phase = .died
        else Idle (stepMain cfg st t) := idle_step t h
    rw [run_cons, List.any_cons]
    cases hfailed : Waited.failed t.waited with
    | true =>
      simp only [hfailed, if_true] at hstep
      rw [run_stopped (by simp [hstep]), hstep]
      simp
    | false =>
      simp only [hfailed, Bool.false_eq_true, if_false] at hstep
      rw [ih hstep, Bool.false_or]

theorem watching_run (h : Watching cfg st) (turns : List Turn) :
    (run (stepMain cfg) st turns).phase = ending cfg.fd turns := by
  induction turns generalizing st with
  | nil => exact h.phase
  | cons t turns ih =>
    have hstep := watching_step t h
    rw [run_cons, ending]
    cases hsupply : supply cfg.fd t with
    | bytes =>
      rw [hsupply] at hstep
      exact ih hstep
    | endOfFile =>
      simp only [hsupply] at hstep
      rw [run_stopped (by simp [hstep]), hstep]
    | failure =>
      simp only [hsupply] at hstep
      rw [run_stopped (by simp [hstep]), hstep]
    | silence =>
      rw [hsupply] at hstep
      exact idle_run hstep turns

end Run

section Ending

variable {fd : Nat}

/-- The first turn without bytes decides. -/
theorem ending_fed {fed : List Turn} (h : ∀ t ∈ fed, supply fd t = .bytes) (turns : List Turn) :
    ending fd (fed ++ turns) = ending fd turns := by
  induction fed with
  | nil => rfl
  | cons t fed ih =>
    obtain ⟨ht, hfed⟩ := List.forall_mem_cons.mp h
    rw [List.cons_append, ending, ht]
    exact ih hfed

theorem fed_or_first (fd : Nat) (turns : List Turn) :
    (∀ t ∈ turns, supply fd t = .bytes) ∨ ∃ fed t later, turns = fed ++ t :: later ∧
      (∀ t' ∈ fed, supply fd t' = .bytes) ∧ supply fd t ≠ .bytes := by
  induction turns with
  | nil => exact .inl (by simp)
  | cons t turns ih =>
    by_cases ht : supply fd t = .bytes
    · obtain hall | ⟨fed, u, later, rfl, hfed, hu⟩ := ih
      · exact .inl (List.forall_mem_cons.mpr ⟨ht, hall⟩)
      · exact .inr ⟨t :: fed, u, later, rfl, List.forall_mem_cons.mpr ⟨ht, hfed⟩, hu⟩
    · exact .inr ⟨[], t, turns, rfl, by simp, ht⟩

/-- A run that is over was ended by the first turn without bytes. -/
theorem ending_iff {turns : List Turn} {p : Phase} (stopped : p ≠ .looping)
    {Q : Turn → List Turn → Prop} (other : ∀ t later, Q t later → supply fd t ≠ .bytes)
    (first : ∀ t later, supply fd t ≠ .bytes → (ending fd (t :: later) = p ↔ Q t later)) :
    ending fd turns = p ↔ ∃ fed t later, turns = fed ++ t :: later ∧
      (∀ t' ∈ fed, supply fd t' = .bytes) ∧ Q t later := by
  constructor
  · intro hp
    obtain hall | ⟨fed, t, later, rfl, hfed, ht⟩ := fed_or_first fd turns
    · have hlooping := ending_fed hall []
      rw [List.append_nil, hp] at hlooping
      exact absurd hlooping stopped
    · rw [ending_fed hfed] at hp
      exact ⟨fed, t, later, rfl, hfed, (first t later ht).mp hp⟩
  · rintro ⟨fed, t, later, rfl, hfed, hq⟩
    rw [ending_fed hfed]
    exact (first t later (other t later hq)).mpr hq

/-- What the first turn without bytes decides. -/
theorem ending_first {t : Turn} (later : List Turn) (h : supply fd t ≠ .bytes) :
    (ending fd (t :: later) = .left ↔ supply fd t = .endOfFile) ∧
      (ending fd (t :: later) = .died ↔ supply fd t = .failure ∨
        supply fd t = .silence ∧ ∃ t' ∈ later, t'.waited = .error) ∧
      ending fd (t :: later) ≠ .spinning := by
  have hfailed : later.any (fun t => Waited.failed t.waited) = true ↔
      ∃ t' ∈ later, t'.waited = .error := by
    rw [List.any_eq_true]
    refine exists_congr fun t' => and_congr_right fun _ => ?_
    cases hwaited : t'.waited <;> simp [Waited.failed]
  cases hsupply : supply fd t with
  | bytes => exact absurd hsupply h
  | endOfFile => simp [ending, hsupply]
  | failure => simp [ending, hsupply]
  | silence =>
    rw [← hfailed]
    cases hany : later.any (fun t => Waited.failed t.waited) <;> simp [ending, hsupply, hany]

end Ending

/-- A run leaves its loop exactly if bytes came in every turn before its input ended. It dies
exactly if bytes came until `select` or `read` failed, or until `select` timed out and later failed.
Nothing else ends it. -/
theorem run_ends (cfg : Config) (turns : List Turn) :
    let st := runMain cfg turns
    (st.phase = .left ↔ ∃ fed t later, turns = fed ++ t :: later ∧
      (∀ t' ∈ fed, supply cfg.fd t' = .bytes) ∧ supply cfg.fd t = .endOfFile) ∧
    (st.phase = .died ↔ ∃ fed t later, turns = fed ++ t :: later ∧
      (∀ t' ∈ fed, supply cfg.fd t' = .bytes) ∧ (supply cfg.fd t = .failure ∨
        supply cfg.fd t = .silence ∧ ∃ t' ∈ later, t'.waited = .error)) ∧
    st.phase ≠ .spinning := by
  intro st
  have hstart : Watching cfg (init cfg) := ⟨rfl, rfl⟩
  have hrun : st.phase = ending cfg.fd turns := watching_run hstart turns
  rw [hrun]
  refine ⟨?_, ?_, ?_⟩
  · apply ending_iff (by decide)
    · intro t later hclosed
      simp [hclosed]
    · intro t later ht
      exact (ending_first later ht).1
  · apply ending_iff (by decide)
    · intro t later hfailed
      rcases hfailed with h | ⟨h, -⟩ <;> simp [h]
    · intro t later ht
      exact (ending_first later ht).2.1
  · rw [ne_eq, ending_iff (Q := fun _ _ => False) (by decide) (fun _ _ h => h.elim)]
    · simp
    · intro t later ht
      exact iff_of_false (ending_first later ht).2.2 id

/-- The end of the input is noticed right after a byte, but not after a pause. -/
example : (runMain utcConfig [readTurn 1 [97], readTurn 2 []]).phase = .left ∧
    (runMain utcConfig [readTurn 1 [97], idleTurn 2, readTurn 3 []]).phase = .looping := by decide

end Lokicat.Endings

import Lokicat.MainSteps

/-!
# The descriptor set between iterations

`select` overwrites the set it is given, and the loop hands it the result of
the last call. After a time-out the set is empty for good: standard input is
watched exactly as long as no call has timed out.
-/

namespace Lokicat.SelectSet

open Iteration MainLoop MainSteps

/-- The `select` of this turn finds input on the descriptor, if it watches it. -/
def Ready (fd : Nat) (t : Turn) : Prop := ∃ f, t.waited = .ready f ∧ f fd = true

/-- The set an iteration hands to `select`. -/
def handedSet (cfg : Config) (st : State) (t : Turn) : Finset Nat :=
  (ageCheck cfg t.now t.outcome st).set

theorem mem_select (fd : Nat) (set : Finset Nat) (f : Nat → Bool) :
    fd ∈ (select (fd + 1) set f).2 ↔ fd ∈ set ∧ f fd = true := by
  simp [select]

theorem select_empty (nfds : Nat) (f : Nat → Bool) : select nfds ∅ f = (0, ∅) := by
  simp [select]

/-- A time-out empties the set, and nothing else happens. -/
theorem stepMain_timeout {cfg : Config} {st : State} {t : Turn} {f : Nat → Bool}
    (h : st.phase = .looping) (waited : t.waited = .ready f)
    (none : (select (cfg.fd + 1) st.set f).2 = ∅) :
    stepMain cfg st t = { ageCheck cfg t.now t.outcome st with set := ∅ } := by
  have hselect : select (cfg.fd + 1) st.set f = (0, ∅) :=
    Prod.ext (by rw [← Finset.card_empty, ← none]; rfl) none
  simp only [stepMain, h, waited, ageCheck_set, hselect, if_true]

/-- With an empty set `select` fails or times out, whatever there is to read. -/
theorem stepMain_unwatched {cfg : Config} {st : State} (t : Turn) (h : st.phase = .looping)
    (empty : st.set = ∅) :
    t.waited = .error ∧
        stepMain cfg st t = { ageCheck cfg t.now t.outcome st with phase := .died } ∨
      (∃ f, t.waited = .ready f) ∧
        stepMain cfg st t = { ageCheck cfg t.now t.outcome st with set := ∅ } := by
  cases hwaited : t.waited with
  | error => exact .inl ⟨rfl, by simp only [stepMain, h, hwaited]⟩
  | ready f =>
    refine .inr ⟨⟨f, rfl⟩, stepMain_timeout h hwaited ?_⟩
    rw [empty, select_empty]

/-- One iteration keeps the descriptor in the set exactly when it was there and was ready. -/
theorem stepMain_mem_set {cfg : Config} {st : State} {t : Turn} (h : st.phase = .looping)
    (h' : (stepMain cfg st t).phase = .looping) :
    cfg.fd ∈ (stepMain cfg st t).set ↔ cfg.fd ∈ st.set ∧ Ready cfg.fd t := by
  have hstep := stepMain_cases cfg t h
  generalize stepMain cfg st t = st' at hstep h'
  cases hstep with
  | waitFailed => cases h'
  | readFailed => cases h'
  | ended => cases h'
  | idle f waited none =>
    simp only [mem_select, ageCheck_set, Ready, waited, Waited.ready.injEq,
      exists_eq_left']
  | data f c waited some read bytes =>
    simp only [(forward_frame _ _ _ _).1, State.emit, mem_select, ageCheck_set, Ready,
      waited, Waited.ready.injEq, exists_eq_left']

/-- A loop head is reached from a loop head. -/
theorem looping_before {cfg : Config} {st : State} {t : Turn}
    (h : (stepMain cfg st t).phase = .looping) : st.phase = .looping := by
  by_contra hne
  rw [stepMain_stopped cfg t hne] at h
  exact hne h

/-- At every loop head `select` is handed standard input exactly when no call
of the run so far has timed out. -/
theorem watched_iff_no_timeout (cfg : Config) (turns : List Turn) (next : Turn)
    (h : (runMain cfg turns).phase = .looping) :
    cfg.fd ∈ handedSet cfg (runMain cfg turns) next ↔ ∀ t ∈ turns, Ready cfg.fd t := by
  simp only [handedSet, ageCheck_set]
  induction turns using List.reverseRecOn with
  | nil => simp [runMain, init]
  | append_singleton turns t ih =>
    have hlast : runMain cfg (turns ++ [t]) = stepMain cfg (runMain cfg turns) t := run_concat ..
    rw [hlast] at h ⊢
    have hbefore := looping_before h
    rw [stepMain_mem_set hbefore h, ih hbefore]
    simp only [List.mem_append, List.mem_singleton]
    constructor
    · rintro ⟨hall, ht⟩ u (hu | rfl)
      · exact hall u hu
      · exact ht
    · intro hall
      exact ⟨fun u hu => hall u (Or.inl hu), hall t (Or.inr rfl)⟩

theorem watched_after_byte :
    (runMain utcConfig [readTurn 1 [97]]).phase = .looping ∧
      (utcConfig.fd ∈ handedSet utcConfig (runMain utcConfig [readTurn 1 [97]]) (idleTurn 1) ↔
        ∀ t ∈ [readTurn 1 [97]], Ready utcConfig.fd t) :=
  ⟨by decide, watched_iff_no_timeout utcConfig [readTurn 1 [97]] (idleTurn 1) (by decide)⟩

/-- One quiet half second and the set handed to the next `select` is empty. -/
theorem not_always_watched :
    ¬ ∀ (cfg : Config) (turns : List Turn) (next : Turn),
      (runMain cfg turns).phase = .looping →
        cfg.fd ∈ handedSet cfg (runMain cfg turns) next := by
  intro h
  have hempty :
      utcConfig.fd ∉ handedSet utcConfig (runMain utcConfig [idleTurn 1]) (readTurn 1 [97]) := by
    decide
  exact hempty (h utcConfig [idleTurn 1] (readTurn 1 [97]) (by decide))

end Lokicat.SelectSet

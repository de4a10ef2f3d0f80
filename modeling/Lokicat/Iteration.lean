import Mathlib.Data.List.Induction

/-!
# Loops and runs

Two forms of iteration. A `loop` repeats a body that either goes round again
or leaves; it takes a bound on the number of passes and answers `none` when
the bound is too small, so termination is a statement, never an assumption.
A `run` feeds a list of inputs to a total step, one input a step.
-/

namespace Lokicat.Iteration

variable {σ ε ρ : Type}

/-- One pass of a loop body: round again with a new state, or out with a result. -/
inductive Pass (σ ρ : Type) where
  | again : σ → Pass σ ρ
  | leave : ρ → Pass σ ρ

def loop (body : σ → Pass σ ρ) : Nat → σ → Option ρ
  | 0, _ => none
  | n + 1, s =>
    match body s with
    | .again s' => loop body n s'
    | .leave r => some r

theorem loop_again {body : σ → Pass σ ρ} {s s' : σ} (h : body s = .again s') (n : Nat) :
    loop body (n + 1) s = loop body n s' := by
  simp only [loop, h]

theorem loop_leave {body : σ → Pass σ ρ} {s : σ} {r : ρ} (h : body s = .leave r) (n : Nat) :
    loop body (n + 1) s = some r := by
  simp only [loop, h]

/-- Total correctness: an invariant that every pass keeps while a measure
falls gives an exit within the measure, and the exit has the postcondition. -/
theorem loop_correct (body : σ → Pass σ ρ) (Inv : σ → Prop) (Post : ρ → Prop)
    (measure : σ → Nat)
    (again : ∀ s s', Inv s → body s = .again s' → Inv s' ∧ measure s' < measure s)
    (leave : ∀ s r, Inv s → body s = .leave r → Post r)
    (n : Nat) (s : σ) (hs : Inv s) (hn : measure s < n) :
    ∃ r, loop body n s = some r ∧ Post r := by
  induction n generalizing s with
  | zero => omega
  | succ n ih =>
    cases hb : body s with
    | again s' =>
      obtain ⟨hinv, hlt⟩ := again s s' hs hb
      obtain ⟨r, hr, hpost⟩ := ih s' hinv (by omega)
      exact ⟨r, by rw [loop_again hb, hr], hpost⟩
    | leave r => exact ⟨r, loop_leave hb n, leave s r hs hb⟩

/-- The state after a list of inputs, one step for each. -/
def run (step : σ → ε → σ) (s : σ) (inputs : List ε) : σ := inputs.foldl step s

@[simp] theorem run_nil (step : σ → ε → σ) (s : σ) : run step s [] = s := rfl

@[simp] theorem run_cons (step : σ → ε → σ) (s : σ) (e : ε) (es : List ε) :
    run step s (e :: es) = run step (step s e) es := rfl

theorem run_append (step : σ → ε → σ) (s : σ) (es fs : List ε) :
    run step s (es ++ fs) = run step (run step s es) fs := by
  simp only [run, List.foldl_append]

theorem run_concat (step : σ → ε → σ) (s : σ) (es : List ε) (e : ε) :
    run step s (es ++ [e]) = step (run step s es) e := by
  rw [run_append, run_cons, run_nil]

/-- An invariant of the start that every step keeps holds after every run. -/
theorem run_invariant {step : σ → ε → σ} (Inv : σ → Prop) (s : σ) (start : Inv s)
    (keep : ∀ s e, Inv s → Inv (step s e)) (es : List ε) : Inv (run step s es) := by
  induction es generalizing s with
  | nil => exact start
  | cons e es ih => exact ih (step s e) (keep s e start)

/-- The same for a relation between the inputs so far and the state. -/
theorem run_relation {step : σ → ε → σ} (R : List ε → σ → Prop) (s : σ) (start : R [] s)
    (keep : ∀ es s e, R es s → R (es ++ [e]) (step s e)) (es : List ε) :
    R es (run step s es) := by
  induction es using List.reverseRecOn with
  | nil => exact start
  | append_singleton es e ih =>
    rw [run_concat]
    exact keep es _ e ih

/-- What was written one by one is read one by one. -/
theorem mapM_map {α β γ : Type} {f : β → Option γ} {g : α → β} {k : α → γ} {xs : List α}
    (h : ∀ x ∈ xs, f (g x) = some (k x)) : (xs.map g).mapM f = some (xs.map k) := by
  induction xs with
  | nil => rfl
  | cons x xs ih =>
    obtain ⟨hx, hxs⟩ := List.forall_mem_cons.mp h
    rw [List.map_cons, List.mapM_cons, hx, ih hxs]
    rfl

end Lokicat.Iteration

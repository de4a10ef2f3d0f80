import Lokicat.Heaps
import Mathlib.Data.List.Forall2

/-!
# Programs in step

Two loops go in step when related states lead to passes that both go round again or
both leave, related as before. A relation that one step of two runs keeps for
related inputs holds after them. A loop or a run whose steps may fail succeeds
if it goes in step with one that cannot.
-/

namespace Lokicat.LockStep

open Heaps Iteration

variable {α γ σ ρ δ ε : Type}

/-- Two loops in step: if one ends so does the other, after as many passes. -/
theorem loop_inStep {body : γ → Pass γ α} {other : σ → Pass σ ρ} (Rel : γ → σ → Prop)
    (Out : α → ρ → Prop) (step : ∀ s t, Rel s t → InStep Rel Out (body s) (other t)) {n : Nat}
    {s : γ} {t : σ} {x : α} {y : ρ} (hrel : Rel s t) (hx : loop body n s = some x)
    (hy : loop other n t = some y) : Out x y := by
  induction n generalizing s t with
  | zero => cases hx
  | succ n ih =>
    have h := step s t hrel
    generalize hpass : body s = p at h
    generalize hother : other t = q at h
    cases h with
    | again h =>
      rw [loop_again hpass] at hx
      rw [loop_again hother] at hy
      exact ih h hx hy
    | leave h =>
      rw [loop_leave hpass, Option.some.injEq] at hx
      rw [loop_leave hother, Option.some.injEq] at hy
      subst hx hy
      exact h

/-- Two runs in step on inputs that are related one by one. -/
theorem run_inStep {step : γ → ε → γ} {other : σ → δ → σ} (Rel : γ → σ → Prop)
    (Input : ε → δ → Prop)
    (keep : ∀ s t e d, Rel s t → Input e d → Rel (step s e) (other t d)) {s : γ} {t : σ}
    (hrel : Rel s t) {es : List ε} {ds : List δ} (inputs : List.Forall₂ Input es ds) :
    Rel (run step s es) (run other t ds) := by
  induction inputs generalizing s t with
  | nil => exact hrel
  | cons hinput _ ih => exact ih (keep _ _ _ _ hrel hinput)

/-- The loop of `Iteration.loop` with a body that may fail. -/
def tryLoop (body : γ → Option (Pass γ α)) : Nat → γ → Option α
  | 0, _ => none
  | n + 1, s => do
    match ← body s with
    | .again s' => tryLoop body n s'
    | .leave r => some r

/-- A loop that may fail, in step with a loop that ends, ends with it. -/
theorem tryLoop_inStep {body : γ → Option (Pass γ α)} {pureBody : σ → Pass σ ρ}
    (Rel : γ → σ → Prop) (Out : α → ρ → Prop)
    (step : ∀ s t, Rel s t → ∃ r, body s = some r ∧ InStep Rel Out r (pureBody t))
    {n : Nat} {s : γ} {t : σ} {y : ρ} (hrel : Rel s t) (hloop : loop pureBody n t = some y) :
    ∃ x, tryLoop body n s = some x ∧ Out x y := by
  induction n generalizing s t with
  | zero => cases hloop
  | succ n ih =>
    obtain ⟨r, hr, h⟩ := step s t hrel
    generalize hpass : pureBody t = q at h
    cases h with
    | again h =>
      rw [loop_again hpass] at hloop
      obtain ⟨x, hx, hout⟩ := ih h hloop
      exact ⟨x, by simp [tryLoop, hr, hx], hout⟩
    | leave h =>
      rw [loop_leave hpass, Option.some.injEq] at hloop
      subst hloop
      exact ⟨_, by simp [tryLoop, hr], h⟩

/-- A run whose steps may fail, in step with a run of total steps. -/
theorem foldlM_inStep {f : γ → ε → Option γ} {g : σ → ε → σ} (Rel : γ → σ → Prop)
    (step : ∀ s t e, Rel s t → ∃ s', f s e = some s' ∧ Rel s' (g t e)) {s : γ} {t : σ}
    (hrel : Rel s t) (es : List ε) :
    ∃ s', es.foldlM f s = some s' ∧ Rel s' (run g t es) := by
  induction es generalizing s t with
  | nil => exact ⟨s, rfl, hrel⟩
  | cons e es ih =>
    obtain ⟨s', hs', hrel'⟩ := step s t e hrel
    obtain ⟨s'', hs'', hrel''⟩ := ih hrel'
    exact ⟨s'', by simp [List.foldlM_cons, hs', hs''], hrel''⟩

end Lokicat.LockStep

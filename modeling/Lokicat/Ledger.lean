import Lokicat.Iteration

/-!
# Shipping ledgers

An account of items put into a waiting batch and of shipments that take the
whole batch. Nothing put is ever lost, doubled or moved: what has been shipped
followed by what waits is what was put.
-/

namespace Lokicat.Ledger

open Iteration

variable {α κ : Type}

inductive Move (α κ : Type) where
  | put : α → Move α κ
  | ship : κ → Move α κ

structure Account (α κ : Type) where
  shipped : List (κ × List α)
  waiting : List α

def empty : Account α κ := ⟨[], []⟩

def move (l : Account α κ) : Move α κ → Account α κ
  | .put a => { l with waiting := l.waiting ++ [a] }
  | .ship k => ⟨l.shipped ++ [(k, l.waiting)], []⟩

def replay (ms : List (Move α κ)) : Account α κ := run move empty ms

/-- The items put, in order. -/
def puts : List (Move α κ) → List α
  | [] => []
  | .put a :: ms => a :: puts ms
  | .ship _ :: ms => puts ms

/-- The items of the shipments of some kinds, in order. -/
def Account.items (l : Account α κ) (kind : κ → Bool) : List α :=
  (l.shipped.filter (fun s => kind s.1)).flatMap Prod.snd

@[simp] theorem replay_nil : replay ([] : List (Move α κ)) = empty := rfl

@[simp] theorem replay_put (ms : List (Move α κ)) (a : α) :
    replay (ms ++ [.put a]) = { replay ms with waiting := (replay ms).waiting ++ [a] } := by
  simp only [replay, run_concat, move]

@[simp] theorem replay_ship (ms : List (Move α κ)) (k : κ) :
    replay (ms ++ [.ship k]) = ⟨(replay ms).shipped ++ [(k, (replay ms).waiting)], []⟩ := by
  simp only [replay, run_concat, move]

theorem puts_append (ms ns : List (Move α κ)) : puts (ms ++ ns) = puts ms ++ puts ns := by
  induction ms with
  | nil => rfl
  | cons m ms ih => cases m <;> simp [puts, ih]

/-- Conservation: the shipments and the waiting batch together are the items put. -/
theorem replay_conserves (ms : List (Move α κ)) :
    (replay ms).shipped.flatMap Prod.snd ++ (replay ms).waiting = puts ms := by
  induction ms using List.reverseRecOn with
  | nil => rfl
  | append_singleton ms m ih =>
    cases m with
    | put a =>
      rw [replay_put, puts_append, ← ih]
      simp [puts]
    | ship k =>
      rw [replay_ship, puts_append, ← ih]
      simp [puts]

/-- Every item put waits, or was shipped in one kind or in the other. -/
theorem puts_perm (ms : List (Move α κ)) (kind : κ → Bool) :
    (puts ms).Perm ((replay ms).items kind ++ (replay ms).items (fun k => !kind k) ++
      (replay ms).waiting) := by
  rw [← replay_conserves ms]
  apply List.Perm.append_right
  rw [Account.items, Account.items, ← List.flatMap_append]
  exact (List.filter_append_perm (fun s : κ × List α => kind s.1) _).symm.flatMap_right _

/-- Shipments of one size and a smaller rest are determined by the items. -/
theorem shipments_unique {n : Nat} {xs ys : List (List α)} {v w : List α}
    (hx : ∀ x ∈ xs, x.length = n) (hy : ∀ y ∈ ys, y.length = n) (hv : v.length < n)
    (hw : w.length < n) (h : xs.flatten ++ v = ys.flatten ++ w) : xs = ys ∧ v = w := by
  induction xs generalizing ys with
  | nil =>
    cases ys with
    | nil => exact ⟨rfl, h⟩
    | cons y ys =>
      have hlength := congrArg List.length h
      have hfirst := hy y (by simp)
      simp only [List.flatten_nil, List.nil_append, List.flatten_cons, List.length_append]
        at hlength
      omega
  | cons x xs ih =>
    have hfirst := hx x (by simp)
    cases ys with
    | nil =>
      have hlength := congrArg List.length h
      simp only [List.flatten_nil, List.nil_append, List.flatten_cons, List.length_append]
        at hlength
      omega
    | cons y ys =>
      rw [List.flatten_cons, List.flatten_cons, List.append_assoc, List.append_assoc] at h
      obtain ⟨hxy, hrest⟩ := List.append_inj h (hfirst.trans (hy y (by simp)).symm)
      obtain ⟨hxs, hvw⟩ := ih (fun x hx' => hx x (by simp [hx'])) (fun y hy' => hy y (by simp [hy']))
        hrest
      exact ⟨by rw [hxy, hxs], hvw⟩

end Lokicat.Ledger

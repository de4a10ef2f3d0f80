import Lokicat.Iteration
import Mathlib.Algebra.Order.Group.Multiset
import Mathlib.Tactic.Abel

/-!
# Allocated blocks

A heap hands out addresses that it has never handed out before. A program over
it may allocate, free, read and write, and fails when it touches a block that is
not in use: a run without failure has no double free and no use after free.

`Owns h m` says that the blocks in use are exactly those of the multiset `m`, so a
block that nobody accounts for is as visible as a missing one. `Runs` is total
correctness over such multisets.
-/

namespace Lokicat.Heaps

open Iteration

variable {β α γ : Type}

/-- Addresses from `next` on have never been handed out. -/
structure Heap (β : Type) where
  next : Nat
  cell : Nat → Option β
  fresh : ∀ a, next ≤ a → cell a = none

def Heap.empty : Heap β := ⟨0, fun _ => none, fun _ _ => rfl⟩

/-- A block of the heap is in use. -/
def Heap.Live (h : Heap β) (a : Nat) : Prop := (h.cell a).isSome

/-- Programs over a heap of blocks, which may fail. -/
abbrev Prog (β : Type) : Type → Type := StateT (Heap β) Option

def alloc (b : β) : Prog β Nat := fun h =>
  some (h.next,
    { next := h.next + 1
      cell := Function.update h.cell h.next (some b)
      fresh := by
        intro a ha
        rw [Function.update_of_ne (by omega)]
        exact h.fresh a (by omega) })

def load (a : Nat) : Prog β β := fun h => (h.cell a).map (fun b => (b, h))

/-- The heap with a block in use replaced or given back. -/
def put (a : Nat) (b : Option β) : Prog β Unit := fun h =>
  if hlive : (h.cell a).isSome then
    some ((),
      { h with
        cell := Function.update h.cell a b
        fresh := by
          intro c hc
          have hne : c ≠ a := by
            rintro rfl
            rw [h.fresh c hc] at hlive
            cases hlive
          rw [Function.update_of_ne hne]
          exact h.fresh c hc })
  else none

def store (a : Nat) (b : β) : Prog β Unit := put a (some b)

def free (a : Nat) : Prog β Unit := put a none

/-- The loop of `Iteration.loop` with a body that runs on the heap. -/
def loopM (body : γ → Prog β (Pass γ α)) : Nat → γ → Prog β α
  | 0, _ => failure
  | n + 1, s => do
    match ← body s with
    | .again s' => loopM body n s'
    | .leave r => pure r

/-- The blocks in use are exactly these. -/
structure Owns (h : Heap β) (m : Multiset (Nat × β)) : Prop where
  nodup : (m.map Prod.fst).Nodup
  exact : ∀ a b, h.cell a = some b ↔ (a, b) ∈ m

theorem owns_empty : Owns (Heap.empty : Heap β) 0 where
  nodup := by simp
  exact := by simp [Heap.empty]

theorem owns_live {h : Heap β} {m : Multiset (Nat × β)} (own : Owns h m) (a : Nat) :
    h.Live a ↔ a ∈ m.map Prod.fst := by
  rw [Heap.Live, Option.isSome_iff_exists, Multiset.mem_map]
  constructor
  · rintro ⟨b, hb⟩
    exact ⟨(a, b), (own.exact a b).mp hb, rfl⟩
  · rintro ⟨⟨a', b⟩, hmem, rfl⟩
    exact ⟨b, (own.exact a' b).mpr hmem⟩

/-- What is in use is determined. -/
theorem owns_unique {h : Heap β} {m m' : Multiset (Nat × β)} (own : Owns h m) (own' : Owns h m') :
    m = m' := by
  refine (Multiset.Nodup.ext own.nodup.of_map own'.nodup.of_map).mpr ?_
  rintro ⟨a, b⟩
  rw [← own.exact, own'.exact]

theorem owns_functional {h : Heap β} {m : Multiset (Nat × β)} (own : Owns h m) {a : Nat} {b c : β}
    (hb : (a, b) ∈ m) (hc : (a, c) ∈ m) : b = c := by
  rw [← own.exact] at hb hc
  rw [hb, Option.some.injEq] at hc
  exact hc

theorem owns_next {h : Heap β} {m : Multiset (Nat × β)} (own : Owns h m) :
    h.next ∉ m.map Prod.fst := by
  rw [← owns_live own, Heap.Live, h.fresh _ (le_refl _)]
  simp

/-- From a heap of exactly these blocks the program ends without failure, with a
result and a heap of exactly the blocks that the postcondition allows. -/
def Runs (p : Prog β α) (pre : Multiset (Nat × β)) (post : α → Multiset (Nat × β) → Prop) : Prop :=
  ∀ h, Owns h pre → ∃ r h' m, p h = some (r, h') ∧ Owns h' m ∧ post r m

/-- The program has one result and one outcome for the blocks. -/
abbrev Ends (p : Prog β α) (pre : Multiset (Nat × β)) (r : α) (m : Multiset (Nat × β)) : Prop :=
  Runs p pre fun r' m' => r' = r ∧ m' = m

section Rules

variable {pre m : Multiset (Nat × β)} {post : α → Multiset (Nat × β) → Prop}

theorem runs_pure {r : α} (h : post r pre) : Runs (pure r : Prog β α) pre post :=
  fun heap own => ⟨r, heap, pre, rfl, own, h⟩

theorem ends_pure (r : α) (m : Multiset (Nat × β)) : Ends (pure r) m r m := runs_pure ⟨rfl, rfl⟩

theorem runs_bind {p : Prog β γ} {f : γ → Prog β α} {mid : γ → Multiset (Nat × β) → Prop}
    (hp : Runs p pre mid) (hf : ∀ r m, mid r m → Runs (f r) m post) : Runs (p >>= f) pre post := by
  intro heap own
  obtain ⟨r, heap', m, hrun, own', hmid⟩ := hp heap own
  obtain ⟨r', heap'', m', hrun', own'', hpost⟩ := hf r m hmid heap' own'
  refine ⟨r', heap'', m', ?_, own'', hpost⟩
  show (p heap).bind (fun q => f q.1 q.2) = _
  rw [hrun]
  exact hrun'

theorem runs_then {p : Prog β γ} {f : γ → Prog β α} {r : γ} (hp : Ends p pre r m)
    (hf : Runs (f r) m post) : Runs (p >>= f) pre post := by
  refine runs_bind hp ?_
  rintro _ _ ⟨rfl, rfl⟩
  exact hf

theorem runs_mono {p : Prog β α} {post' : α → Multiset (Nat × β) → Prop} (h : Runs p pre post)
    (himp : ∀ r m, post r m → post' r m) : Runs p pre post' := by
  intro heap own
  obtain ⟨r, heap', m, hrun, own', hpost⟩ := h heap own
  exact ⟨r, heap', m, hrun, own', himp r m hpost⟩

/-- A program has one result, so what two postconditions say holds of the same. -/
theorem runs_and {p : Prog β α} {post' : α → Multiset (Nat × β) → Prop} (h : Runs p pre post)
    (h' : Runs p pre post') : Runs p pre fun r m => post r m ∧ post' r m := by
  intro heap own
  obtain ⟨r, heap', m, hrun, own', hpost⟩ := h heap own
  obtain ⟨r', heap'', m', hrun', own'', hpost'⟩ := h' heap own
  rw [hrun, Option.some.injEq, Prod.mk.injEq] at hrun'
  obtain ⟨rfl, rfl⟩ := hrun'
  rw [owns_unique own'' own'] at hpost'
  exact ⟨r, heap', m, hrun, own', hpost, hpost'⟩

theorem runs_alloc (b : β) (pre : Multiset (Nat × β)) :
    Runs (alloc b) pre (fun a m => m = pre + {(a, b)}) := by
  intro heap own
  refine ⟨heap.next, _, _, rfl, ⟨?_, ?_⟩, rfl⟩
  · rw [Multiset.map_add, Multiset.map_singleton, add_comm, Multiset.singleton_add,
      Multiset.nodup_cons]
    exact ⟨owns_next own, own.nodup⟩
  · intro a c
    rw [Multiset.mem_add, Multiset.mem_singleton, Prod.mk.injEq, ← own.exact]
    by_cases ha : a = heap.next
    · subst ha
      simp [heap.fresh _ (le_refl _), eq_comm]
    · simp [ha]

theorem mem_last (m : Multiset γ) (x : γ) : x ∈ m + {x} := by simp

theorem ends_load {a : Nat} {b : β} (hmem : (a, b) ∈ m) : Ends (load a) m b m := by
  intro heap own
  have hcell := (own.exact a b).mpr hmem
  exact ⟨b, heap, m, by simp [load, hcell], own, rfl, rfl⟩

/-- A block that is accounted for is replaced, or given back. -/
theorem ends_put {a : Nat} {b : β} (c : Option β) (hpre : pre = m + {(a, b)}) :
    Ends (put a c) pre () (m + c.elim 0 fun c => {(a, c)}) := by
  subst hpre
  intro heap own
  have hcell : heap.cell a = some b := (own.exact a b).mpr (by simp)
  have hlive : (heap.cell a).isSome := by rw [hcell]; rfl
  have hnodup := own.nodup
  rw [Multiset.map_add, Multiset.map_singleton, add_comm, Multiset.singleton_add,
    Multiset.nodup_cons] at hnodup
  have hother : ∀ d, (a, d) ∉ m := fun d hd => hnodup.1 (Multiset.mem_map.mpr ⟨_, hd, rfl⟩)
  refine ⟨(), _, _, dif_pos hlive, ⟨?_, ?_⟩, rfl, rfl⟩
  · cases c with
    | none => simpa using hnodup.2
    | some c =>
      rw [Option.elim_some, Multiset.map_add, Multiset.map_singleton, add_comm,
        Multiset.singleton_add, Multiset.nodup_cons]
      exact hnodup
  · intro x y
    by_cases hx : x = a
    · subst hx
      cases c <;> simp [hother, eq_comm]
    · have hexact := own.exact x y
      rw [Multiset.mem_add, Multiset.mem_singleton, Prod.mk.injEq] at hexact
      cases c <;> simp [hx, hexact]

theorem ends_store {a : Nat} {b : β} (c : β) (hpre : pre = m + {(a, b)}) :
    Ends (store a c) pre () (m + {(a, c)}) := ends_put (some c) hpre

theorem ends_free {a : Nat} {b : β} (hpre : pre = m + {(a, b)}) : Ends (free a) pre () m := by
  have h := ends_put none hpre
  rw [Option.elim_none, add_zero] at h
  exact h

/-- Reading a list of items one by one. -/
theorem ends_mapM {f : γ → Prog β α} {ι : Type} (a : ι → γ) (b : ι → α) {xs : List ι}
    (h : ∀ x ∈ xs, Ends (f (a x)) m (b x) m) : Ends ((xs.map a).mapM f) m (xs.map b) m := by
  induction xs with
  | nil => exact ends_pure [] m
  | cons x xs ih =>
    rw [List.map_cons, List.mapM_cons]
    refine runs_then (h x (by simp)) ?_
    refine runs_then (ih fun y hy => h y (by simp [hy])) ?_
    exact ends_pure _ m

/-- Giving the blocks of a list of items back one by one. -/
theorem ends_forM {f : γ → Prog β Unit} {ι : Type} (a : ι → γ) (c : ι → Multiset (Nat × β))
    {xs : List ι} (h : ∀ x ∈ xs, ∀ m, Ends (f (a x)) (c x + m) () m) :
    Ends ((xs.map a).forM f) ((xs.map c).sum + m) () m := by
  induction xs with
  | nil =>
    rw [List.map_nil, List.map_nil, List.sum_nil, zero_add]
    exact ends_pure () m
  | cons x xs ih =>
    rw [List.map_cons, List.map_cons, List.sum_cons, add_assoc]
    exact runs_then (h x (by simp) _) (ih fun y hy => h y (by simp [hy]))

/-- From a heap of exactly these blocks the program fails. -/
def Fails (p : Prog β α) (pre : Multiset (Nat × β)) : Prop := ∀ h, Owns h pre → p h = none

theorem fails_first {p : Prog β γ} (h : Fails p pre) (f : γ → Prog β α) : Fails (p >>= f) pre := by
  intro heap own
  show (p heap).bind (fun q => f q.1 q.2) = none
  rw [h heap own]
  rfl

/-- A program fails after a first part that does not. -/
theorem fails_bind {p : Prog β γ} {f : γ → Prog β α} {mid : γ → Multiset (Nat × β) → Prop}
    (hp : Runs p pre mid) (hf : ∀ r m, mid r m → Fails (f r) m) : Fails (p >>= f) pre := by
  intro heap own
  obtain ⟨r, heap', m, hrun, own', hmid⟩ := hp heap own
  show (p heap).bind (fun q => f q.1 q.2) = none
  rw [hrun]
  exact hf r m hmid heap' own'

variable {σ ρ ε : Type}

/-- Two passes that go round again, or leave, in step. -/
inductive InStep (Rel : γ → σ → Prop) (Out : α → ρ → Prop) : Pass γ α → Pass σ ρ → Prop where
  | again {s : γ} {t : σ} (h : Rel s t) : InStep Rel Out (.again s) (.again t)
  | leave {x : α} {y : ρ} (h : Out x y) : InStep Rel Out (.leave x) (.leave y)

/-- A loop on the heap that goes in step with a loop that ends, ends with it. -/
theorem runs_loopM {body : γ → Prog β (Pass γ α)} {pureBody : σ → Pass σ ρ}
    (Rel : Multiset (Nat × β) → γ → σ → Prop) (Out : Multiset (Nat × β) → α → ρ → Prop)
    (step : ∀ m s t, Rel m s t →
      Runs (body s) m (fun r m' => InStep (Rel m') (Out m') r (pureBody t)))
    {n : Nat} {s : γ} {t : σ} {y : ρ} (hrel : Rel pre s t) (hloop : loop pureBody n t = some y) :
    Runs (loopM body n s) pre (fun x m => Out m x y) := by
  induction n generalizing s t pre with
  | zero => cases hloop
  | succ n ih =>
    rw [loopM]
    refine runs_bind (step pre s t hrel) ?_
    intro r m h
    generalize hpass : pureBody t = q at h
    cases h with
    | again h =>
      rw [loop_again hpass] at hloop
      exact ih h hloop
    | leave h =>
      rw [loop_leave hpass, Option.some.injEq] at hloop
      subst hloop
      exact runs_pure h

/-- A relation between the inputs so far and the state that every step keeps. -/
theorem runs_foldlM {f : γ → ε → Prog β γ} (Inv : List ε → γ → Multiset (Nat × β) → Prop)
    (step : ∀ es e s m, Inv es s m → Runs (f s e) m (Inv (es ++ [e]))) {s : γ} (hs : Inv [] s pre)
    (es : List ε) : Runs (es.foldlM f s) pre (Inv es) := by
  induction es using List.reverseRecOn with
  | nil => exact runs_pure hs
  | append_singleton es e ih =>
    rw [List.foldlM_append]
    refine runs_bind ih ?_
    intro r m h
    refine runs_bind (step es e r m h) ?_
    intro r' m' h'
    exact runs_pure h'

end Rules

end Lokicat.Heaps

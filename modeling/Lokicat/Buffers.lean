import Mathlib.Data.List.Basic

/-!
# Buffers with checked access

A buffer is a list of cells, each written or not. Reading a cell that is outside
the buffer or was never written is a failure, and so is writing outside it: a
program that succeeds has stayed inside its buffers and has used no value that
it did not store.
-/

namespace Lokicat.Buffers

variable {α : Type}

abbrev Buffer (α : Type) := List (Option α)

/-- A fresh buffer: nothing is written yet. -/
def malloc (n : Nat) : Buffer α := List.replicate n none

def read (buf : Buffer α) (i : Nat) : Option α := buf[i]?.join

def write (buf : Buffer α) (i : Nat) (a : α) : Option (Buffer α) :=
  if i < buf.length then some (buf.set i (some a)) else none

/-- Copy so many cells of `src` from `start` on to `buf` from `dst` on. -/
def memcpy (buf : Buffer α) (dst : Nat) (src : Buffer α) (start : Nat) : Nat → Option (Buffer α)
  | 0 => some buf
  | n + 1 => do
    let a ← read src start
    let buf ← write buf dst a
    memcpy buf (dst + 1) src (start + 1) n

/-- The cells from the start of a buffer before the first one that does not satisfy `p`. -/
def countWhile (p : α → Bool) : Buffer α → Option Nat
  | [] => none
  | none :: _ => none
  | some a :: cells => if p a then (countWhile p cells).map (· + 1) else some 0

/-- Read so many cells from `start` on. -/
def readMany (buf : Buffer α) (start : Nat) : Nat → Option (List α)
  | 0 => some []
  | n + 1 => do
    let a ← read buf start
    let as ← readMany buf (start + 1) n
    some (a :: as)

/-- A buffer whose cells are all written. -/
def full (as : List α) : Buffer α := as.map some

@[simp] theorem malloc_length (n : Nat) : (malloc n : Buffer α).length = n :=
  List.length_replicate

@[simp] theorem full_length (as : List α) : (full as).length = as.length := List.length_map _

@[simp] theorem full_nil : (full [] : Buffer α) = [] := rfl

theorem full_cons (a : α) (as : List α) : full (a :: as) = some a :: full as := rfl

theorem full_append (as bs : List α) : full (as ++ bs) = full as ++ full bs := List.map_append

theorem malloc_add (m n : Nat) : (malloc (m + n) : Buffer α) = malloc m ++ malloc n :=
  List.replicate_add ..

theorem malloc_succ (n : Nat) : (malloc (n + 1) : Buffer α) = malloc n ++ [none] :=
  List.replicate_succ'

/-- Reading the cell behind `front`. -/
theorem read_append (front back : Buffer α) (a : α) :
    read (front ++ some a :: back) front.length = some a := by
  simp [read]

theorem read_full {as : List α} {i : Nat} (h : i < as.length) : read (full as) i = some as[i] := by
  simp [read, full, h]

/-- Reading does not depend on what follows the cell. -/
theorem read_full_append {as : List α} {i : Nat} (h : i < as.length) (back : Buffer α) :
    read (full as ++ back) i = some as[i] := by
  have hlt : i < (full as).length := by simpa using h
  rw [read, List.getElem?_append_left hlt, ← read, read_full h]

/-- Writing the cell behind `front`. -/
theorem write_append (front back : Buffer α) (c : Option α) (a : α) :
    write (front ++ c :: back) front.length a = some (front ++ some a :: back) := by
  simp [write]

/-- Copying written cells fills a gap. -/
theorem memcpy_gap (front back before after : Buffer α) {gap : Buffer α} {as : List α}
    (h : gap.length = as.length) :
    memcpy (front ++ gap ++ back) front.length (before ++ full as ++ after) before.length
        as.length =
      some (front ++ full as ++ back) := by
  induction as generalizing front before gap with
  | nil =>
    rw [List.length_nil, List.length_eq_zero_iff] at h
    subst h
    rfl
  | cons a as ih =>
    obtain ⟨c, gap, rfl⟩ := List.exists_cons_of_length_eq_add_one h
    have hread : read (before ++ full (a :: as) ++ after) before.length = some a := by
      rw [full_cons, List.append_assoc, List.cons_append]
      exact read_append _ _ a
    have hwrite : write (front ++ c :: gap ++ back) front.length a =
        some (front ++ some a :: gap ++ back) := by
      rw [List.append_assoc, List.cons_append, write_append, List.append_assoc, List.cons_append]
    have hlength : gap.length = as.length := by simpa using h
    have hrest := ih (front ++ [some a]) (before ++ [some a]) hlength
    simp only [List.length_append, List.length_singleton, List.append_assoc,
      List.singleton_append] at hrest
    simp only [List.length_cons, memcpy, hread, hwrite, Option.bind_eq_bind, Option.bind_some]
    simpa only [full_cons, List.append_assoc, List.cons_append] using hrest

/-- A count stops at the first cell that does not satisfy the predicate. -/
theorem countWhile_stop {p : α → Bool} {as : List α} (has : ∀ a ∈ as, p a = true) {d : α}
    (hd : p d = false) (back : Buffer α) :
    countWhile p (full as ++ some d :: back) = some as.length := by
  induction as with
  | nil => simp [countWhile, hd]
  | cons a as ih =>
    have ha := has a (by simp)
    have htail := ih fun b hb => has b (by simp [hb])
    simp [full_cons, countWhile, ha, htail]

theorem readMany_gap (before after : Buffer α) (as : List α) :
    readMany (before ++ full as ++ after) before.length as.length = some as := by
  induction as generalizing before with
  | nil => rfl
  | cons a as ih =>
    have hrest := ih (before ++ [some a])
    have hread : read (before ++ full (a :: as) ++ after) before.length = some a := by
      rw [full_cons, List.append_assoc, List.cons_append]
      exact read_append _ _ a
    simp only [List.length_append, List.length_singleton, List.append_assoc,
      List.singleton_append] at hrest
    have hsame : before ++ full (a :: as) ++ after = before ++ (some a :: full as ++ after) := by
      rw [full_cons, List.append_assoc]
    simp only [List.length_cons, readMany, hread, Option.bind_eq_bind, Option.bind_some]
    rw [hsame, hrest, Option.bind_some]

end Lokicat.Buffers

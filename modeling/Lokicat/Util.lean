import Lokicat.CString
import Mathlib.Data.List.DropRight

/-!
# util.c

`trim_whitespace` advances a string over leading white space and measures it
without trailing white space.
-/

namespace Lokicat.Util

open CString

/-- The trailing loop: shorten while the last counted byte, not the first, is white space. -/
def trimTrailing (str : List Byte) : Nat → Nat
  | 0 => 0
  | n + 1 => if 0 < n ∧ isspace (str.getD n 0) then trimTrailing str n else n + 1

/-- The advanced string and the length left of it. -/
def trimWhitespace (str : List Byte) : List Byte × Nat :=
  let str := str.dropWhile isspace
  if str = [] then (str, str.length) else (str, trimTrailing str str.length)

/-- `strncpy` of a measured string into a fresh terminated buffer. -/
def strncpy (str : List Byte) (length : Nat) : List Byte := str.take length

/-- The trailing loop drops white space from the end, given a first byte to stop at. -/
theorem take_trimTrailing {str : List Byte} (hstart : ∀ b ∈ str.head?, isspace b = false)
    (n : Nat) (hn : n ≤ str.length) :
    str.take (trimTrailing str n) = (str.take n).rdropWhile isspace := by
  induction n with
  | zero => simp [trimTrailing]
  | succ n ih =>
    have hlt : n < str.length := by omega
    rw [List.take_succ_eq_append_getElem hlt]
    by_cases hspace : isspace str[n] = true
    · have hpos : 0 < n := by
        rcases Nat.eq_zero_or_pos n with rfl | hpos
        · have hhead := hstart str[0] (by simp [List.head?_eq_getElem?, hlt])
          rw [hhead] at hspace
          exact absurd hspace (by decide)
        · exact hpos
      have hcond : 0 < n ∧ isspace (str.getD n 0) = true := by
        simp [hpos, hlt, hspace]
      rw [trimTrailing, if_pos hcond, ih (by omega), List.rdropWhile_concat_pos _ _ _ hspace]
    · have hcond : ¬ (0 < n ∧ isspace (str.getD n 0) = true) := by
        simp [hlt, hspace]
      rw [trimTrailing, if_neg hcond, List.rdropWhile_concat_neg _ _ _ hspace,
        List.take_succ_eq_append_getElem hlt]

/-- The string without the white space at its ends. -/
def trim (str : List Byte) : List Byte := (str.dropWhile isspace).rdropWhile isspace

/-- The copied text is the string without white space at either end. -/
theorem strncpy_trimWhitespace (str : List Byte) :
    strncpy (trimWhitespace str).1 (trimWhitespace str).2 = trim str := by
  by_cases hempty : str.dropWhile isspace = []
  · simp [trimWhitespace, strncpy, trim, hempty]
  · have hstart : ∀ b ∈ (str.dropWhile isspace).head?, isspace b = false := by
      intro b hb
      have := List.head?_dropWhile_not isspace str
      rw [Option.mem_def.mp hb] at this
      simpa using this
    simp only [trimWhitespace, strncpy, if_neg hempty]
    rw [take_trimTrailing hstart _ (le_refl _), List.take_length, trim]

/-- White space is all that trimming takes away. -/
theorem trim_split (str : List Byte) :
    ∃ w₁ w₂, str = w₁ ++ trim str ++ w₂ ∧ (∀ b ∈ w₁, isspace b = true) ∧
      ∀ b ∈ w₂, isspace b = true := by
  refine ⟨str.takeWhile isspace, (str.dropWhile isspace).rtakeWhile isspace, ?_,
    fun b hb => List.mem_takeWhile_imp hb, fun b hb => List.mem_rtakeWhile_imp hb⟩
  rw [trim, List.append_assoc, List.rdropWhile_append_rtakeWhile, List.takeWhile_append_dropWhile]

theorem trim_head (str : List Byte) : ∀ b ∈ (trim str).head?, isspace b = false := by
  intro b hb
  obtain ⟨w, hw⟩ : trim str <+: str.dropWhile isspace := List.rdropWhile_prefix _ _
  have hhead := List.head?_dropWhile_not isspace str
  rw [← hw, List.head?_append, Option.mem_def.mp hb] at hhead
  simpa using hhead

theorem trim_last (str : List Byte) : ∀ b ∈ (trim str).getLast?, isspace b = false := by
  intro b hb
  have hne : trim str ≠ [] := by
    intro hnil
    rw [hnil] at hb
    cases hb
  have hlast := List.rdropWhile_last_not isspace (str.dropWhile isspace) hne
  rw [List.getLast?_eq_some_getLast hne, Option.mem_some_iff] at hb
  rw [← hb]
  simpa [trim] using hlast

theorem trim_mem {str : List Byte} : ∀ b ∈ trim str, b ∈ str := by
  intro b hb
  exact (List.dropWhile_suffix _).subset ((List.rdropWhile_prefix _ _).subset hb)

/-- White space around a text does not matter. -/
theorem trim_padded {w₁ w₂ : List Byte} (h₁ : ∀ b ∈ w₁, isspace b = true)
    (h₂ : ∀ b ∈ w₂, isspace b = true) (str : List Byte) : trim (w₁ ++ str ++ w₂) = trim str := by
  have hend : ∀ s : List Byte, (s ++ w₂).rdropWhile isspace = s.rdropWhile isspace := by
    intro s
    simp only [List.rdropWhile, List.reverse_append]
    rw [List.dropWhile_append_of_pos (by simpa using h₂)]
  rw [trim, List.append_assoc, List.dropWhile_append_of_pos h₁, List.dropWhile_append]
  cases hstr : str.dropWhile isspace with
  | nil => simp [trim, hstr, List.dropWhile_eq_nil_iff.mpr h₂]
  | cons b bs => simp only [List.isEmpty_cons, Bool.false_eq_true, if_false, hend, trim, hstr]

example : trimWhitespace (ascii [' ', 'a', ' ', ' ', 'a', 'a', ' ']) =
    (ascii ['a', ' ', ' ', 'a', 'a', ' '], 5) := by decide

end Lokicat.Util

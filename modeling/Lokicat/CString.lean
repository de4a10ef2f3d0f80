import Lokicat.Framing

/-!
# Terminated byte strings

A stored string is the list of bytes of its buffer before the final
terminator; a `char *` reader sees it up to its first NUL byte. Character
classes are those of the C locale.
-/

namespace Lokicat.CString

abbrev Byte := UInt8

def isNul (b : Byte) : Bool := b == 0

def isNewline (b : Byte) : Bool := b == 10

def isspace (b : Byte) : Bool := b == 32 || (9 ≤ b && b ≤ 13)

def isdigit (b : Byte) : Bool := 48 ≤ b && b ≤ 57

def tolower (b : Byte) : Byte := if 65 ≤ b && b ≤ 90 then b + 32 else b

/-- The string a `char *` to a stored buffer stands for. -/
def cstr (buf : List Byte) : List Byte := Framing.visible isNul buf

def strlen (buf : List Byte) : Nat := (cstr buf).length

def ascii (cs : List Char) : List Byte := cs.map (fun c => UInt8.ofNat c.toNat)

/-- The digit character of a number below ten. -/
def digit (n : Nat) : Byte := UInt8.ofNat (48 + n)

/-- No byte of the string is NUL. -/
def NulFree (s : List Byte) : Prop := ∀ b ∈ s, isNul b = false

instance (s : List Byte) : Decidable (NulFree s) :=
  decidable_of_iff (s.all (fun b => !isNul b) = true) (by simp [NulFree])

@[simp] theorem cstr_nil : cstr [] = [] := rfl

theorem cstr_eq_self {s : List Byte} (h : NulFree s) : cstr s = s := Framing.visible_eq_self h

/-- Copying `strlen` bytes of a buffer copies the string it stands for. -/
@[simp] theorem take_strlen (buf : List Byte) : buf.take (strlen buf) = cstr buf := by
  have h : cstr buf <+: buf := List.takeWhile_prefix _
  simpa only [strlen] using (List.prefix_iff_eq_take.mp h).symm

theorem digit_isdigit : ∀ n : Fin 10, isdigit (digit n) = true := by decide

theorem digit_value : ∀ n : Fin 10, (digit n).toNat - 48 = n := by decide

theorem digit_not_space : ∀ n : Fin 10, isspace (digit n) = false := by decide

end Lokicat.CString

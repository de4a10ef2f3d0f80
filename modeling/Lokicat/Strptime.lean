import Lokicat.CString
import Lokicat.LocalTime

/-!
# strptime and strftime

Formats are lists of directives. `strptime` matches them from left to right in
the C locale, writes a field as its directive matches, and leaves what it has
written when a later directive fails. `strftime` prints the same directives.
-/

namespace Lokicat.Strptime

open CString LocalTime

inductive Directive where
  | space : Directive
  | char : Byte → Directive
  | weekday : Directive
  | month : Directive
  | day : Directive
  | hour : Directive
  | minute : Directive
  | second : Directive
  | year : Directive
  deriving DecidableEq, Repr

/-- `%a`: full and abbreviated names, Sunday first. -/
def weekdays : List (List Byte × List Byte) :=
  [(ascii ['S', 'u', 'n', 'd', 'a', 'y'], ascii ['S', 'u', 'n']),
    (ascii ['M', 'o', 'n', 'd', 'a', 'y'], ascii ['M', 'o', 'n']),
    (ascii ['T', 'u', 'e', 's', 'd', 'a', 'y'], ascii ['T', 'u', 'e']),
    (ascii ['W', 'e', 'd', 'n', 'e', 's', 'd', 'a', 'y'], ascii ['W', 'e', 'd']),
    (ascii ['T', 'h', 'u', 'r', 's', 'd', 'a', 'y'], ascii ['T', 'h', 'u']),
    (ascii ['F', 'r', 'i', 'd', 'a', 'y'], ascii ['F', 'r', 'i']),
    (ascii ['S', 'a', 't', 'u', 'r', 'd', 'a', 'y'], ascii ['S', 'a', 't'])]

/-- `%b`: full and abbreviated names, January first. -/
def months : List (List Byte × List Byte) :=
  [(ascii ['J', 'a', 'n', 'u', 'a', 'r', 'y'], ascii ['J', 'a', 'n']),
    (ascii ['F', 'e', 'b', 'r', 'u', 'a', 'r', 'y'], ascii ['F', 'e', 'b']),
    (ascii ['M', 'a', 'r', 'c', 'h'], ascii ['M', 'a', 'r']),
    (ascii ['A', 'p', 'r', 'i', 'l'], ascii ['A', 'p', 'r']),
    (ascii ['M', 'a', 'y'], ascii ['M', 'a', 'y']),
    (ascii ['J', 'u', 'n', 'e'], ascii ['J', 'u', 'n']),
    (ascii ['J', 'u', 'l', 'y'], ascii ['J', 'u', 'l']),
    (ascii ['A', 'u', 'g', 'u', 's', 't'], ascii ['A', 'u', 'g']),
    (ascii ['S', 'e', 'p', 't', 'e', 'm', 'b', 'e', 'r'], ascii ['S', 'e', 'p']),
    (ascii ['O', 'c', 't', 'o', 'b', 'e', 'r'], ascii ['O', 'c', 't']),
    (ascii ['N', 'o', 'v', 'e', 'm', 'b', 'e', 'r'], ascii ['N', 'o', 'v']),
    (ascii ['D', 'e', 'c', 'e', 'm', 'b', 'e', 'r'], ascii ['D', 'e', 'c'])]

/-- What follows a name at the start of a string, letter case aside. -/
def matchName : List Byte → List Byte → Option (List Byte)
  | [], s => some s
  | _ :: _, [] => none
  | c :: cs, b :: bs => if tolower b == tolower c then matchName cs bs else none

/-- The first entry whose full name, or else whose abbreviation, starts the string. -/
def getName : Nat → List (List Byte × List Byte) → List Byte → Option (Nat × List Byte)
  | _, [], _ => none
  | i, (full, abbr) :: names, s =>
    match matchName full s with
    | some r => some (i, r)
    | none =>
      match matchName abbr s with
      | some r => some (i, r)
      | none => getName (i + 1) names s

/-- Further digits are taken while the value times ten stays in range. -/
def getDigits (hi : Nat) : Nat → Nat → List Byte → Nat × List Byte
  | 0, v, s => (v, s)
  | _ + 1, v, [] => (v, [])
  | n + 1, v, b :: bs =>
    if v * 10 ≤ hi ∧ isdigit b then getDigits hi n (v * 10 + (b.toNat - 48)) bs
    else (v, b :: bs)

/-- At most `n` digits after optional white space, with a value between `lo` and `hi`. -/
def getNumber (lo hi n : Nat) (s : List Byte) : Option (Nat × List Byte) :=
  match s.dropWhile isspace with
  | [] => none
  | b :: bs =>
    if isdigit b then
      let r := getDigits hi (n - 1) (b.toNat - 48) bs
      if r.1 < lo ∨ hi < r.1 then none else some r
    else none

/-- One directive: the rest of the string and the struct with its field written. -/
def Directive.scan (d : Directive) (s : List Byte) (tm : Tm) : Option (List Byte × Tm) :=
  match d with
  | .space => some (s.dropWhile isspace, tm)
  | .char c =>
    match s with
    | [] => none
    | b :: bs => if b = c then some (bs, tm) else none
  | .weekday => (getName 0 weekdays s).map (fun r => (r.2, { tm with tmWday := r.1 }))
  | .month => (getName 0 months s).map (fun r => (r.2, { tm with tmMon := r.1 }))
  | .day => (getNumber 1 31 2 s).map (fun r => (r.2, { tm with tmMday := r.1 }))
  | .hour => (getNumber 0 23 2 s).map (fun r => (r.2, { tm with tmHour := r.1 }))
  | .minute => (getNumber 0 59 2 s).map (fun r => (r.2, { tm with tmMin := r.1 }))
  | .second => (getNumber 0 61 2 s).map (fun r => (r.2, { tm with tmSec := r.1 }))
  | .year => (getNumber 0 9999 4 s).map (fun r => (r.2, { tm with tmYear := r.1 - 1900 }))

/-- The rest of the string, or `none` for NULL, and the struct in either case. -/
def strptime : List Byte → List Directive → Tm → Option (List Byte) × Tm
  | s, [], tm => (some s, tm)
  | s, d :: ds, tm =>
    match d.scan s tm with
    | none => (none, tm)
    | some (s', tm') => strptime s' ds tm'

/-- Two characters, the tens digit replaced by `pad` when it is zero. -/
def twoDigits (pad : Byte) (n : Int) : List Byte :=
  let k := n.toNat
  [if k < 10 then pad else digit (k / 10), digit (k % 10)]

def decimal (n : Int) : List Byte :=
  (if n < 0 then [45] else []) ++ (Nat.toDigits 10 n.natAbs).map (fun c => UInt8.ofNat c.toNat)

def abbreviation (names : List (List Byte × List Byte)) (i : Int) : List Byte :=
  (names.getD i.toNat ([], [])).2

def Directive.print (d : Directive) (tm : Tm) : List Byte :=
  match d with
  | .space => [32]
  | .char c => [c]
  | .weekday => abbreviation weekdays tm.tmWday
  | .month => abbreviation months tm.tmMon
  | .day => twoDigits 32 tm.tmMday
  | .hour => twoDigits 48 tm.tmHour
  | .minute => twoDigits 48 tm.tmMin
  | .second => twoDigits 48 tm.tmSec
  | .year => decimal (1900 + tm.tmYear)

def strftime (format : List Directive) (tm : Tm) : List Byte :=
  format.flatMap (fun d => d.print tm)

theorem strptime_some {d : Directive} {s s' : List Byte} {tm tm' : Tm}
    (h : d.scan s tm = some (s', tm')) (ds : List Directive) :
    strptime s (d :: ds) tm = strptime s' ds tm' := by
  simp only [strptime, h]

theorem strptime_none {d : Directive} {s : List Byte} {tm : Tm} (h : d.scan s tm = none)
    (ds : List Directive) : strptime s (d :: ds) tm = (none, tm) := by
  simp only [strptime, h]

/-- A format may be matched in two parts. -/
theorem strptime_append {s s' : List Byte} {ds : List Directive} {tm tm' : Tm}
    (h : strptime s ds tm = (some s', tm')) (es : List Directive) :
    strptime s (ds ++ es) tm = strptime s' es tm' := by
  induction ds generalizing s tm with
  | nil =>
    cases h
    rfl
  | cons d ds ih =>
    cases hscan : d.scan s tm with
    | none =>
      rw [strptime_none hscan] at h
      cases h
    | some r =>
      rw [strptime_some hscan] at h
      rw [List.cons_append, strptime_some hscan, ih h]

/-! A match leaves a part of the string. -/

theorem matchName_suffix {name s r : List Byte} (h : matchName name s = some r) : r <:+ s := by
  induction name generalizing s with
  | nil =>
    cases h
    exact List.suffix_rfl
  | cons c cs ih =>
    cases s with
    | nil => cases h
    | cons b bs =>
      simp only [matchName] at h
      split at h
      · exact (ih h).trans (List.suffix_cons b bs)
      · cases h

theorem getName_suffix {i : Nat} {names : List (List Byte × List Byte)} {s : List Byte}
    {r : Nat × List Byte} (h : getName i names s = some r) : r.2 <:+ s := by
  induction names generalizing i with
  | nil => cases h
  | cons name names ih =>
    simp only [getName] at h
    split at h
    · rename_i hfull
      cases h
      exact matchName_suffix hfull
    · split at h
      · rename_i habbr
        cases h
        exact matchName_suffix habbr
      · exact ih h

theorem getDigits_suffix (hi n v : Nat) (s : List Byte) : (getDigits hi n v s).2 <:+ s := by
  induction n generalizing v s with
  | zero => exact List.suffix_rfl
  | succ n ih =>
    cases s with
    | nil => exact List.suffix_rfl
    | cons b bs =>
      simp only [getDigits]
      split
      · exact (ih _ bs).trans (List.suffix_cons b bs)
      · exact List.suffix_rfl

theorem getNumber_suffix {lo hi n : Nat} {s : List Byte} {r : Nat × List Byte}
    (h : getNumber lo hi n s = some r) : r.2 <:+ s := by
  have hblanks : s.dropWhile isspace <:+ s := List.dropWhile_suffix _
  simp only [getNumber] at h
  split at h
  · cases h
  · rename_i b bs hs
    split at h
    · split at h
      · cases h
      · cases h
        rw [hs] at hblanks
        exact (getDigits_suffix ..).trans ((List.suffix_cons b bs).trans hblanks)
    · cases h

theorem scan_suffix {d : Directive} {s s' : List Byte} {tm tm' : Tm}
    (h : d.scan s tm = some (s', tm')) : s' <:+ s := by
  have hname : ∀ {names : List (List Byte × List Byte)} {f : Nat × List Byte → Tm},
      (getName 0 names s).map (fun r => (r.2, f r)) = some (s', tm') → s' <:+ s := by
    intro names f h
    obtain ⟨r, hr, heq⟩ := Option.map_eq_some_iff.mp h
    cases heq
    exact getName_suffix hr
  have hnumber : ∀ {lo hi n : Nat} {f : Nat × List Byte → Tm},
      (getNumber lo hi n s).map (fun r => (r.2, f r)) = some (s', tm') → s' <:+ s := by
    intro lo hi n f h
    obtain ⟨r, hr, heq⟩ := Option.map_eq_some_iff.mp h
    cases heq
    exact getNumber_suffix hr
  cases d with
  | space =>
    cases h
    exact List.dropWhile_suffix _
  | char c =>
    cases s with
    | nil => cases h
    | cons b bs =>
      simp only [Directive.scan] at h
      split at h
      · cases h
        exact List.suffix_cons b _
      · cases h
  | weekday => exact hname h
  | month => exact hname h
  | day => exact hnumber h
  | hour => exact hnumber h
  | minute => exact hnumber h
  | second => exact hnumber h
  | year => exact hnumber h

/-- A successful `strptime` returns a pointer into its string. -/
theorem strptime_suffix {s r : List Byte} {ds : List Directive} {tm : Tm}
    (h : (strptime s ds tm).1 = some r) : r <:+ s := by
  induction ds generalizing s tm with
  | nil =>
    cases h
    exact List.suffix_rfl
  | cons d ds ih =>
    cases hscan : d.scan s tm with
    | none =>
      rw [strptime_none hscan] at h
      cases h
    | some p =>
      rw [strptime_some hscan] at h
      exact (ih h).trans (scan_suffix hscan)

/-- Two digits are read back when the tens digit leaves room for another. -/
theorem getNumber_two {lo hi a b : Nat} (ha : a < 10) (hb : b < 10) (htens : a * 10 ≤ hi)
    (hlo : lo ≤ a * 10 + b) (hhi : a * 10 + b ≤ hi) (s : List Byte) :
    getNumber lo hi 2 (digit a :: digit b :: s) = some (a * 10 + b, s) := by
  have hda := digit_isdigit ⟨a, ha⟩
  have hva := digit_value ⟨a, ha⟩
  have hdb := digit_isdigit ⟨b, hb⟩
  have hvb := digit_value ⟨b, hb⟩
  have hskip := digit_not_space ⟨a, ha⟩
  simp only at hda hva hdb hvb hskip
  simp only [getNumber, List.dropWhile_cons, hskip, Bool.false_eq_true, if_false, hda, if_true,
    getDigits, hva, hdb, hvb, htens, and_self]
  rw [if_neg (by omega)]

/-- A single digit is read back when no digit follows. -/
theorem getNumber_one {lo hi a : Nat} (ha : a < 10) (hlo : lo ≤ a) (hhi : a ≤ hi)
    {c : Byte} (hc : isdigit c = false) (s : List Byte) :
    getNumber lo hi 2 (digit a :: c :: s) = some (a, c :: s) := by
  have hda := digit_isdigit ⟨a, ha⟩
  have hva := digit_value ⟨a, ha⟩
  have hskip := digit_not_space ⟨a, ha⟩
  simp only at hda hva hskip
  simp only [getNumber, List.dropWhile_cons, hskip, Bool.false_eq_true, if_false, hda, if_true,
    getDigits, hva, hc, and_false]
  rw [if_neg (by omega)]

/-- A zero-padded number below a hundred is read back. -/
theorem getNumber_twoDigits {lo hi : Nat} {n : Int} (h₁ : (lo : Int) ≤ n) (h₂ : n ≤ hi)
    (hhi : hi < 100) (s : List Byte) :
    getNumber lo hi 2 (twoDigits 48 n ++ s) = some (n.toNat, s) := by
  have htens : (if n.toNat < 10 then 48 else digit (n.toNat / 10)) = digit (n.toNat / 10) := by
    split
    · have hz : n.toNat / 10 = 0 := by omega
      rw [hz]
      rfl
    · rfl
  simp only [twoDigits, htens, List.cons_append, List.nil_append]
  rw [getNumber_two (by omega) (by omega) (by omega) (by omega) (by omega)]
  congr 2
  omega

end Lokicat.Strptime

import Lokicat.Heaps
import Lokicat.Push

/-!
# libcurl

The calls of libcurl that a push makes, as programs on a heap with the program's buffers and with
blocks of the library's own. How the library keeps a handle, a list or its global state in its
blocks is its own affair; what is documented is what each call does with them. Of a call
with a NULL handle nothing is documented.
-/

namespace Lokicat.Curl

open CString Heaps Push

inductive Block (κ : Type) where
  /-- The size of a buffer and the bytes written from its start on. -/
  | buffer : Nat → List Byte → Block κ
  | library : κ → Block κ

/-- An option that is set. Strings are copied, what pointers lead to is not. -/
inductive Setting where
  /-- `CURLOPT_URL` -/
  | url : List Byte → Setting
  /-- `CURLOPT_USERAGENT` -/
  | userAgent : List Byte → Setting
  /-- `CURLOPT_HTTPHEADER`, a `curl_slist` -/
  | httpHeader : Option Nat → Setting
  /-- `CURLOPT_POSTFIELDSIZE` -/
  | postFieldSize : Nat → Setting
  /-- `CURLOPT_POSTFIELDS` -/
  | postFields : Nat → Setting

structure Options where
  url : List Byte
  userAgent : List Byte
  httpHeader : Option Nat
  postFieldSize : Nat
  postFields : Option Nat

def Options.init : Options := ⟨[], [], none, 0, none⟩

def Options.set (options : Options) : Setting → Options
  | .url text => { options with url := text }
  | .userAgent text => { options with userAgent := text }
  | .httpHeader list => { options with httpHeader := list }
  | .postFieldSize size => { options with postFieldSize := size }
  | .postFields buf => { options with postFields := some buf }

/-- A request as it is performed. -/
structure Post where
  url : List Byte
  userAgent : List Byte
  headers : List (List Byte)
  body : List Byte
  deriving DecidableEq, Repr

/-- The calls; NULL is `none`. What comes of a transfer is up to the network, so `easyPerform` is
given the outcome; it returns the status and, for the record, the request. `getinfo` asks for the
response code and returns what is stored, if anything is. -/
structure Libcurl (κ : Type) where
  globalInit : Prog (Block κ) Unit
  easyInit : Prog (Block κ) (Option Nat)
  easySetopt : Option Nat → Setting → Prog (Block κ) Unit
  slistAppend : Option Nat → List Byte → Prog (Block κ) (Option Nat)
  easyPerform : PushOutcome → Option Nat → Prog (Block κ) (Int × Option Post)
  getinfo : Option Nat → Prog (Block κ) (Option Int)
  easyCleanup : Option Nat → Prog (Block κ) Unit
  slistFreeAll : Option Nat → Prog (Block κ) Unit
  globalCleanup : Prog (Block κ) Unit

/-- How the library keeps its things in blocks. -/
structure Layout (κ : Type) where
  global : Multiset (Nat × Block κ) → Prop
  /-- A handle with its options and the response code of its last transfer. -/
  handle : Nat → Options → Option Int → Multiset (Nat × Block κ) → Prop
  slist : Option Nat → List (List Byte) → Multiset (Nat × Block κ) → Prop

variable {κ : Type}

/-- What is documented, as long as there is memory for the strings. Every call leaves the blocks
alone that are not its own. The list and the data of a transfer must be in use when it is
performed, and the data must have been written. -/
structure Libcurl.Documented (curl : Libcurl κ) (layout : Layout κ) : Prop where
  globalInit : ∀ m, Runs curl.globalInit m fun _ m' => ∃ g, layout.global g ∧ m' = m + g
  /-- A handle, or NULL. -/
  easyInit : ∀ m, Runs curl.easyInit m fun r m' => r = none ∧ m' = m ∨
    ∃ a h, r = some a ∧ layout.handle a Options.init none h ∧ m' = m + h
  easySetopt : ∀ m a options code h setting, layout.handle a options code h →
    Runs (curl.easySetopt (some a) setting) (m + h) fun _ m' =>
      ∃ h', layout.handle a (options.set setting) code h' ∧ m' = m + h'
  slistEmpty : layout.slist none [] 0
  slistAppend : ∀ m list texts b text, layout.slist list texts b →
    Runs (curl.slistAppend list text) (m + b) fun list' m' =>
      ∃ b', layout.slist list' (texts ++ [text]) b' ∧ m' = m + b'
  /-- The request has the options, the texts of the list and the first bytes of the data. -/
  easyPerform : ∀ m o a options code h headers b buf size bytes, layout.handle a options code h →
    layout.slist options.httpHeader headers b → b ≤ m → options.postFields = some buf →
    (buf, .buffer size bytes) ∈ m → options.postFieldSize ≤ bytes.length →
    Runs (curl.easyPerform o (some a)) (m + h) fun r m' =>
      r = (o.resp, some ⟨options.url, options.userAgent, headers,
        bytes.take options.postFieldSize⟩) ∧
      ∃ h', layout.handle a options (some o.responseCode) h' ∧ m' = m + h'
  getinfo : ∀ m a options code h, layout.handle a options (some code) h →
    Ends (curl.getinfo (some a)) (m + h) (some code) (m + h)
  easyCleanup : ∀ m a options code h, layout.handle a options code h →
    Ends (curl.easyCleanup (some a)) (m + h) () m
  slistFreeAll : ∀ m list texts b, layout.slist list texts b →
    Ends (curl.slistFreeAll list) (m + b) () m
  globalCleanup : ∀ m g, layout.global g → Ends curl.globalCleanup (m + g) () m

/-- There is always memory for a handle. -/
def Libcurl.HasHandles (curl : Libcurl κ) : Prop := ∀ m, Runs curl.easyInit m fun r _ => r ≠ none

theorem runs_easyInit {curl : Libcurl κ} {layout : Layout κ} (documented : curl.Documented layout)
    (handles : curl.HasHandles) (m : Multiset (Nat × Block κ)) :
    Runs curl.easyInit m fun r m' =>
      ∃ a h, r = some a ∧ layout.handle a Options.init none h ∧ m' = m + h := by
  refine runs_mono (runs_and (documented.easyInit m) (handles m)) ?_
  rintro r m' ⟨⟨hnull, -⟩ | hhandle, hsome⟩
  · exact absurd hnull hsome
  · exact hhandle

/-! ## A library that works like this -/

/-- The blocks of a handle, with the response code of its last transfer, and of a list. -/
inductive Part where
  | handle : Options → Option Int → Part
  | slist : List (List Byte) → Part

def handleAt (a : Nat) : Prog (Block Part) (Options × Option Int) := do
  match ← load a with
  | .library (.handle options code) => pure (options, code)
  | _ => failure

def slistAt (a : Nat) : Prog (Block Part) (List (List Byte)) := do
  match ← load a with
  | .library (.slist texts) => pure texts
  | _ => failure

/-- The texts of a list that may be NULL. -/
def textsAt : Option Nat → Prog (Block Part) (List (List Byte))
  | none => pure []
  | some a => slistAt a

/-- The first bytes of a buffer, which must have been written. -/
def bytesAt (a size : Nat) : Prog (Block κ) (List Byte) := do
  match ← load a with
  | .buffer _ bytes => if size ≤ bytes.length then pure (bytes.take size) else failure
  | _ => failure

/-- libcurl with a block for a handle and a block for a list, and no global state. -/
def simpleCurl : Libcurl Part where
  globalInit := pure ()
  easyInit := do
    let a ← alloc (.library (.handle Options.init none))
    pure (some a)
  easySetopt
    | none, _ => pure ()
    | some a, setting => do
      let h ← handleAt a
      store a (.library (.handle (h.1.set setting) h.2))
  slistAppend
    | none, text => do
      let a ← alloc (.library (.slist [text]))
      pure (some a)
    | some a, text => do
      let texts ← slistAt a
      store a (.library (.slist (texts ++ [text])))
      pure (some a)
  easyPerform
    | o, none => pure (o.resp, none)
    | o, some a => do
      let h ← handleAt a
      let headers ← textsAt h.1.httpHeader
      match h.1.postFields with
      | none => failure
      | some buf =>
        let body ← bytesAt buf h.1.postFieldSize
        store a (.library (.handle h.1 (some o.responseCode)))
        pure (o.resp, some ⟨h.1.url, h.1.userAgent, headers, body⟩)
  getinfo
    | none => pure none
    | some a => do
      let h ← handleAt a
      pure h.2
  easyCleanup
    | none => pure ()
    | some a => free a
  slistFreeAll
    | none => pure ()
    | some a => free a
  globalCleanup := pure ()

def simpleLayout : Layout Part where
  global g := g = 0
  handle a options code h := h = {(a, .library (.handle options code))}
  slist
    | none, texts, b => texts = [] ∧ b = 0
    | some a, texts, b => b = {(a, .library (.slist texts))}

section Simple

variable {m : Multiset (Nat × Block Part)}

theorem ends_handleAt {a : Nat} {options : Options} {code : Option Int}
    (h : (a, .library (.handle options code)) ∈ m) : Ends (handleAt a) m (options, code) m :=
  runs_then (ends_load h) (ends_pure (options, code) m)

theorem ends_slistAt {a : Nat} {texts : List (List Byte)}
    (h : (a, .library (.slist texts)) ∈ m) : Ends (slistAt a) m texts m :=
  runs_then (ends_load h) (ends_pure texts m)

theorem ends_textsAt {list : Option Nat} {texts : List (List Byte)}
    {b : Multiset (Nat × Block Part)} (h : simpleLayout.slist list texts b) (hb : b ≤ m) :
    Ends (textsAt list) m texts m := by
  cases list with
  | none =>
    rw [h.1]
    exact ends_pure [] m
  | some a =>
    obtain rfl : b = _ := h
    exact ends_slistAt (Multiset.singleton_le.mp hb)

end Simple

theorem ends_bytesAt {m : Multiset (Nat × Block κ)} {a size n : Nat} {bytes : List Byte}
    (h : (a, .buffer size bytes) ∈ m) (hn : n ≤ bytes.length) :
    Ends (bytesAt a n) m (bytes.take n) m := by
  apply runs_then (ends_load h)
  simp only [if_pos hn]
  exact ends_pure (bytes.take n) m

theorem simpleCurl_documented : simpleCurl.Documented simpleLayout where
  globalInit m := runs_pure ⟨0, rfl, (add_zero m).symm⟩
  easyInit m := by
    apply runs_bind (runs_alloc _ m)
    rintro a _ rfl
    exact runs_pure (.inr ⟨a, _, rfl, rfl, rfl⟩)
  easySetopt m a options code h setting := by
    rintro rfl
    apply runs_then (ends_handleAt (mem_last m _))
    exact runs_mono (ends_store _ rfl) fun _ _ h => ⟨_, rfl, h.2⟩
  slistEmpty := ⟨rfl, rfl⟩
  slistAppend m list texts b text h := by
    cases list with
    | none =>
      obtain ⟨rfl, rfl⟩ := h
      rw [add_zero]
      apply runs_bind (runs_alloc _ m)
      rintro a _ rfl
      exact runs_pure ⟨_, rfl, rfl⟩
    | some a =>
      obtain rfl : b = _ := h
      apply runs_then (ends_slistAt (mem_last m _))
      apply runs_then (ends_store _ rfl)
      exact runs_pure ⟨_, rfl, rfl⟩
  easyPerform m o a options code h headers b buf size bytes := by
    rintro rfl hlist hb hfields hbuf hsize
    apply runs_then (ends_handleAt (mem_last m _))
    apply runs_then (ends_textsAt hlist (hb.trans (Multiset.le_add_right _ _)))
    simp only [hfields]
    apply runs_then (ends_bytesAt (Multiset.mem_add.mpr (.inl hbuf)) hsize)
    apply runs_then (ends_store _ rfl)
    exact runs_pure ⟨rfl, _, rfl, rfl⟩
  getinfo m a options code h := by
    rintro rfl
    apply runs_then (ends_handleAt (mem_last m _))
    exact ends_pure _ _
  easyCleanup m a options code h := by
    rintro rfl
    exact ends_free rfl
  slistFreeAll m list texts b h := by
    cases list with
    | none =>
      obtain ⟨rfl, rfl⟩ := h
      rw [add_zero]
      exact ends_pure () m
    | some a =>
      obtain rfl : b = _ := h
      exact ends_free rfl
  globalCleanup m g := by
    rintro rfl
    rw [add_zero]
    exact ends_pure () m

theorem simpleCurl_hasHandles : simpleCurl.HasHandles := by
  intro m
  apply runs_bind (runs_alloc _ m)
  rintro a _ -
  exact runs_pure (by simp)

end Lokicat.Curl

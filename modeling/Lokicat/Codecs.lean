import Lokicat.Iteration
import Lokicat.Wire

/-!
# Codecs of protobuf messages

A codec writes a value as fields with numbers of its own and reads it back from them,
whatever other fields stand between. Members that have a default are not written when
they have it. Codecs of members with different numbers make the codec of a message,
and the codec of a message makes that of a member.
-/

namespace Lokicat.Codecs

open Iteration Wire

structure Codec (α : Type) where
  numbers : List Nat
  /-- The values that the format can carry. -/
  Fits : α → Prop
  write : α → List Field
  read : List Field → Option α
  write_fits : ∀ {a}, Fits a → ∀ f ∈ write a, f.Fits
  write_own : ∀ a, ∀ f ∈ write a, f.number ∈ numbers
  read_own : ∀ fs, read (fs.filter (fun f => f.number ∈ numbers)) = read fs
  read_write : ∀ {a}, Fits a → read (write a) = some a

variable {α β : Type}

def Codec.pack (c : Codec α) (a : α) : List UInt8 := encode (c.write a)

def Codec.unpack (c : Codec α) (s : List UInt8) : Option α := (decode s).bind c.read

theorem unpack_pack (c : Codec α) {a : α} (h : c.Fits a) : c.unpack (c.pack a) = some a := by
  rw [Codec.unpack, Codec.pack, decode_encode (c.write_fits h), Option.bind_some, c.read_write h]

/-! ## Messages -/

section Pair

variable (c : Codec α) (d : Codec β)

theorem read_left {fs gs : List Field} (hf : ∀ f ∈ fs, f.number ∈ c.numbers)
    (hg : ∀ f ∈ gs, f.number ∉ c.numbers) : c.read (fs ++ gs) = c.read fs := by
  rw [← c.read_own, List.filter_append, List.filter_eq_self.mpr (by simpa using hf),
    List.filter_eq_nil_iff.mpr (by simpa using hg), List.append_nil]

theorem read_right {fs gs : List Field} (hf : ∀ f ∈ fs, f.number ∉ d.numbers)
    (hg : ∀ f ∈ gs, f.number ∈ d.numbers) : d.read (fs ++ gs) = d.read gs := by
  rw [← d.read_own, List.filter_append, List.filter_eq_nil_iff.mpr (by simpa using hf),
    List.filter_eq_self.mpr (by simpa using hg), List.nil_append]

theorem read_among (c : Codec α) {ns : List Nat} (h : ∀ n ∈ c.numbers, n ∈ ns) (fs : List Field) :
    c.read (fs.filter (fun f => f.number ∈ ns)) = c.read fs := by
  rw [← c.read_own, List.filter_filter, ← c.read_own fs]
  congr 1
  apply List.filter_congr
  intro f _
  by_cases hf : f.number ∈ c.numbers
  · simp [hf, h f.number hf]
  · simp [hf]

/-- Two groups of members with different numbers. -/
def Codec.pair (apart : ∀ n ∈ c.numbers, n ∉ d.numbers) : Codec (α × β) where
  numbers := c.numbers ++ d.numbers
  Fits p := c.Fits p.1 ∧ d.Fits p.2
  write p := c.write p.1 ++ d.write p.2
  read fs := (c.read fs).bind (fun a => (d.read fs).map (fun b => (a, b)))
  write_fits h := List.forall_mem_append.mpr ⟨c.write_fits h.1, d.write_fits h.2⟩
  write_own p := List.forall_mem_append.mpr
    ⟨fun f hf => List.mem_append_left _ (c.write_own p.1 f hf),
      fun f hf => List.mem_append_right _ (d.write_own p.2 f hf)⟩
  read_own fs := by
    rw [read_among c (fun n => List.mem_append_left _),
      read_among d (fun n => List.mem_append_right _)]
  read_write := by
    rintro ⟨a, b⟩ ⟨ha, hb⟩
    have hleft : ∀ f ∈ c.write a, f.number ∉ d.numbers := fun f hf => apart _ (c.write_own a f hf)
    have hright : ∀ f ∈ d.write b, f.number ∉ c.numbers :=
      fun f hf hown => apart _ hown (d.write_own b f hf)
    rw [read_left c (c.write_own a) hright, read_right d hleft (d.write_own b), c.read_write ha,
      d.read_write hb]
    rfl

end Pair

/-- The values of another type that are rebuilt from their members. -/
def Codec.map (c : Codec α) (f : α → β) (g : β → α) (P : β → Prop) (h : ∀ b, P b → f (g b) = b) :
    Codec β where
  numbers := c.numbers
  Fits b := P b ∧ c.Fits (g b)
  write b := c.write (g b)
  read fs := (c.read fs).map f
  write_fits hb := c.write_fits hb.2
  write_own b := c.write_own (g b)
  read_own fs := by rw [c.read_own]
  read_write := by
    rintro b ⟨hb, hfits⟩
    rw [c.read_write hfits, Option.map_some, h b hb]

/-! ## Members -/

/-- The payloads of the fields with one number. -/
def payloads (number : Nat) (fs : List Field) : List Payload :=
  (fs.filter (fun f => f.number = number)).map Field.payload

/-- A member whose fields all have one number. -/
def member (number : Nat) (hnumber : number < 2 ^ 29) (Fits : α → Prop) (put : α → List Payload)
    (get : List Payload → Option α) (put_fits : ∀ {a}, Fits a → ∀ p ∈ put a, p.Fits)
    (get_put : ∀ {a}, Fits a → get (put a) = some a) : Codec α where
  numbers := [number]
  Fits := Fits
  write a := (put a).map (fun p => ⟨number, p⟩)
  read fs := get (payloads number fs)
  write_fits := by
    intro a h f hf
    obtain ⟨p, hp, rfl⟩ := List.mem_map.mp hf
    exact ⟨hnumber, put_fits h p hp⟩
  write_own := by
    intro a f hf
    obtain ⟨p, -, rfl⟩ := List.mem_map.mp hf
    exact List.mem_singleton.mpr rfl
  read_own fs := by simp [payloads, List.filter_filter]
  read_write := by
    intro a h
    have hpayloads : payloads number ((put a).map (fun p => ⟨number, p⟩)) = put a := by
      simp [payloads, Function.comp_def, List.filter_map]
    rw [hpayloads, get_put h]

def Payload.varint? : Payload → Option Nat
  | .varint n => some n
  | .bytes _ => none

def Payload.bytes? : Payload → Option (List UInt8)
  | .varint _ => none
  | .bytes b => some b

/-- Zero is not written, and a negative number as its 64-bit two's complement. -/
def putInt (v : Int) : List Payload := if v = 0 then [] else [.varint (v % 2 ^ 64).toNat]

/-- The low bits of the last number. -/
def getInt (bits : Nat) (ps : List Payload) : Option Int :=
  (ps.mapM Payload.varint?).map (fun ns => Int.bmod (ns.getLastD 0) (2 ^ bits))

theorem putInt_fits (v : Int) : ∀ p ∈ putInt v, p.Fits := by
  intro p hp
  rw [putInt] at hp
  split at hp
  · cases hp
  · rw [List.mem_singleton.mp hp]
    simp only [Payload.Fits]
    omega

theorem getInt_putInt {bits : Nat} (hbits : bits = 64 ∨ bits = 32) {v : Int}
    (h : -2 ^ (bits - 1) ≤ v ∧ v < 2 ^ (bits - 1)) : getInt bits (putInt v) = some v := by
  rw [putInt]
  split
  · rename_i hzero
    obtain rfl | rfl := hbits <;> simp [getInt, hzero]
  · obtain rfl | rfl := hbits <;> simp [getInt, Payload.varint?, Int.bmod_def] <;> omega

/-- A signed number of 64 or of 32 bits. -/
def int (bits number : Nat) (hbits : bits = 64 ∨ bits = 32) (hnumber : number < 2 ^ 29) :
    Codec Int :=
  member number hnumber (fun v => -2 ^ (bits - 1) ≤ v ∧ v < 2 ^ (bits - 1)) putInt (getInt bits)
    (fun _ => putInt_fits _) (getInt_putInt hbits)

/-- The empty string is not written. -/
def putString (s : List UInt8) : List Payload := if s = [] then [] else [.bytes s]

/-- The last string. -/
def getString (ps : List Payload) : Option (List UInt8) :=
  (ps.mapM Payload.bytes?).map (fun ss => ss.getLastD [])

theorem putString_fits {s : List UInt8} (h : s.length < sizeLimit) : ∀ p ∈ putString s, p.Fits := by
  intro p hp
  rw [putString] at hp
  split at hp
  · cases hp
  · rw [List.mem_singleton.mp hp]
    exact h

theorem getString_putString (s : List UInt8) : getString (putString s) = some s := by
  rw [putString]
  split
  · rename_i hempty
    simp [getString, hempty]
  · simp [getString, Payload.bytes?]

def string (number : Nat) (hnumber : number < 2 ^ 29) : Codec (List UInt8) :=
  member number hnumber (fun s => s.length < sizeLimit) putString getString putString_fits
    (fun _ => getString_putString _)

/-- The packed message is within the limit of the format. -/
def Codec.PackFits (c : Codec α) (a : α) : Prop := c.Fits a ∧ (c.pack a).length < sizeLimit

def putMessages (c : Codec α) (as : List α) : List Payload := as.map (fun a => .bytes (c.pack a))

theorem putMessages_fits {c : Codec α} {as : List α} (h : ∀ a ∈ as, c.PackFits a) :
    ∀ p ∈ putMessages c as, p.Fits := by
  intro p hp
  obtain ⟨a, ha, rfl⟩ := List.mem_map.mp hp
  exact (h a ha).2

/-- Occurrences of a single message are merged, which is to read them as one. -/
def getMessage (c : Codec α) (ps : List Payload) : Option (Option α) :=
  (ps.mapM Payload.bytes?).bind (fun ss =>
    if ss = [] then some none else (c.unpack ss.flatten).map some)

theorem getMessage_put {c : Codec α} {o : Option α} (h : ∀ a ∈ o, c.PackFits a) :
    getMessage c (putMessages c o.toList) = some o := by
  cases o with
  | none => rfl
  | some a => simp [getMessage, putMessages, Payload.bytes?, unpack_pack c (h a rfl).1]

/-- A message that may be missing. -/
def message (number : Nat) (hnumber : number < 2 ^ 29) (c : Codec α) : Codec (Option α) :=
  member number hnumber (fun o => ∀ a ∈ o, c.PackFits a) (fun o => putMessages c o.toList)
    (getMessage c) (fun h => putMessages_fits fun a ha => h a (Option.mem_toList.mp ha))
    getMessage_put

def getMessages (c : Codec α) (ps : List Payload) : Option (List α) :=
  ps.mapM (fun p => (Payload.bytes? p).bind c.unpack)

theorem getMessages_put {c : Codec α} {as : List α} (h : ∀ a ∈ as, c.PackFits a) :
    getMessages c (putMessages c as) = some as := by
  have hread : getMessages c (putMessages c as) = some (as.map id) :=
    mapM_map fun a ha => unpack_pack c (h a ha).1
  rwa [List.map_id] at hread

/-- Any number of messages, in order. -/
def repeated (number : Nat) (hnumber : number < 2 ^ 29) (c : Codec α) : Codec (List α) :=
  member number hnumber (fun as => ∀ a ∈ as, c.PackFits a) (putMessages c) (getMessages c)
    putMessages_fits getMessages_put

/-! ## Sizes -/

theorem pair_length {c : Codec α} {d : Codec β} (apart : ∀ n ∈ c.numbers, n ∉ d.numbers)
    {p : α × β} {m n : Nat} (h₁ : (c.pack p.1).length ≤ m) (h₂ : (d.pack p.2).length ≤ n) :
    ((c.pair d apart).pack p).length ≤ m + n := by
  have hpack : (c.pair d apart).pack p = c.pack p.1 ++ d.pack p.2 := encode_append _ _
  rw [hpack, List.length_append]
  exact Nat.add_le_add h₁ h₂

/-- What the fields of one number take. -/
theorem fields_length (number : Nat) (ps : List Payload) :
    (encode (ps.map (fun p => ⟨number, p⟩))).length ≤ (ps.map fun p => 20 + p.size).sum := by
  have hencode := encode_length (ps.map (fun p => (⟨number, p⟩ : Field)))
  rwa [List.map_map] at hencode

theorem int_length {bits number : Nat} {hbits : bits = 64 ∨ bits = 32}
    {hnumber : number < 2 ^ 29} (v : Int) :
    ((int bits number hbits hnumber).pack v).length ≤ 20 := by
  have hput : ((putInt v).map fun p => 20 + p.size).sum ≤ 20 := by
    rw [putInt]
    split <;> simp [Payload.size]
  exact (fields_length number (putInt v)).trans hput

theorem string_length {number : Nat} {hnumber : number < 2 ^ 29} (s : List UInt8) :
    ((string number hnumber).pack s).length ≤ 20 + s.length := by
  have hput : ((putString s).map fun p => 20 + p.size).sum ≤ 20 + s.length := by
    rw [putString]
    split <;> simp [Payload.size]
  exact (fields_length number (putString s)).trans hput

theorem messages_length (number : Nat) (c : Codec α) (as : List α) :
    (encode ((putMessages c as).map (fun p => ⟨number, p⟩))).length ≤
      (as.map fun a => 20 + (c.pack a).length).sum := by
  have hfields := fields_length number (putMessages c as)
  have hsizes : (putMessages c as).map (fun p => 20 + p.size) =
      as.map fun a => 20 + (c.pack a).length := List.map_map ..
  rwa [hsizes] at hfields

theorem repeated_length {c : Codec α} {number : Nat} {hnumber : number < 2 ^ 29} (as : List α) :
    ((repeated number hnumber c).pack as).length ≤
      (as.map fun a => 20 + (c.pack a).length).sum :=
  messages_length number c as

theorem message_length {c : Codec α} {number : Nat} {hnumber : number < 2 ^ 29} {o : Option α}
    {n : Nat} (h : ∀ a ∈ o, (c.pack a).length ≤ n) :
    ((message number hnumber c).pack o).length ≤ 20 + n := by
  refine (messages_length number c o.toList).trans ?_
  cases o with
  | none => simp
  | some a =>
    have ha := h a rfl
    simpa using ha

end Lokicat.Codecs

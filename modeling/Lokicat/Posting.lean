import Lokicat.CommandLine
import Lokicat.Concrete
import Lokicat.LogForwarding
import Lokicat.Noninterference
import Lokicat.StampWindow

/-!
# What the server reads

The body of a push is the packed request, compressed. All requests of a run are within the
limits of the format. So a server that uncompresses and unpacks the bodies has the requests:
labels, stamps and lines, in the order of the pushes.
-/

namespace Lokicat.Posting

open Batching CommandLine Concrete CString Delivery Framing InputLogread Iteration Libraries
  LocalTime LogForwarding Logproto MainLoop Message Noninterference Push StampWindow Util

/-- `"{job=\"lokicat\",instance=\"%s\"}"`, in an array of 1023 bytes. -/
def instanceLabels (hName : List Byte) : List Byte :=
  snprintf 1023 (ascii ['{', 'j', 'o', 'b', '=', '"', 'l', 'o', 'k', 'i', 'c', 'a', 't', '"', ',',
    'i', 'n', 's', 't', 'a', 'n', 'c', 'e', '=', '"'] ++ cstr hName ++ ascii ['"', '}'])

theorem instanceLabels_short (hName : List Byte) : (instanceLabels hName).length ≤ 1022 :=
  List.length_take_le _ _

theorem instanceLabels_text (hName : List Byte) : NulFree (instanceLabels hName) := by
  have htext : ∀ s t : List Byte, NulFree s → NulFree t → NulFree (s ++ cstr hName ++ t) :=
    fun s t hs ht => List.forall_mem_append.mpr
      ⟨List.forall_mem_append.mpr ⟨hs, visible_free isNul hName⟩, ht⟩
  intro b hb
  exact htext _ _ (by decide) (by decide) b (List.mem_of_mem_take hb)

/-- The requests that were compressed and given to curl, in order. -/
def posted (st : State) : List Sent :=
  (sents st.trace).filter (fun s => s.outcome.compressedRes = snappyOk)

/-- The stamp has 64 bits and no fraction; the line is terminated only at its end and is not
longer than `n`. -/
structure EntryFits (n : Nat) (e : Entry) : Prop where
  stamp : ∀ t ∈ e.timestamp, -2 ^ 63 ≤ t.seconds ∧ t.seconds < 2 ^ 63 ∧ t.nanos = 0
  text : NulFree e.line
  short : e.line.length ≤ n

/-- A batch of entries with lines of at most 16 MiB is within the limits. -/
theorem batch_encodable {n : Nat} (hn : n ≤ 2 ^ 24) {labels : List Byte} {entries : List Entry}
    (text : NulFree labels) (short : labels.length ≤ 1022) (few : entries.length ≤ maxEntries)
    (fits : ∀ e ∈ entries, EntryFits n e) : Encodable ⟨[⟨labels, entries⟩]⟩ where
  labels := List.forall_mem_singleton.mpr text
  lines := List.forall_mem_singleton.mpr fun e he => (fits e he).text
  stamps := List.forall_mem_singleton.mpr fun e he t ht => by
    obtain ⟨hlow, hhigh, hnanos⟩ := (fits e he).stamp t ht
    exact ⟨⟨hlow, hhigh⟩, by omega⟩
  size := by
    have hlines : (entries.map fun e => 100 + e.line.length).sum ≤ entries.length * (100 + n) := by
      rw [← Nat.nsmul_eq_mul, ← List.length_map (fun e => 100 + e.line.length)]
      apply List.sum_le_card_nsmul
      intro x hx
      obtain ⟨e, he, rfl⟩ := List.mem_map.mp hx
      exact Nat.add_le_add_left (fits e he).short 100
    have hfew := Nat.mul_le_mul_right (100 + n) few
    simp only [maxEntries] at hfew
    simp only [sizeBound, List.map_cons, List.map_nil, List.sum_cons, List.sum_nil]
    omega

theorem trim_length (str : List Byte) : (trim str).length ≤ str.length := by
  obtain ⟨w₁, w₂, hsplit, -, -⟩ := trim_split str
  have hlength := congrArg List.length hsplit
  simp only [List.length_append] at hlength
  omega

/-- An entry's line is not longer than the line it comes from. -/
theorem parse_length (z : ZoneRule) (now : Int) (line : List Byte) (entry : Entry) :
    (inputLogreadParseLine z now line entry).line.length ≤ line.length := by
  rw [parse_line]
  obtain ⟨p, hp, -⟩ := afterDate_split line
  have hlength := congrArg List.length hp
  rw [List.length_append] at hlength
  exact (trim_length _).trans (by omega)

section Runs

variable {cfg : Config} {turns : List Turn} (within : WithinDay cfg.zone)
  (clocks : ∀ t ∈ turns, ∀ k, -2 ^ 55 ≤ (t.line k).parseClock ∧ (t.line k).parseClock ≤ 2 ^ 55)
  (short : ∀ r ∈ records isNewline (runMain cfg turns).bytesRead, r.length ≤ 2 ^ 24)

include within in
/-- What is parsed from a line of so many bytes at most can be packed. -/
theorem parsed_fits {now : Int} (clock : -2 ^ 55 ≤ now ∧ now ≤ 2 ^ 55) {line : List Byte} {n : Nat}
    (short : line.length ≤ n) : EntryFits n (parsed cfg.zone now line) where
  stamp := stamp_fits within clock (cstr line) rfl
  text := parse_nulFree cfg.zone now (visible_free isNul line) Entry.init
  short := (parse_length ..).trans ((visible_length isNul line).trans short)

/-- A property of the left elements that gives one of the right. -/
theorem forall_right {α β : Type} {R : α → β → Prop} {P : α → Prop} {Q : β → Prop} {as : List α}
    {bs : List β} (h : List.Forall₂ R as bs) (step : ∀ a b, R a b → P a → Q b)
    (left : ∀ a ∈ as, P a) : ∀ b ∈ bs, Q b := by
  induction h with
  | nil => simp
  | cons hab _ ih =>
    obtain ⟨ha, has⟩ := List.forall_mem_cons.mp left
    exact List.forall_mem_cons.mpr ⟨step _ _ hab ha, ih has⟩

include within clocks short in
/-- All entries completed can be packed. -/
theorem completed_fits : ∀ e ∈ completed (runMain cfg turns).trace, EntryFits (2 ^ 24) e := by
  have hclocked : Clocked cfg (fun now => -2 ^ 55 ≤ now ∧ now ≤ 2 ^ 55) (runMain cfg turns) :=
    clocked_run cfg clocks
  have hshorter := scanChunks_shorter isNul isNewline (Nat.le_refl ([] : List Byte).length)
    (reads (runMain cfg turns).trace)
  have hframed : ∀ r ∈ (framed (runMain cfg turns)).1, r.length ≤ 2 ^ 24 :=
    forall_right hshorter.flip (fun _ _ hle hr => hle.trans hr) short
  refine forall_right hclocked.parses ?_ hframed
  rintro r e ⟨now, hnow, rfl⟩ hr
  exact parsed_fits within hnow hr

include within clocks short in
/-- All requests are within the limits of the format. -/
theorem request_encodable (text : NulFree cfg.labels) (hlabels : cfg.labels.length ≤ 1022) :
    ∀ s ∈ sents (runMain cfg turns).trace, Encodable s.request := by
  intro s hs
  rw [request_shape cfg turns s hs]
  apply batch_encodable (Nat.le_refl _) text hlabels ((bounded_run cfg turns).sizes s hs).2
  intro e he
  have hbatch : e ∈ (runMain cfg turns).batches.flatten :=
    List.mem_flatten.mpr ⟨s.entries, List.mem_map.mpr ⟨s, hs, rfl⟩, he⟩
  apply completed_fits within clocks short
  rw [← handed_over]
  exact List.mem_append_left _ hbatch

include within clocks short in
/-- The server takes every body for the request that it was made of. -/
theorem body_received {outside : Outside} (documented : outside.Documented) {hName : List Byte}
    (labels : cfg.labels = instanceLabels hName) :
    ∀ s ∈ sents (runMain cfg turns).trace,
      outside.server (outside.body s.request) = some s.request := by
  intro s hs
  apply server_body documented
  apply request_encodable within clocks short _ _ s hs
  · rw [labels]
    exact instanceLabels_text hName
  · rw [labels]
    exact instanceLabels_short hName

end Runs

end Lokicat.Posting

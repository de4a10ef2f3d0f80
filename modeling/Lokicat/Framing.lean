import Mathlib.Data.List.Forall2
import Mathlib.Data.List.Induction
import Mathlib.Data.List.TakeWhile

/-!
# Delimited records and chunked readers

A stream over any alphabet is cut into records, each ending in its only
delimiter, and an unfinished rest. A chunked reader keeps the unfinished
record between chunks and re-reads it, at every chunk, only up to the first
stop symbol, as a reader does that stores it as a terminated string.

Without stop symbols the chunks do not matter. With them, `readings` lists
what the chunk boundaries can make of one record, and a reader's results are
independent of the chunks exactly when no reading changes them.
-/

namespace Lokicat.Framing

variable {α β : Type}

/-- Cut a stream after each delimiter, behind an already pending prefix. -/
def scan (p : α → Bool) : List α → List α → List (List α) × List α
  | pend, [] => ([], pend)
  | pend, b :: bs =>
    if p b then ((pend ++ [b]) :: (scan p [] bs).1, (scan p [] bs).2)
    else scan p (pend ++ [b]) bs

/-- The finished records of a stream, each with its delimiter. -/
def records (p : α → Bool) (s : List α) : List (List α) := (scan p [] s).1

/-- What follows the last delimiter. -/
def rest (p : α → Bool) (s : List α) : List α := (scan p [] s).2

@[simp] theorem scan_nil (p : α → Bool) (pend : List α) : scan p pend [] = ([], pend) := rfl

theorem scan_delimiter {p : α → Bool} {b : α} (h : p b = true) (pend bs : List α) :
    scan p pend (b :: bs) = ((pend ++ [b]) :: (scan p [] bs).1, (scan p [] bs).2) := by
  simp only [scan, h, if_true]

theorem scan_other {p : α → Bool} {b : α} (h : p b = false) (pend bs : List α) :
    scan p pend (b :: bs) = scan p (pend ++ [b]) bs := by
  simp only [scan, h, Bool.false_eq_true, if_false]

/-- Scanning a stretch without delimiters only extends the pending prefix. -/
theorem scan_plain {p : α → Bool} {w : List α} (h : ∀ b ∈ w, p b = false) (pend bs : List α) :
    scan p pend (w ++ bs) = scan p (pend ++ w) bs := by
  induction w generalizing pend with
  | nil => simp
  | cons b w ih =>
    rw [List.cons_append, scan_other (h b (by simp)), ih (fun c hc => h c (by simp [hc]))]
    simp

/-- A stretch closed by a delimiter is one record. -/
theorem scan_record {p : α → Bool} {w : List α} {d : α} (hw : ∀ b ∈ w, p b = false)
    (hd : p d = true) (pend bs : List α) :
    scan p pend (w ++ d :: bs) =
      ((pend ++ w ++ [d]) :: (scan p [] bs).1, (scan p [] bs).2) := by
  rw [scan_plain hw, scan_delimiter hd]

/-- A scan may stop anywhere and go on from what is pending. -/
theorem scan_append (p : α → Bool) (pend xs ys : List α) :
    scan p pend (xs ++ ys) =
      ((scan p pend xs).1 ++ (scan p (scan p pend xs).2 ys).1,
        (scan p (scan p pend xs).2 ys).2) := by
  induction xs generalizing pend with
  | nil => simp
  | cons b xs ih =>
    cases h : p b with
    | true => simp only [List.cons_append, scan_delimiter h, ih]
    | false => simp only [List.cons_append, scan_other h, ih]

/-- Nothing is lost, added or moved by cutting. -/
theorem scan_flatten (p : α → Bool) (pend s : List α) :
    (scan p pend s).1.flatten ++ (scan p pend s).2 = pend ++ s := by
  induction s generalizing pend with
  | nil => simp
  | cons b s ih =>
    cases h : p b with
    | true => simp [scan_delimiter h, List.append_assoc, ih]
    | false => simp [scan_other h, ih]

/-- There is one record for each delimiter. -/
theorem scan_length (p : α → Bool) (pend s : List α) :
    (scan p pend s).1.length = s.countP p := by
  induction s generalizing pend with
  | nil => simp
  | cons b s ih =>
    cases h : p b with
    | true => simp [scan_delimiter h, h, ih]
    | false => simp [scan_other h, h, ih]

theorem countP_plain {p : α → Bool} {w : List α} (h : ∀ b ∈ w, p b = false) : w.countP p = 0 := by
  rw [List.countP_eq_zero]
  simpa using h

/-- A record is a delimiter-free body and one delimiter. -/
def IsRecord (p : α → Bool) (r : List α) : Prop :=
  ∃ w d, r = w ++ [d] ∧ (∀ b ∈ w, p b = false) ∧ p d = true

/-- Records have one delimiter, their last symbol, and the rest has none. -/
theorem scan_shape (p : α → Bool) (pend s : List α) (hp : ∀ b ∈ pend, p b = false) :
    (∀ r ∈ (scan p pend s).1, IsRecord p r) ∧ ∀ b ∈ (scan p pend s).2, p b = false := by
  induction s generalizing pend with
  | nil => simpa using hp
  | cons b s ih =>
    cases h : p b with
    | true =>
      have hrest := ih [] (by simp)
      rw [scan_delimiter h]
      refine ⟨?_, hrest.2⟩
      intro r hr
      rcases List.mem_cons.mp hr with rfl | hr
      · exact ⟨pend, b, rfl, hp, h⟩
      · exact hrest.1 r hr
    | false =>
      rw [scan_other h]
      apply ih
      intro c hc
      rcases List.mem_append.mp hc with hc | hc
      · exact hp c hc
      · rw [List.mem_singleton.mp hc]; exact h

theorem records_shape (p : α → Bool) (s : List α) : ∀ r ∈ records p s, IsRecord p r :=
  (scan_shape p [] s (by simp)).1

theorem records_append_rest (p : α → Bool) (s : List α) :
    (records p s).flatten ++ rest p s = s := by
  simpa [records, rest] using scan_flatten p [] s

theorem records_length (p : α → Bool) (s : List α) : (records p s).length = s.countP p :=
  scan_length p [] s

/-- The records and, if it is not empty, the rest: what a line reader returns. -/
def lines (p : α → Bool) (s : List α) : List (List α) :=
  records p s ++ (match rest p s with | [] => [] | b :: bs => [b :: bs])

theorem records_record {p : α → Bool} {w : List α} {d : α} (hw : ∀ b ∈ w, p b = false)
    (hd : p d = true) (bs : List α) :
    records p (w ++ d :: bs) = (w ++ [d]) :: records p bs ∧
      rest p (w ++ d :: bs) = rest p bs := by
  simp only [records, rest, scan_record hw hd, List.nil_append, and_self]

theorem lines_record {p : α → Bool} {w : List α} {d : α} (hw : ∀ b ∈ w, p b = false)
    (hd : p d = true) (bs : List α) : lines p (w ++ d :: bs) = (w ++ [d]) :: lines p bs := by
  obtain ⟨hrecords, hrest⟩ := records_record hw hd bs
  simp only [lines, hrecords, hrest, List.cons_append]

theorem records_plain {p : α → Bool} {w : List α} (h : ∀ b ∈ w, p b = false) :
    records p w = [] ∧ rest p w = w := by
  have hscan := scan_plain h [] []
  rw [List.append_nil] at hscan
  simp only [records, rest, hscan, scan_nil, List.nil_append, and_self]

@[simp] theorem lines_nil (p : α → Bool) : lines p [] = [] := rfl

theorem lines_plain {p : α → Bool} {w : List α} (h : ∀ b ∈ w, p b = false) (hne : w ≠ []) :
    lines p w = [w] := by
  obtain ⟨hrecords, hrest⟩ := records_plain h
  obtain ⟨b, bs, rfl⟩ := List.exists_cons_of_ne_nil hne
  simp only [lines, hrecords, hrest, List.nil_append]

/-- Symbols of records and of the rest are symbols of the stream. -/
theorem records_mem {p : α → Bool} {s r : List α} (hr : r ∈ records p s) : ∀ b ∈ r, b ∈ s := by
  intro b hb
  rw [← records_append_rest p s]
  exact List.mem_append_left _ (List.mem_flatten.mpr ⟨r, hr, hb⟩)

theorem rest_mem (p : α → Bool) (s : List α) : ∀ b ∈ rest p s, b ∈ s := by
  intro b hb
  rw [← records_append_rest p s]
  exact List.mem_append_right _ hb

theorem rest_concat (p : α → Bool) (s : List α) (b : α) :
    rest p (s ++ [b]) = if p b then [] else rest p s ++ [b] := by
  rw [rest, scan_append]
  cases h : p b with
  | true => simp [scan_delimiter h]
  | false => simp [scan_other h, rest]

/-- Nothing is left over exactly when the stream is empty or ends in a delimiter. -/
theorem rest_eq_nil_iff (p : α → Bool) (s : List α) :
    rest p s = [] ↔ ∀ b ∈ s.getLast?, p b = true := by
  induction s using List.reverseRecOn with
  | nil => simp [rest]
  | append_singleton s b ih =>
    rw [rest_concat]
    cases h : p b <;> simp [h]

/-- A stream that is cut short anywhere has as many of its records as delimiters. -/
theorem records_prefix {p : α → Bool} {rs : List (List α)} (h : ∀ r ∈ rs, IsRecord p r)
    {s : List α} (hs : s <+: rs.flatten) : records p s = rs.take (s.countP p) := by
  induction rs generalizing s with
  | nil =>
    rw [List.prefix_nil.mp hs]
    rfl
  | cons r rs ih =>
    obtain ⟨w, d, rfl, hw, hd⟩ := h r (by simp)
    rw [List.flatten_cons] at hs
    rcases Nat.lt_or_ge w.length s.length with hlong | hshort
    · obtain ⟨s', rfl⟩ : w ++ [d] <+: s :=
        List.prefix_of_prefix_length_le (List.prefix_append _ _) hs
          (by simpa [Nat.succ_le_iff] using hlong)
      have htail := ih (fun r hr => h r (by simp [hr]))
        ((List.prefix_append_right_inj (w ++ [d])).mp hs)
      rw [List.append_assoc, List.singleton_append, (records_record hw hd s').1, htail,
        List.countP_append, countP_plain hw, List.countP_cons_of_pos hd, Nat.zero_add,
        List.take_succ_cons]
    · have hinit : s <+: w := by
        rw [List.append_assoc] at hs
        exact List.prefix_of_prefix_length_le hs (List.prefix_append _ _) hshort
      have hplain : ∀ b ∈ s, p b = false := fun b hb => hw b (hinit.subset hb)
      rw [(records_plain hplain).1, countP_plain hplain, List.take_zero]

theorem countP_records {p : α → Bool} {rs : List (List α)} (h : ∀ r ∈ rs, IsRecord p r) :
    rs.flatten.countP p = rs.length := by
  induction rs with
  | nil => rfl
  | cons r rs ih =>
    obtain ⟨w, d, rfl, hw, hd⟩ := h r (by simp)
    rw [List.flatten_cons, List.countP_append, ih fun r hr => h r (by simp [hr]),
      List.countP_append, countP_plain hw, List.length_cons]
    simp [hd, Nat.add_comm]

theorem lines_of_rest_nil {p : α → Bool} {s : List α} (h : rest p s = []) :
    lines p s = records p s := by
  simp only [lines, h, List.append_nil]

/-- The part of a stored string that a reader of terminated strings sees. -/
def visible (z : α → Bool) (w : List α) : List α := w.takeWhile (fun b => !z b)

@[simp] theorem visible_nil (z : α → Bool) : visible z [] = [] := rfl

theorem visible_eq_self {z : α → Bool} {w : List α} (h : ∀ b ∈ w, z b = false) :
    visible z w = w := by
  simp only [visible, List.takeWhile_eq_self_iff]
  intro b hb
  simp [h b hb]

theorem visible_free (z : α → Bool) (w : List α) : ∀ b ∈ visible z w, z b = false := by
  intro b hb
  have := List.mem_takeWhile_imp hb
  simpa using this

theorem visible_append {z : α → Bool} {v : List α} (h : ∀ b ∈ v, z b = false) (w : List α) :
    visible z (v ++ w) = v ++ visible z w := by
  induction v with
  | nil => rfl
  | cons b v ih =>
    have hb : z b = false := h b (by simp)
    have := ih (fun c hc => h c (by simp [hc]))
    simp only [visible] at this ⊢
    simp [hb, this]

theorem visible_visible_append (z : α → Bool) (v w : List α) :
    visible z (visible z v ++ w) = visible z v ++ visible z w :=
  visible_append (visible_free z v) w

/-- The chunked reader: what is pending is re-read at the start of each chunk. -/
def scanChunks (z p : α → Bool) : List α → List (List α) → List (List α) × List α
  | pend, [] => ([], pend)
  | pend, c :: cs =>
    ((scan p (visible z pend) c).1 ++ (scanChunks z p (scan p (visible z pend) c).2 cs).1,
      (scanChunks z p (scan p (visible z pend) c).2 cs).2)

@[simp] theorem scanChunks_nil (z p : α → Bool) (pend : List α) :
    scanChunks z p pend [] = ([], pend) := rfl

theorem scanChunks_append (z p : α → Bool) (pend : List α) (cs ds : List (List α)) :
    scanChunks z p pend (cs ++ ds) =
      ((scanChunks z p pend cs).1 ++ (scanChunks z p (scanChunks z p pend cs).2 ds).1,
        (scanChunks z p (scanChunks z p pend cs).2 ds).2) := by
  induction cs generalizing pend with
  | nil => simp
  | cons c cs ih => simp only [List.cons_append, scanChunks, ih, List.append_assoc]

theorem scanChunks_concat (z p : α → Bool) (pend : List α) (cs : List (List α)) (c : List α) :
    scanChunks z p pend (cs ++ [c]) =
      ((scanChunks z p pend cs).1 ++ (scan p (visible z (scanChunks z p pend cs).2) c).1,
        (scan p (visible z (scanChunks z p pend cs).2) c).2) := by
  rw [scanChunks_append]
  simp [scanChunks]

/-- Every chunking yields one record for each delimiter. -/
theorem scanChunks_length (z p : α → Bool) (pend : List α) (cs : List (List α)) :
    (scanChunks z p pend cs).1.length = cs.flatten.countP p := by
  induction cs generalizing pend with
  | nil => simp
  | cons c cs ih => simp [scanChunks, scan_length, ih]

/-- Without stop symbols the chunked reader is the plain scan. -/
theorem scanChunks_eq_scan {z : α → Bool} (p : α → Bool) {pend : List α} {cs : List (List α)}
    (hp : ∀ b ∈ pend, z b = false) (hc : ∀ b ∈ cs.flatten, z b = false) :
    scanChunks z p pend cs = scan p pend cs.flatten := by
  induction cs generalizing pend with
  | nil => simp
  | cons c cs ih =>
    have hvis : visible z pend = pend := visible_eq_self hp
    have hnext : ∀ b ∈ (scan p pend c).2, z b = false := by
      intro b hb
      have hmem : b ∈ pend ++ c := by
        rw [← scan_flatten p pend c]
        exact List.mem_append_right _ hb
      rcases List.mem_append.mp hmem with h | h
      · exact hp b h
      · exact hc b (by simp [h])
    have hrest : ∀ b ∈ cs.flatten, z b = false := by
      intro b hb
      exact hc b (by rw [List.flatten_cons]; exact List.mem_append_right _ hb)
    rw [List.flatten_cons, scan_append]
    simp only [scanChunks, hvis, ih hnext hrest]

theorem visible_length (z : α → Bool) (w : List α) : (visible z w).length ≤ w.length :=
  (List.takeWhile_sublist _).length_le

/-- Behind a shorter prefix the records are not longer. -/
theorem scan_shorter (p : α → Bool) {pend q : List α} (h : pend.length ≤ q.length) (s : List α) :
    List.Forall₂ (fun r r' => r.length ≤ r'.length) (scan p pend s).1 (scan p q s).1 ∧
      (scan p pend s).2.length ≤ (scan p q s).2.length := by
  induction s generalizing pend q with
  | nil => exact ⟨.nil, h⟩
  | cons b s ih =>
    cases hb : p b with
    | true =>
      rw [scan_delimiter hb, scan_delimiter hb]
      obtain ⟨hrecords, hrest⟩ := ih (Nat.le_refl ([] : List α).length)
      exact ⟨.cons (by simpa using h) hrecords, hrest⟩
    | false =>
      rw [scan_other hb, scan_other hb]
      exact ih (by simpa using h)

/-- The chunked reader makes no record longer. -/
theorem scanChunks_shorter (z p : α → Bool) {pend q : List α} (h : pend.length ≤ q.length)
    (cs : List (List α)) :
    List.Forall₂ (fun r r' => r.length ≤ r'.length) (scanChunks z p pend cs).1
      (scan p q cs.flatten).1 := by
  induction cs generalizing pend q with
  | nil => exact .nil
  | cons c cs ih =>
    obtain ⟨hrecords, hrest⟩ := scan_shorter p ((visible_length z pend).trans h) c
    rw [List.flatten_cons, scan_append]
    exact List.rel_append hrecords (ih hrest)

theorem visible_head {z : α → Bool} {w : List α} (h : ∀ b ∈ w.head?, z b = false) :
    (visible z w).head? = w.head? := by
  cases w with
  | nil => rfl
  | cons b w =>
    have hb := h b rfl
    simp [visible, hb]

/-- What is left over starts the same wherever what was pending did. -/
theorem scan_head (p : α → Bool) {pend q : List α} (h : pend.head? = q.head?) (s : List α) :
    (scan p pend s).2.head? = (scan p q s).2.head? := by
  induction s generalizing pend q with
  | nil => exact h
  | cons b s ih =>
    cases hb : p b with
    | true => rw [scan_delimiter hb, scan_delimiter hb]
    | false =>
      rw [scan_other hb, scan_other hb]
      exact ih (by rw [List.head?_append, List.head?_append, h])

/-- No chunk comes while the unfinished record starts with a stop symbol. -/
def HeadsShown (z p : α → Bool) (cs : List (List α)) : Prop :=
  ∀ ps c, ps ++ [c] <+: cs → ∀ b ∈ (rest p ps.flatten).head?, z b = false

theorem headsShown_nil (z p : α → Bool) : HeadsShown z p [] := by
  intro ps c h
  have hnil := List.prefix_nil.mp h
  simp at hnil

theorem headsShown_concat (z p : α → Bool) (cs : List (List α)) (c : List α) :
    HeadsShown z p (cs ++ [c]) ↔
      HeadsShown z p cs ∧ ∀ b ∈ (rest p cs.flatten).head?, z b = false := by
  constructor
  · intro h
    exact ⟨fun ps d hps => h ps d (hps.trans (List.prefix_append _ _)), h cs c List.prefix_rfl⟩
  · rintro ⟨h, hlast⟩ ps d hps
    obtain heq | hps := List.prefix_concat_iff.mp hps
    · rw [(List.append_inj' heq rfl).1]
      exact hlast
    · exact h ps d hps

/-- Then the pending record starts as what follows the last delimiter does. -/
theorem scanChunks_head {z : α → Bool} (p : α → Bool) {cs : List (List α)}
    (h : HeadsShown z p cs) : (scanChunks z p [] cs).2.head? = (rest p cs.flatten).head? := by
  induction cs using List.reverseRecOn with
  | nil => rfl
  | append_singleton cs c ih =>
    obtain ⟨hinit, hhead⟩ := (headsShown_concat z p cs c).mp h
    rw [scanChunks_concat, List.flatten_append, List.flatten_singleton, rest, scan_append]
    apply scan_head
    rw [← rest, visible_head (by rwa [ih hinit]), ih hinit]

/-- The number of chunks that come while the pending record starts with a stop symbol. -/
def hiddenHeads (z p : α → Bool) : List α → List (List α) → Nat
  | _, [] => 0
  | pend, c :: cs =>
    (pend.head?.any z).toNat + hiddenHeads z p (scan p (visible z pend) c).2 cs

theorem hiddenHeads_concat (z p : α → Bool) (pend : List α) (cs : List (List α))
    (c : List α) :
    hiddenHeads z p pend (cs ++ [c]) =
      hiddenHeads z p pend cs + ((scanChunks z p pend cs).2.head?.any z).toNat := by
  induction cs generalizing pend with
  | nil => simp [hiddenHeads]
  | cons d cs ih => simp only [List.cons_append, hiddenHeads, ih, scanChunks, Nat.add_assoc]

/-- None comes so exactly if the heads are shown. -/
theorem hiddenHeads_eq_zero (z p : α → Bool) (cs : List (List α)) :
    hiddenHeads z p [] cs = 0 ↔ HeadsShown z p cs := by
  induction cs using List.reverseRecOn with
  | nil => exact iff_of_true rfl (headsShown_nil z p)
  | append_singleton cs c ih =>
    rw [hiddenHeads_concat, headsShown_concat, Nat.add_eq_zero_iff, ih]
    refine and_congr_right fun hshown => ?_
    rw [scanChunks_head p hshown]
    cases (rest p cs.flatten).head? <;> simp

end Lokicat.Framing

import Lokicat.Framing

/-!
# Chunk independence

What a chunked reader of terminated strings makes of a record depends on where
the record is cut behind a stop symbol. All it can make of it are the record's
readings, and the results of a stream are the same for all its chunkings
exactly when no reading changes a result.
-/

namespace Lokicat.Rechunking

open Framing

variable {α β : Type}

/-- What chunk boundaries can make of a record: a stop symbol hides what follows
it in its chunk, so each hidden stretch shows up from some boundary on, or not
at all. The flag says that a stop symbol was seen since the last boundary. -/
def readings (z : α → Bool) : Bool → List α → List (List α)
  | _, [] => [[]]
  | hidden, b :: bs =>
    if z b then readings z true bs
    else if hidden then readings z true bs ++ (readings z false bs).map (b :: ·)
    else (readings z false bs).map (b :: ·)

theorem readings_stop {z : α → Bool} {b : α} (h : z b = true) (hidden : Bool) (bs : List α) :
    readings z hidden (b :: bs) = readings z true bs := by
  simp only [readings, h, if_true]

theorem readings_shown {z : α → Bool} {b : α} (h : z b = false) (bs : List α) :
    readings z false (b :: bs) = (readings z false bs).map (b :: ·) := by
  simp only [readings, h, Bool.false_eq_true, if_false]

theorem readings_hidden {z : α → Bool} {b : α} (h : z b = false) (bs : List α) :
    readings z true (b :: bs) =
      readings z true bs ++ (readings z false bs).map (b :: ·) := by
  simp only [readings, h, Bool.false_eq_true, if_false, if_true]

/-- A boundary may be put anywhere, so hiding is never forced. -/
theorem readings_mono (z : α → Bool) {w x : List α} (h : x ∈ readings z false w) :
    x ∈ readings z true w := by
  cases w with
  | nil => exact h
  | cons b w =>
    cases hb : z b with
    | true => rwa [readings_stop hb] at h ⊢
    | false =>
      rw [readings_shown hb] at h
      rw [readings_hidden hb]
      exact List.mem_append_right _ h

theorem nil_mem_readings (z : α → Bool) (w : List α) : [] ∈ readings z true w := by
  induction w with
  | nil => simp [readings]
  | cons b w ih =>
    cases hb : z b with
    | true => rwa [readings_stop hb]
    | false => rw [readings_hidden hb]; exact List.mem_append_left _ ih

/-- Reading a record in one piece is one of its readings. -/
theorem visible_mem_readings (z : α → Bool) (w : List α) : visible z w ∈ readings z false w := by
  induction w with
  | nil => simp [readings]
  | cons b w ih =>
    cases hb : z b with
    | true =>
      rw [readings_stop hb]
      simpa [visible, hb] using nil_mem_readings z w
    | false =>
      rw [readings_shown hb]
      simpa [visible, hb] using ih

/-- Readings of consecutive stretches join at a boundary. -/
theorem readings_append {z : α → Bool} {hidden : Bool} {q w v x : List α}
    (hv : v ∈ readings z hidden q) (hx : x ∈ readings z false w) :
    v ++ x ∈ readings z hidden (q ++ w) := by
  induction q generalizing v hidden with
  | nil =>
    have hnil : v = [] := by simpa [readings] using hv
    subst hnil
    cases hidden with
    | true => exact readings_mono z hx
    | false => exact hx
  | cons b q ih =>
    rw [List.cons_append]
    cases hb : z b with
    | true =>
      rw [readings_stop hb] at hv ⊢
      exact ih hv
    | false =>
      cases hidden with
      | false =>
        rw [readings_shown hb] at hv ⊢
        obtain ⟨v', hv', rfl⟩ := List.mem_map.mp hv
        exact List.mem_map.mpr ⟨v' ++ x, ih hv', rfl⟩
      | true =>
        rw [readings_hidden hb] at hv ⊢
        rcases List.mem_append.mp hv with hv | hv
        · exact List.mem_append_left _ (ih hv)
        · obtain ⟨v', hv', rfl⟩ := List.mem_map.mp hv
          exact List.mem_append_right _ (List.mem_map.mpr ⟨v' ++ x, ih hv', rfl⟩)

/-- Within one chunk every record is seen under one of its readings. -/
theorem scan_readings {z : α → Bool} (p : α → Bool) {pend q : List α}
    (hq : visible z pend ∈ readings z false q) (c : List α) :
    List.Forall₂ (fun r s => visible z r ∈ readings z false s)
      (scan p (visible z pend) c).1 (scan p q c).1 ∧
    visible z (scan p (visible z pend) c).2 ∈ readings z false (scan p q c).2 := by
  -- The induction is on the chunk behind a stretch `w` already scanned in it.
  suffices h : ∀ c w v q : List α, v ∈ readings z false q → (∀ b ∈ v, z b = false) →
      List.Forall₂ (fun r s => visible z r ∈ readings z false s)
        (scan p (v ++ w) c).1 (scan p (q ++ w) c).1 ∧
      visible z (scan p (v ++ w) c).2 ∈ readings z false (scan p (q ++ w) c).2 by
    simpa using h c [] (visible z pend) q hq (visible_free z pend)
  intro c
  induction c with
  | nil =>
    intro w v q hv hfree
    refine ⟨List.Forall₂.nil, ?_⟩
    rw [scan_nil, scan_nil, visible_append hfree]
    exact readings_append hv (visible_mem_readings z w)
  | cons b c ih =>
    intro w v q hv hfree
    cases hb : p b with
    | true =>
      rw [scan_delimiter hb, scan_delimiter hb]
      have hrest := ih [] [] [] (by simp [readings]) (by simp)
      refine ⟨List.Forall₂.cons ?_ (by simpa using hrest.1), by simpa using hrest.2⟩
      rw [List.append_assoc, List.append_assoc, visible_append hfree]
      exact readings_append hv (visible_mem_readings z _)
    | false =>
      rw [scan_other hb, scan_other hb, List.append_assoc, List.append_assoc]
      exact ih (w ++ [b]) v q hv hfree

/-- Over all chunks every record is seen under one of its readings. -/
theorem scanChunks_readings {z : α → Bool} (p : α → Bool) {pend q : List α}
    (hq : visible z pend ∈ readings z false q) (cs : List (List α)) :
    List.Forall₂ (fun r s => visible z r ∈ readings z false s)
      (scanChunks z p pend cs).1 (scan p q cs.flatten).1 := by
  induction cs generalizing pend q with
  | nil => exact List.Forall₂.nil
  | cons c cs ih =>
    obtain ⟨hrecords, hpend⟩ := scan_readings p hq c
    rw [List.flatten_cons, scan_append]
    simp only [scanChunks]
    exact List.rel_append hrecords (ih hpend)

/-- Pieces that hold no delimiter before the last symbol make one record, seen
as the visible parts of the pieces together. -/
theorem scanChunks_pieces {z p : α → Bool} (pend : List α) (cs : List (List α)) (w : List α) (d : α)
    (hcs : cs.flatten = w ++ [d]) (hw : ∀ b ∈ w, p b = false) (hd : p d = true)
    (hne : ∀ c ∈ cs, c ≠ []) :
    ∃ r, scanChunks z p pend cs = ([r], []) ∧
      visible z r = visible z pend ++ cs.flatMap (visible z) := by
  induction cs generalizing pend w with
  | nil => simp at hcs
  | cons c cs ih =>
    rcases List.eq_nil_or_concat cs with hnil | ⟨cs', c', hconcat⟩
    · subst hnil
      have hc : c = w ++ [d] := by simpa using hcs
      refine ⟨visible z pend ++ c, ?_, ?_⟩
      · subst hc
        simp [scanChunks, scan_record hw hd]
      · rw [visible_visible_append]
        simp
    · -- The delimiter is the last symbol, so it lies in a later piece.
      have hlast : cs ≠ [] := by rw [hconcat]; simp
      have hcne : cs.flatten ≠ [] := by
        obtain ⟨c₁, cs₁, rfl⟩ := List.exists_cons_of_ne_nil hlast
        simp [hne c₁ (by simp)]
      obtain ⟨w', d', hw'⟩ : ∃ w' d', cs.flatten = w' ++ [d'] :=
        ⟨_, _, (List.dropLast_append_getLast hcne).symm⟩
      rw [List.flatten_cons, hw', ← List.append_assoc] at hcs
      obtain ⟨hwe, hde⟩ := List.append_inj' hcs rfl
      have hde' : d' = d := by simpa using hde
      subst hde'
      have hcfree : ∀ b ∈ c, p b = false := fun b hb => hw b (by rw [← hwe]; simp [hb])
      have hscan : scan p (visible z pend) c = ([], visible z pend ++ c) := by
        simpa using scan_plain hcfree (visible z pend) []
      obtain ⟨r, hr, hvis⟩ := ih (visible z pend ++ c) w' hw'
        (fun b hb => hw b (by rw [← hwe]; simp [hb])) (fun x hx => hne x (by simp [hx]))
      refine ⟨r, ?_, ?_⟩
      · simp [scanChunks, hscan, hr]
      · rw [hvis, visible_visible_append]
        simp

/-- Every reading of a record is what some pieces make of it. -/
theorem readings_pieces {z : α → Bool} {hidden : Bool} {q x : List α}
    (hx : x ∈ readings z hidden q) :
    ∃ (w : List α) (cs : List (List α)), q = w ++ cs.flatten ∧ (∀ c ∈ cs, c ≠ []) ∧
      x = (if hidden then [] else visible z w) ++ cs.flatMap (visible z) := by
  induction q generalizing hidden x with
  | nil =>
    have hnil : x = [] := by simpa [readings] using hx
    exact ⟨[], [], by simp, by simp, by simp [hnil]⟩
  | cons b q ih =>
    cases hb : z b with
    | true =>
      rw [readings_stop hb] at hx
      obtain ⟨w, cs, hq, hne, hxe⟩ := ih hx
      exact ⟨b :: w, cs, by simp [hq], hne, by simpa [visible, hb] using hxe⟩
    | false =>
      cases hidden with
      | false =>
        rw [readings_shown hb] at hx
        obtain ⟨x', hx', rfl⟩ := List.mem_map.mp hx
        obtain ⟨w, cs, hq, hne, hxe⟩ := ih hx'
        exact ⟨b :: w, cs, by simp [hq], hne, by simp [visible, hb, hxe]⟩
      | true =>
        rw [readings_hidden hb] at hx
        rcases List.mem_append.mp hx with hx | hx
        · obtain ⟨w, cs, hq, hne, hxe⟩ := ih hx
          exact ⟨b :: w, cs, by simp [hq], hne, by simpa using hxe⟩
        · -- The boundary is right before `b`.
          obtain ⟨x', hx', rfl⟩ := List.mem_map.mp hx
          obtain ⟨w, cs, hq, hne, hxe⟩ := ih hx'
          refine ⟨[], (b :: w) :: cs, by simp [hq], ?_, by simp [visible, hb, hxe]⟩
          intro c hc
          rcases List.mem_cons.mp hc with rfl | hc
          · simp
          · exact hne c hc

/-- The pieces of a whole record, none of them empty. -/
theorem readings_chunks {z : α → Bool} {q x : List α} (hx : x ∈ readings z false q) :
    ∃ cs : List (List α), (∀ c ∈ cs, c ≠ []) ∧ cs.flatten = q ∧ cs.flatMap (visible z) = x := by
  obtain ⟨w, cs, hq, hne, hxe⟩ := readings_pieces hx
  cases w with
  | nil => exact ⟨cs, hne, by simp [hq], by simp [hxe]⟩
  | cons b w =>
    refine ⟨(b :: w) :: cs, ?_, by simp [hq], by simp [hxe]⟩
    intro c hc
    rcases List.mem_cons.mp hc with rfl | hc
    · simp
    · exact hne c hc

/-- Cutting a concatenation of records gives the records back. -/
theorem scan_records {p : α → Bool} {rs : List (List α)} (h : ∀ r ∈ rs, IsRecord p r) :
    scan p [] rs.flatten = (rs, []) := by
  induction rs with
  | nil => rfl
  | cons r rs ih =>
    obtain ⟨w, d, rfl, hw, hd⟩ := h r (by simp)
    have hrest := ih (fun r hr => h r (by simp [hr]))
    rw [List.flatten_cons, List.append_assoc, List.singleton_append, scan_record hw hd, hrest]
    simp

theorem map_eq_map_of_forall₂ {γ δ : Type} {R : α → γ → Prop} {f : α → δ} {g : γ → δ}
    {xs : List α} {ys : List γ} (h : List.Forall₂ R xs ys)
    (hfg : ∀ x y, y ∈ ys → R x y → f x = g y) : xs.map f = ys.map g := by
  induction h with
  | nil => rfl
  | cons hxy _ ih =>
    rw [List.map_cons, List.map_cons, hfg _ _ (by simp) hxy,
      ih (fun x y hy => hfg x y (List.mem_cons_of_mem _ hy))]

/-- What a chunked reader makes of a stream, with `f` applied to what it sees. -/
def results (z p : α → Bool) (f : List α → β) (cs : List (List α)) : List β :=
  (scanChunks z p [] cs).1.map (fun r => f (visible z r))

theorem results_append {z p : α → Bool} (f : List α → β) {cs : List (List α)}
    (h : (scanChunks z p [] cs).2 = []) (ds : List (List α)) :
    results z p f (cs ++ ds) = results z p f cs ++ results z p f ds := by
  simp only [results, scanChunks_append, h, List.map_append]

/-- Some chunking of whole records leaves nothing pending. -/
theorem exists_chunks (z p : α → Bool) (rs : List (List α))
    (h : ∀ r ∈ rs, IsRecord p r) :
    ∃ cs : List (List α), (∀ c ∈ cs, c ≠ []) ∧ cs.flatten = rs.flatten ∧
      (scanChunks z p [] cs).2 = [] := by
  cases hrs : rs.flatten with
  | nil => exact ⟨[], by simp, by simp, rfl⟩
  | cons b bs =>
    refine ⟨[b :: bs], by simp, by simp, ?_⟩
    have hscan := scan_records h
    rw [hrs] at hscan
    simp only [scanChunks, visible_nil, hscan]

/-- A record in the pieces that make `x` of it has the result of `x`. -/
theorem results_pieces {z p : α → Bool} (f : List α → β) {r : List α} (hr : IsRecord p r)
    {cs : List (List α)} (hne : ∀ c ∈ cs, c ≠ []) (hcs : cs.flatten = r) :
    results z p f cs = [f (cs.flatMap (visible z))] ∧ (scanChunks z p [] cs).2 = [] := by
  obtain ⟨w, d, rfl, hw, hd⟩ := hr
  obtain ⟨raw, hscan, hvis⟩ := scanChunks_pieces (z := z) [] cs w d hcs hw hd hne
  simp only [results, hscan, List.map_cons, List.map_nil, hvis, visible_nil, List.nil_append,
    and_self]

/-- Chunk independence: the results are the same for all chunkings of a stream
exactly when no reading of a record of it changes the record's result. -/
theorem results_independent_iff (z p : α → Bool) (f : List α → β) (s : List α) :
    (∀ cs ds : List (List α), (∀ c ∈ cs, c ≠ []) → (∀ d ∈ ds, d ≠ []) →
      cs.flatten = s → ds.flatten = s → results z p f cs = results z p f ds) ↔
    ∀ r ∈ records p s, ∀ x ∈ readings z false r, f x = f (visible z r) := by
  constructor
  · intro h r hr x hx
    have hrec := records_shape p s r hr
    obtain ⟨before, after, hsplit⟩ := List.mem_iff_append.mp hr
    obtain ⟨as, has, hae, hapend⟩ := exists_chunks z p before
      (fun r hr => records_shape p s r (by rw [hsplit]; simp [hr]))
    obtain ⟨cs, hcs, hce, hcx⟩ := readings_chunks hx
    obtain ⟨hcres, hcpend⟩ := results_pieces (z := z) f hrec hcs hce
    have hrne : ∀ c ∈ [r], c ≠ [] := by
      intro c hc
      rw [List.mem_singleton.mp hc]
      obtain ⟨w, d, rfl, -, -⟩ := hrec
      simp
    obtain ⟨hrres, hrpend⟩ := results_pieces (z := z) f hrec hrne (by simp)
    -- The two chunkings differ only in how the record itself is cut.
    obtain ⟨es, hes, hee⟩ : ∃ es : List (List α), (∀ e ∈ es, e ≠ []) ∧
        es.flatten = after.flatten ++ rest p s := by
      cases hrest : after.flatten ++ rest p s with
      | nil => exact ⟨[], by simp, by simp⟩
      | cons b bs => exact ⟨[b :: bs], by simp, by simp⟩
    have hs : s = before.flatten ++ r ++ (after.flatten ++ rest p s) := by
      conv_lhs => rw [← records_append_rest p s, hsplit]
      simp [List.append_assoc]
    have heq := h (as ++ (cs ++ es)) (as ++ ([r] ++ es))
      (by
        simp only [List.mem_append]
        rintro c (hc | hc | hc)
        exacts [has c hc, hcs c hc, hes c hc])
      (by
        simp only [List.mem_append]
        rintro c (hc | hc | hc)
        exacts [has c hc, hrne c hc, hes c hc])
      (by simp only [List.flatten_append, hae, hce, hee]; rw [← List.append_assoc]; exact hs.symm)
      (by simp only [List.flatten_append, hae, hee]; rw [← List.append_assoc]; simpa using hs.symm)
    rw [results_append f hapend, results_append f hapend, results_append f hcpend,
      results_append f hrpend, hcres, hrres] at heq
    simpa [hcx] using heq
  · intro h cs ds _ _ hcs hds
    have canonical : ∀ es : List (List α), es.flatten = s →
        results z p f es = (records p s).map (fun r => f (visible z r)) := by
      intro es hes
      have hstart : visible z [] ∈ readings z false [] := visible_mem_readings z []
      have hread := scanChunks_readings p hstart es
      rw [hes] at hread
      exact map_eq_map_of_forall₂ hread (fun x r hr hx => h r hr _ hx)
    rw [canonical cs hcs, canonical ds hds]

end Lokicat.Rechunking

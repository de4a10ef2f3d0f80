import Lokicat.Batching

/-!
# Flushing by age

As long as the clock does not go back and its readings leave room for the
addition in 32 bits, the age mark is the clock at the first entry of the batch.
So what the age check leaves waiting is young, and a request is full or overdue.
-/

namespace Lokicat.AgeFlush

open Batching Iteration Ledger Logproto MainLoop MainSteps Push

/-- Clock readings that never go back, all of them positive `int`s with room for the age limit. -/
structure Steady (rs : List Int) : Prop where
  ordered : rs.Pairwise (· ≤ ·)
  range : ∀ a ∈ rs, 1 ≤ a ∧ a ≤ 2 ^ 31 - 31

theorem steady_before {rs ss : List Int} (h : Steady (rs ++ ss)) : Steady rs where
  ordered := (List.pairwise_append.mp h.ordered).1
  range := fun a ha => h.range a (List.mem_append_left _ ha)

theorem steady_le {rs : List Int} {a b : Int} (h : Steady (rs ++ [b])) (ha : a ∈ rs) : a ≤ b :=
  (List.pairwise_append.mp h.ordered).2.2 a ha b (by simp)

theorem cInt_of_range {a : Int} (h₁ : 1 ≤ a) (h₂ : a ≤ 2 ^ 31 - 31) : cInt a = a := by
  rw [cInt, Int.bmod_eq_iff (by decide)]
  omega

/-- In range the casts and the addition of the age check are exact. -/
theorem ageExpired_iff (cfg : Config) {a now : Int} (ha : 1 ≤ a) (ha' : a ≤ 2 ^ 31 - 31)
    (hn : 1 ≤ now) (hn' : now ≤ 2 ^ 31 - 31) :
    ageExpired cfg a now = true ↔ a + maxAgeOfEntry < now := by
  have hroom : a + maxAgeOfEntry < 2 ^ 31 := by
    simp only [maxAgeOfEntry]
    omega
  rw [ageExpired_room cfg (by omega) hroom, cInt_of_range hn hn']

/-- The clock at the first entry of a batch, zero for the empty batch. -/
def firstReading : List (Entry × Int) → Int
  | [] => 0
  | p :: _ => p.2

/-- Sent by the age check at a clock reading too far from that of the first entry. -/
def Overdue (q : Sent × List (Entry × Int)) : Prop :=
  ∃ now e a₀ later, q.1.cause = .age now ∧ q.2 = (e, a₀) :: later ∧ a₀ + maxAgeOfEntry < now

/-- What the age mark has to do with the waiting entries and the requests. -/
structure Dated (st : State) : Prop where
  mark : st.timestampOldestEntry = firstReading st.account.waiting
  read : ∀ p ∈ st.account.waiting, p.2 ∈ clockReadings st.trace
  first : ∀ p ∈ st.account.waiting, st.timestampOldestEntry ≤ p.2
  due : ∀ q ∈ st.account.shipped, q.2.length = maxEntries ∨ Overdue q

theorem dated_init (cfg : Config) : Dated (init cfg) where
  mark := rfl
  read := by
    intro p hp
    cases hp
  first := by
    intro p hp
    cases hp
  due := by
    intro q hq
    cases hq

/-- A step that ships the whole batch. -/
theorem dated_ship {st st' : State} {q : Sent × List (Entry × Int)} (hd : Dated st)
    (account : st'.account = ⟨st.account.shipped ++ [q], []⟩) (oldest : st'.timestampOldestEntry = 0)
    (due : q.2.length = maxEntries ∨ Overdue q) : Dated st' where
  mark := by rw [account, oldest, firstReading]
  read := by simp [account]
  first := by simp [account]
  due := by
    rw [account]
    intro r hr
    obtain hr | hr := List.mem_append.mp hr
    · exact hd.due r hr
    · rw [List.mem_singleton.mp hr]
      exact due

/-- A step that only appends to the readings. -/
theorem dated_extend {st st' : State} (hd : Dated st) (account : st'.account = st.account)
    (oldest : st'.timestampOldestEntry = st.timestampOldestEntry) {rs : List Int}
    (read : clockReadings st'.trace = clockReadings st.trace ++ rs) : Dated st' where
  mark := by rw [oldest, account, hd.mark]
  read := by
    intro p hp
    rw [read]
    exact List.mem_append_left _ (hd.read p (account ▸ hp))
  first := by
    rw [oldest, account]
    exact hd.first
  due := by
    rw [account]
    exact hd.due

/-- While entries wait, the mark is one of the readings. -/
theorem mark_read {st : State} (hd : Dated st) {p : Entry × Int} {later : List (Entry × Int)}
    (hw : st.account.waiting = p :: later) :
    st.timestampOldestEntry = p.2 ∧ st.timestampOldestEntry ∈ clockReadings st.trace := by
  have hmark : st.timestampOldestEntry = p.2 := by rw [hd.mark, hw, firstReading]
  rw [hmark]
  exact ⟨rfl, hd.read p (by simp [hw])⟩

/-- A step that stores an entry: the first store of a batch sets the mark, the
later ones keep it. -/
theorem dated_store {st st' : State} {e : Entry} {a : Int} (hd : Dated st)
    (steady : Steady (clockReadings st.trace ++ [a]))
    (account : st'.account = ⟨st.account.shipped, st.account.waiting ++ [(e, a)]⟩)
    (oldest : st'.timestampOldestEntry =
      if st.timestampOldestEntry = 0 then cInt a else st.timestampOldestEntry)
    (read : clockReadings st'.trace = clockReadings st.trace ++ [a]) : Dated st' := by
  have hread : ∀ q ∈ st'.account.waiting, q.2 ∈ clockReadings st'.trace := by
    intro q hq
    rw [account, List.mem_append, List.mem_singleton] at hq
    rw [read, List.mem_append]
    obtain hq | rfl := hq
    · exact .inl (hd.read q hq)
    · exact .inr (by simp)
  have hdue : ∀ q ∈ st'.account.shipped, q.2.length = maxEntries ∨ Overdue q := by
    rw [account]
    exact hd.due
  have ha := steady.range a (by simp)
  cases hw : st.account.waiting with
  | nil =>
    have hmark := hd.mark
    rw [hw, firstReading] at hmark
    rw [hmark, if_pos rfl, cInt_of_range ha.1 ha.2] at oldest
    rw [hw, List.nil_append] at account
    refine ⟨by rw [oldest, account]; rfl, hread, ?_, hdue⟩
    intro q hq
    rw [account, List.mem_singleton] at hq
    rw [oldest, hq]
  | cons p later =>
    obtain ⟨hmark, hmem⟩ := mark_read hd hw
    have hrange := steady.range _ (List.mem_append_left _ hmem)
    rw [if_neg (by omega)] at oldest
    refine ⟨by rw [oldest, account, hw]; exact hmark, hread, ?_, hdue⟩
    intro q hq
    rw [account, List.mem_append, List.mem_singleton] at hq
    rw [oldest]
    obtain hq | rfl := hq
    · exact hd.first q hq
    · exact steady_le steady hmem

/-- What the age check ships is overdue. -/
theorem overdue_of_expired {cfg : Config} {st : State} {now : Int} {s : Sent} (hd : Dated st)
    (steady : Steady (clockReadings st.trace ++ [now])) (cause : s.cause = .age now)
    (old : ageExpired cfg st.timestampOldestEntry now = true) : Overdue (s, st.account.waiting) := by
  cases hw : st.account.waiting with
  | nil =>
    have hmark := hd.mark
    have hpos := ageExpired_pos old
    rw [hw, firstReading] at hmark
    omega
  | cons p later =>
    obtain ⟨hmark, hread⟩ := mark_read hd hw
    have ha := steady.range _ (List.mem_append_left _ hread)
    have hn := steady.range now (by simp)
    rw [ageExpired_iff cfg ha.1 ha.2 hn.1 hn.2, hmark] at old
    exact ⟨now, p.1, p.2, later, cause, rfl, old⟩

theorem dated_step {cfg : Config} {st st' : State} (h : BatchStep cfg st st')
    (ledgered : Ledgered st) (bounded : Bounded st)
    (ih : Steady (clockReadings st.trace) → Dated st) (steady : Steady (clockReadings st'.trace)) :
    Dated st' := by
  cases h with
  | quiet as silent trace entries oldest =>
    have hd := ih (steady_before (by rwa [trace, clockReadings_append] at steady))
    exact dated_extend hd (account_quiet silent trace) oldest (by rw [trace, clockReadings_append])
  | kept now young trace entries oldest =>
    have hd := ih (steady_before (by rwa [trace, clockReadings_append] at steady))
    exact dated_extend hd (account_kept trace) oldest (by rw [trace, clockReadings_append])
  | expired now s old cause request trace entries oldest =>
    have hread : clockReadings [.looked now, .sent s] = [now] := rfl
    rw [trace, clockReadings_append, hread] at steady
    have hd := ih (steady_before steady)
    exact dated_ship hd (account_expired trace) oldest
      (.inr (overdue_of_expired hd steady cause old))
  | stored e p a room trace entries oldest =>
    have hread : clockReadings [.completed e p, .stored st.stream.entries.length e a] = [a] := rfl
    rw [trace, clockReadings_append, hread] at steady
    exact dated_store (ih (steady_before steady)) steady (account_stored trace) oldest
      (by rw [trace, clockReadings_append, hread])
  | filled e p a s full cause request trace entries oldest =>
    rw [trace, clockReadings_append] at steady
    have hlen := congrArg List.length ledgered.waiting
    have hcapacity := bounded.capacity
    rw [List.length_map] at hlen
    refine dated_ship (ih (steady_before steady)) (account_filled trace) oldest (.inl ?_)
    rw [List.length_append, List.length_singleton]
    omega

theorem dated_run (cfg : Config) (turns : List Turn)
    (steady : Steady (clockReadings (runMain cfg turns).trace)) : Dated (runMain cfg turns) := by
  have hrun : Ledgered (runMain cfg turns) ∧ Bounded (runMain cfg turns) ∧
      (Steady (clockReadings (runMain cfg turns).trace) → Dated (runMain cfg turns)) := by
    apply runMain_invariant
      (fun st => Ledgered st ∧ Bounded st ∧ (Steady (clockReadings st.trace) → Dated st))
    · exact ⟨ledgered_init cfg, bounded_init cfg, fun _ => dated_init cfg⟩
    · intro st st' h ⟨ledgered, bounded, ih⟩
      exact ⟨ledgered_step h ledgered, bounded_step h bounded, dated_step h ledgered bounded ih⟩
  exact hrun.2.2 steady

/-- After the age check no waiting entry is past the limit. -/
theorem waiting_young {cfg : Config} {st : State} (now : Int) (o : PushOutcome) (hd : Dated st)
    (steady : Steady (clockReadings (ageCheck cfg now o st).trace)) :
    ∀ p ∈ (ageCheck cfg now o st).account.waiting, now ≤ p.2 + maxAgeOfEntry := by
  obtain ⟨hnone, hcheck⟩ | ⟨hpos, hyoung, hcheck⟩ | ⟨hold, hcheck⟩ := ageCheck_cases cfg now o st
  · -- Without a mark nothing waits.
    rw [hcheck] at steady ⊢
    intro p hp
    obtain ⟨q, later, hw⟩ := List.exists_cons_of_ne_nil (List.ne_nil_of_mem hp)
    have hrange := steady.range _ (mark_read hd hw).2
    omega
  · have hread : clockReadings (st.emit (.looked now)).trace = clockReadings st.trace ++ [now] := by
      simp [State.emit, clockReadings]
    have haccount : (st.emit (.looked now)).account = st.account := account_kept rfl
    rw [hcheck] at steady ⊢
    rw [hread] at steady
    rw [haccount]
    intro p hp
    obtain ⟨q, later, hw⟩ := List.exists_cons_of_ne_nil (List.ne_nil_of_mem hp)
    have ha := steady.range _ (List.mem_append_left _ (mark_read hd hw).2)
    have hn := steady.range now (by simp)
    have hle : ¬st.timestampOldestEntry + maxAgeOfEntry < now := by
      rw [← ageExpired_iff cfg ha.1 ha.2 hn.1 hn.2, hyoung]
      simp
    have hlater := hd.first p hp
    omega
  · rw [hcheck]
    have hempty : (flush cfg (.age now) o (st.emit (.looked now))).account.waiting = [] := by
      simp [State.account, State.emit, moves]
    simp [hempty]

/-- Age-based flushing is exact under a steady clock: what is left waiting right
after the age check is young, and every request is full or overdue. -/
theorem age_flush_exact (cfg : Config) (turns : List Turn)
    (steady : Steady (clockReadings (runMain cfg turns).trace)) :
    let st := runMain cfg turns
    (∀ next : Turn,
      let checked := ageCheck cfg next.now next.outcome st
      Steady (clockReadings checked.trace) →
        checked.account.waiting.map Prod.fst = checked.stream.entries ∧
          ∀ p ∈ checked.account.waiting, next.now ≤ p.2 + maxAgeOfEntry) ∧
      st.account.shipped.map Prod.fst = sents st.trace ∧
      ∀ q ∈ st.account.shipped, q.1.entries = q.2.map Prod.fst ∧
        (q.1.entries.length = maxEntries ∨ Overdue q) := by
  intro st
  have inv := ledgered_run cfg turns
  have hd := dated_run cfg turns steady
  refine ⟨?_, shipped_sents _, ?_⟩
  · intro next checked hchecked
    have hinv : Ledgered checked := ledgered_step (batchStep_ageCheck cfg _ _ _) inv
    exact ⟨hinv.waiting, waiting_young next.now next.outcome hd hchecked⟩
  · intro q hq
    have hentries := inv.shipped q hq
    rw [hentries, List.length_map]
    exact ⟨rfl, hd.due q hq⟩

/-- Two lines forty seconds apart: one request is overdue, one entry is at the limit. -/
def twoLines : List Turn := [readTurn 1 [97, 10], readTurn 41 [98, 10]]

theorem age_flush_two_lines :
    let st := runMain utcConfig twoLines
    let checked := ageCheck utcConfig 71 acceptedOutcome st
    (checked.account.waiting.map Prod.fst = checked.stream.entries ∧
      ∀ p ∈ checked.account.waiting, 71 ≤ p.2 + maxAgeOfEntry) ∧
    st.account.shipped.map Prod.fst = sents st.trace ∧
      ∀ q ∈ st.account.shipped, q.1.entries = q.2.map Prod.fst ∧
        (q.1.entries.length = maxEntries ∨ Overdue q) :=
  have h := age_flush_exact utcConfig twoLines ⟨by decide, by decide⟩
  ⟨h.1 (idleTurn 71) ⟨by decide, by decide⟩, h.2⟩

end Lokicat.AgeFlush

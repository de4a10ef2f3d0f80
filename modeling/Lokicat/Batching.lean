import Lokicat.MainSteps

/-!
# The batch over whole runs

The trace of a run is read as a shipping ledger: a store puts an entry into
the waiting batch, a request ships it. The entries in `stream.entries` are the
waiting batch, the requests are the shipments, and their sizes stay within the
array. All of it follows from what one atomic step does.
-/

namespace Lokicat.Batching

open CString Iteration Ledger Logproto MainLoop MainSteps Push

section Views

variable (tr as : List Action)

@[simp] theorem completed_append : completed (tr ++ as) = completed tr ++ completed as :=
  List.filterMap_append ..

@[simp] theorem stored_append : stored (tr ++ as) = stored tr ++ stored as :=
  List.filterMap_append ..

@[simp] theorem sents_append : sents (tr ++ as) = sents tr ++ sents as :=
  List.filterMap_append ..

@[simp] theorem clockReadings_append :
    clockReadings (tr ++ as) = clockReadings tr ++ clockReadings as :=
  List.filterMap_append ..

@[simp] theorem moves_append : moves (tr ++ as) = moves tr ++ moves as :=
  List.filterMap_append ..

variable {as}

/-- A view that skips the reads and the calls sees nothing of a quiet step. -/
theorem view_quiet {β : Type} {f : Action → Option β} (read : ∀ b, f (.read b) = none)
    (call : ∀ m n r, f (.call m n r) = none) (h : ∀ a ∈ as, Action.Quiet a) :
    as.filterMap f = [] := by
  rw [List.filterMap_eq_nil_iff]
  intro a ha
  cases a with
  | read b => exact read b
  | call m n r => exact call m n r
  | _ => exact absurd (h _ ha) id

theorem completed_quiet (h : ∀ a ∈ as, Action.Quiet a) : completed as = [] :=
  view_quiet (fun _ => rfl) (fun _ _ _ => rfl) h

theorem stored_quiet (h : ∀ a ∈ as, Action.Quiet a) : stored as = [] :=
  view_quiet (fun _ => rfl) (fun _ _ _ => rfl) h

theorem sents_quiet (h : ∀ a ∈ as, Action.Quiet a) : sents as = [] :=
  view_quiet (fun _ => rfl) (fun _ _ _ => rfl) h

theorem moves_quiet (h : ∀ a ∈ as, Action.Quiet a) : moves as = [] :=
  view_quiet (fun _ => rfl) (fun _ _ _ => rfl) h

end Views

/-- Every request is a shipment. -/
theorem shipped_sents (tr : List Action) : (replay (moves tr)).shipped.map Prod.fst = sents tr := by
  induction tr using List.reverseRecOn with
  | nil => rfl
  | append_singleton tr a ih =>
    cases a with
    | sent s => simp [moves, sents] at ih ⊢; simpa using ih
    | stored i e c => simp [moves, sents] at ih ⊢; simpa using ih
    | _ => simpa [moves, sents] using ih

/-- Every put is a store. -/
theorem puts_stored (tr : List Action) : (puts (moves tr)).map Prod.fst = stored tr := by
  induction tr with
  | nil => rfl
  | cons a tr ih =>
    cases a with
    | stored i e c => simpa [moves, stored, puts] using ih
    | sent s => simpa [moves, stored, puts] using ih
    | _ => simpa [moves, stored] using ih

section Account

variable {st st' : State}

theorem account_quiet {as : List Action} (silent : ∀ a ∈ as, Action.Quiet a)
    (trace : st'.trace = st.trace ++ as) : st'.account = st.account := by
  rw [State.account, trace, moves_append, moves_quiet silent, List.append_nil, State.account]

theorem account_kept {now : Int} (trace : st'.trace = st.trace ++ [.looked now]) :
    st'.account = st.account := by
  have hm : moves [.looked now] = [] := rfl
  rw [State.account, trace, moves_append, hm, List.append_nil, State.account]

theorem account_expired {now : Int} {s : Sent}
    (trace : st'.trace = st.trace ++ [.looked now, .sent s]) :
    st'.account = ⟨st.account.shipped ++ [(s, st.account.waiting)], []⟩ := by
  have hm : moves [.looked now, .sent s] = [.ship s] := rfl
  rw [State.account, trace, moves_append, hm, replay_ship, State.account]

theorem account_stored {e : Entry} {p a : Int} {i : Nat}
    (trace : st'.trace = st.trace ++ [.completed e p, .stored i e a]) :
    st'.account = ⟨st.account.shipped, st.account.waiting ++ [(e, a)]⟩ := by
  have hm : moves [.completed e p, .stored i e a] = [.put (e, a)] := rfl
  rw [State.account, trace, moves_append, hm, replay_put, State.account]

theorem account_filled {e : Entry} {p a : Int} {i : Nat} {s : Sent}
    (trace : st'.trace = st.trace ++ [.completed e p, .stored i e a, .sent s]) :
    st'.account = ⟨st.account.shipped ++ [(s, st.account.waiting ++ [(e, a)])], []⟩ := by
  have hm : moves [.completed e p, .stored i e a, .sent s] = [.put (e, a)] ++ [.ship s] := rfl
  rw [State.account, trace, moves_append, hm, ← List.append_assoc, replay_ship, replay_put,
    State.account]

end Account

/-- The ledger accounts for the batch and for every request. -/
structure Ledgered (st : State) : Prop where
  waiting : st.account.waiting.map Prod.fst = st.stream.entries
  shipped : ∀ s ∈ st.account.shipped, s.1.entries = s.2.map Prod.fst

theorem ledgered_init (cfg : Config) : Ledgered (init cfg) where
  waiting := rfl
  shipped := by simp [init, State.account, moves, empty]

theorem ledgered_step {cfg : Config} {st st' : State} (h : BatchStep cfg st st')
    (inv : Ledgered st) : Ledgered st' := by
  obtain ⟨waiting, shipped⟩ := inv
  cases h with
  | quiet as silent trace entries =>
    rw [← account_quiet silent trace] at waiting shipped
    exact ⟨waiting.trans entries.symm, shipped⟩
  | kept now young trace entries =>
    rw [← account_kept trace] at waiting shipped
    exact ⟨waiting.trans entries.symm, shipped⟩
  | expired now s old cause request trace entries =>
    have haccount := account_expired trace
    constructor
    · rw [haccount, entries]
      rfl
    · rw [haccount, List.forall_mem_append, List.forall_mem_singleton]
      refine ⟨shipped, ?_⟩
      rw [request, waiting]
  | stored e p a room trace entries =>
    have haccount := account_stored trace
    constructor
    · rw [haccount, entries, List.map_append, waiting]
      rfl
    · rw [haccount]
      exact shipped
  | filled e p a s full cause request trace entries =>
    have haccount := account_filled trace
    constructor
    · rw [haccount, entries]
      rfl
    · rw [haccount, List.forall_mem_append, List.forall_mem_singleton]
      refine ⟨shipped, ?_⟩
      rw [request, List.map_append, waiting]
      rfl

theorem ledgered_run (cfg : Config) (turns : List Turn) : Ledgered (runMain cfg turns) :=
  runMain_invariant Ledgered (ledgered_init cfg) (fun _ _ h => ledgered_step h) turns

/-- The sizes of the batch and of the requests, and what the age mark says of the batch. -/
structure Bounded (st : State) : Prop where
  capacity : st.stream.entries.length < maxEntries
  indices : ∀ i e a, .stored i e a ∈ st.trace → i < maxEntries
  sizes : ∀ s ∈ sents st.trace, 1 ≤ s.entries.length ∧ s.entries.length ≤ maxEntries
  sentinel : st.timestampOldestEntry ≠ 0 → st.stream.entries ≠ []

theorem bounded_init (cfg : Config) : Bounded (init cfg) where
  capacity := by simp [init, maxEntries]
  indices := by simp [init]
  sizes := by simp [init, sents]
  sentinel := by simp [init]

/-- One more store, at an index in bounds. -/
theorem indices_append {tr as : List Action} {n : Nat}
    (h : ∀ i e a, .stored i e a ∈ tr → i < maxEntries) (hn : n < maxEntries)
    (has : ∀ x ∈ as, ∀ i e a, x = .stored i e a → i = n) :
    ∀ i e a, .stored i e a ∈ tr ++ as → i < maxEntries := by
  intro i e a hi
  obtain hi | hi := List.mem_append.mp hi
  · exact h i e a hi
  · rw [has _ hi i e a rfl]
    exact hn

theorem bounded_step {cfg : Config} {st st' : State} (h : BatchStep cfg st st')
    (inv : Bounded st) : Bounded st' := by
  obtain ⟨capacity, indices, sizes, sentinel⟩ := inv
  cases h with
  | quiet as silent trace entries oldest =>
    refine ⟨by rwa [entries], ?_, ?_, by rwa [oldest, entries]⟩
    · intro i e a ha
      rw [trace] at ha
      obtain ha | ha := List.mem_append.mp ha
      · exact indices i e a ha
      · exact absurd (silent _ ha) id
    · rwa [trace, sents_append, sents_quiet silent, List.append_nil]
  | kept now young trace entries oldest =>
    refine ⟨by rwa [entries], ?_, ?_, by rwa [oldest, entries]⟩
    · simpa [trace] using indices
    · simpa [trace, sents] using sizes
  | expired now s old cause request trace entries oldest =>
    have hpos := ageExpired_pos old
    have hne := sentinel (by omega)
    refine ⟨by rw [entries]; decide, ?_, ?_, by simp [oldest]⟩
    · simpa [trace] using indices
    · have hsent : sents [.looked now, .sent s] = [s] := rfl
      rw [trace, sents_append, hsent, List.forall_mem_append, List.forall_mem_singleton, request]
      exact ⟨sizes, List.length_pos_iff.mpr hne, by omega⟩
  | stored e p a room trace entries oldest =>
    refine ⟨by simpa [entries] using room, ?_, ?_, by simp [entries]⟩
    · rw [trace]
      exact indices_append indices capacity (by simp)
    · simpa [trace, sents] using sizes
  | filled e p a s full cause request trace entries oldest =>
    refine ⟨by rw [entries]; decide, ?_, ?_, by simp [oldest]⟩
    · rw [trace]
      exact indices_append indices capacity (by simp)
    · have hsent : sents [.completed e p, .stored st.stream.entries.length e a, .sent s] = [s] :=
        rfl
      rw [trace, sents_append, hsent, List.forall_mem_append, List.forall_mem_singleton, request,
        List.length_append, List.length_singleton]
      exact ⟨sizes, by omega, by omega⟩

theorem bounded_run (cfg : Config) (turns : List Turn) : Bounded (runMain cfg turns) :=
  runMain_invariant Bounded (bounded_init cfg) (fun _ _ h => bounded_step h) turns

/-- What is completed is stored, entry by entry. -/
theorem stored_completed (cfg : Config) (turns : List Turn) :
    stored (runMain cfg turns).trace = completed (runMain cfg turns).trace := by
  apply runMain_invariant (fun st => stored st.trace = completed st.trace) rfl
  intro st st' h inv
  cases h with
  | quiet as silent trace =>
    rw [trace, stored_append, completed_append, stored_quiet silent, completed_quiet silent, inv]
  | kept now young trace => rw [trace, stored_append, completed_append, inv]; rfl
  | expired now s old cause request trace => rw [trace, stored_append, completed_append, inv]; rfl
  | stored e p a room trace => rw [trace, stored_append, completed_append, inv]; rfl
  | filled e p a s full cause request trace => rw [trace, stored_append, completed_append, inv]; rfl

/-- While the age mark is zero the batch is empty, as long as no clock reading
of a store into an empty batch casts to zero. -/
def Marked (st : State) : Prop :=
  (∀ e a, .stored 0 e a ∈ st.trace → cInt a ≠ 0) → st.timestampOldestEntry = 0 →
    st.stream.entries = []

theorem marked_step {cfg : Config} {st st' : State} (h : BatchStep cfg st st') (inv : Marked st) :
    Marked st' := by
  intro hclock hzero
  have hbefore : ∀ as, st'.trace = st.trace ++ as → ∀ e a, .stored 0 e a ∈ st.trace → cInt a ≠ 0 :=
    fun as trace e a ha => hclock e a (by rw [trace]; exact List.mem_append_left _ ha)
  cases h with
  | quiet as silent trace entries oldest =>
    rw [entries]
    exact inv (hbefore _ trace) (oldest ▸ hzero)
  | kept now young trace entries oldest =>
    rw [entries]
    exact inv (hbefore _ trace) (oldest ▸ hzero)
  | expired _ _ _ _ _ _ entries => exact entries
  | stored e p a room trace entries oldest =>
    rw [oldest] at hzero
    by_cases hold : st.timestampOldestEntry = 0
    · have hempty := inv (hbefore _ trace) hold
      rw [if_pos hold] at hzero
      refine absurd hzero (hclock e a ?_)
      simp [trace, hempty]
    · rw [if_neg hold] at hzero
      contradiction
  | filled _ _ _ _ _ _ _ _ entries => exact entries

theorem marked_run (cfg : Config) (turns : List Turn) : Marked (runMain cfg turns) :=
  runMain_invariant Marked (fun _ _ => rfl) (fun _ _ h => marked_step h) turns

/-- No store is out of bounds, no request is empty or too long, and the age
mark is a sentinel: non-zero only for a non-empty batch, and exactly for one
when no clock reading casts to zero. A store into an empty batch reads the clock. -/
theorem capacity_and_sentinel (cfg : Config) (turns : List Turn) :
    let st := runMain cfg turns
    st.stream.entries.length < maxEntries ∧
      (∀ i e a, .stored i e a ∈ st.trace → i < maxEntries) ∧
      (∀ s ∈ sents st.trace, 1 ≤ s.entries.length ∧ s.entries.length ≤ maxEntries) ∧
      (st.timestampOldestEntry ≠ 0 → 0 < st.stream.entries.length) ∧
      ((∀ e a, .stored 0 e a ∈ st.trace → cInt a ≠ 0) →
        (st.timestampOldestEntry = 0 ↔ st.stream.entries.length = 0)) := by
  intro st
  have inv := bounded_run cfg turns
  have hpos : st.timestampOldestEntry ≠ 0 → 0 < st.stream.entries.length :=
    fun h => List.length_pos_iff.mpr (inv.sentinel h)
  refine ⟨inv.capacity, inv.indices, inv.sizes, hpos, ?_⟩
  intro hclock
  constructor
  · intro hzero
    rw [marked_run cfg turns hclock hzero, List.length_nil]
  · intro hlen
    by_contra hne
    have := hpos hne
    omega

/-- The requests so far followed by the waiting batch are the entries stored. -/
theorem batches_conserve (cfg : Config) (turns : List Turn) :
    (runMain cfg turns).batches.flatten ++ (runMain cfg turns).stream.entries =
      stored (runMain cfg turns).trace := by
  have inv := ledgered_run cfg turns
  rw [← puts_stored, ← replay_conserves, List.map_append, ← inv.waiting, State.batches,
    ← shipped_sents, List.map_map]
  congr 1
  rw [← List.flatMap_def, List.map_flatMap]
  exact List.flatMap_congr inv.shipped

end Lokicat.Batching

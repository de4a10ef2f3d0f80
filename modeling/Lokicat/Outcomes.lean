import Lokicat.Batching

/-!
# Pushes that fail

A flush empties the batch whatever became of its push, and nothing keeps the
entries of a request that was not accepted. So every entry stored is delivered,
dropped or waiting, and the dropped ones are those of the failed requests.
-/

namespace Lokicat.Outcomes

open Batching Iteration Ledger Logproto MainLoop Push

/-- The entries of the requests whose outcome is of some kind, in order. -/
def sentWith (st : State) (kind : PushOutcome → Bool) : List Entry :=
  ((sents st.trace).filter (fun s => kind s.outcome)).flatMap Sent.entries

def delivered (st : State) : List Entry := sentWith st PushOutcome.accepted

def dropped (st : State) : List Entry := sentWith st (fun o => !o.accepted)

theorem items_sentWith {st : State} (inv : Ledgered st) (kind : PushOutcome → Bool) :
    (st.account.items (fun s => kind s.outcome)).map Prod.fst = sentWith st kind := by
  rw [sentWith, ← shipped_sents, List.filter_map, List.flatMap_map, Account.items,
    List.map_flatMap]
  apply List.flatMap_congr
  intro s hs
  exact (inv.shipped s (List.mem_of_mem_filter hs)).symm

/-- Every entry stored is in one accepted request, in one that was not, or in the batch. -/
theorem stored_perm {st : State} (inv : Ledgered st) :
    (stored st.trace).Perm (delivered st ++ dropped st ++ st.stream.entries) := by
  have hperm := (puts_perm (moves st.trace) (fun s => s.outcome.accepted)).map Prod.fst
  rw [puts_stored, List.map_append, List.map_append] at hperm
  rw [delivered, dropped, ← items_sentWith inv, ← items_sentWith inv, ← inv.waiting]
  exact hperm

theorem dropped_nil_iff {st : State} (inv : Bounded st) :
    dropped st = [] ↔ ∀ s ∈ sents st.trace, s.outcome.accepted = true := by
  simp only [dropped, sentWith, List.flatMap_eq_nil_iff, List.mem_filter, Bool.not_eq_true']
  constructor
  · intro h s hs
    by_contra hfail
    have hempty := h s ⟨hs, by simpa using hfail⟩
    have hsize := inv.sizes s hs
    rw [hempty, List.length_nil] at hsize
    omega
  · rintro h s ⟨hs, hfail⟩
    rw [h s hs] at hfail
    contradiction

/-- What a failed push loses: each entry stored is in the batch or in exactly one
request, those of requests not accepted are gone, and a flush empties the batch
and clears the age mark whatever the outcome. -/
theorem lost_with_failed_pushes (cfg : Config) (turns : List Turn) :
    let st := runMain cfg turns
    st.batches.flatten ++ st.stream.entries = stored st.trace ∧
      (stored st.trace).Perm (delivered st ++ dropped st ++ st.stream.entries) ∧
      (dropped st = [] ↔ ∀ s ∈ sents st.trace, s.outcome.accepted = true) ∧
      ∀ (request : PushRequest) (url : List CString.Byte) (o : PushOutcome),
        (∀ s ∈ (flushPushRequest request url o).1.streams, s.entries = []) ∧
          (flushPushRequest request url o).2.1 = 0 :=
  ⟨batches_conserve cfg turns, stored_perm (ledgered_run cfg turns),
    dropped_nil_iff (bounded_run cfg turns), flush_resets⟩

/-- One line, and an age flush that the server answers with 500. -/
def failedFlush : List Turn :=
  [readTurn 1 [97, 10],
    { readTurn 100 [98] with outcome := { acceptedOutcome with responseCode := 500 } }]

/-- The entry of a failed request is neither in the batch nor in an accepted request. -/
theorem failed_push_loses :
    ¬ ∀ (cfg : Config) (turns : List Turn), (runMain cfg turns).phase = .looping →
      ∀ e ∈ stored (runMain cfg turns).trace,
        e ∈ (runMain cfg turns).stream.entries ∨
          ∃ s ∈ sents (runMain cfg turns).trace, s.outcome.accepted = true ∧ e ∈ s.entries := by
  intro h
  have hloss := h utcConfig failedFlush (by decide) ⟨none, [97]⟩ (by decide)
  revert hloss
  decide

end Lokicat.Outcomes

import Lokicat.Delivery
import Lokicat.Noninterference

/-!
# Requests as groups of lines

As long as no batch gets old the requests are the entries completed in groups of
sixty-four. Of a text, then, they depend neither on how it is cut into reads nor on
when the reads come.
-/

namespace Lokicat.Regrouping

open Batching Chunks CString Delivery Framing InputLogread Iteration Ledger Logproto MainLoop
  MainSteps Noninterference

/-- A request that was not sent for its age is a full batch. -/
structure FullBatches (st : State) : Prop where
  room : st.stream.entries.length < maxEntries
  full : ∀ s ∈ sents st.trace, s.cause = .full → s.entries.length = maxEntries

theorem fullBatches_step {cfg : Config} {st st' : State} (h : BatchStep cfg st st')
    (inv : FullBatches st) : FullBatches st' := by
  obtain ⟨room, full⟩ := inv
  cases h with
  | quiet as silent trace entries =>
    refine ⟨by rwa [entries], ?_⟩
    rw [trace, sents_append, sents_quiet silent, List.append_nil]
    exact full
  | kept now young trace entries =>
    refine ⟨by rwa [entries], ?_⟩
    rw [trace, sents_append]
    simpa [sents] using full
  | expired now s old cause request trace entries =>
    refine ⟨by simp [entries, maxEntries], ?_⟩
    have hsent : sents [.looked now, .sent s] = [s] := rfl
    rw [trace, sents_append, hsent, List.forall_mem_append, List.forall_mem_singleton, cause]
    exact ⟨full, fun h => by cases h⟩
  | stored e p a hroom trace entries =>
    refine ⟨by simpa [entries] using hroom, ?_⟩
    rw [trace, sents_append]
    simpa [sents] using full
  | filled e p a s hfull cause request trace entries =>
    refine ⟨by simp [entries, maxEntries], ?_⟩
    have hsent : sents [.completed e p, .stored st.stream.entries.length e a, .sent s] = [s] := rfl
    rw [trace, sents_append, hsent, List.forall_mem_append, List.forall_mem_singleton, request,
      List.length_append, List.length_singleton]
    exact ⟨full, fun _ => by omega⟩

theorem fullBatches_run (cfg : Config) (turns : List Turn) : FullBatches (runMain cfg turns) :=
  runMain_invariant FullBatches ⟨by simp [init, maxEntries], by simp [init, sents]⟩
    (fun _ _ h => fullBatches_step h) turns

/-- Two runs over one text, neither of which flushes for age, send the same requests and keep
the same entries waiting. -/
theorem requests_of_text (cfg : Config) (now : Int) (turns turns' : List Turn)
    (clocks : ∀ t ∈ turns, ∀ k, (t.line k).parseClock = now)
    (clocks' : ∀ t ∈ turns', ∀ k, (t.line k).parseClock = now)
    (text : NulFree (runMain cfg turns).bytesRead)
    (same : (runMain cfg turns').bytesRead = (runMain cfg turns).bytesRead)
    (young : ∀ s ∈ sents (runMain cfg turns).trace, s.cause = .full)
    (young' : ∀ s ∈ sents (runMain cfg turns').trace, s.cause = .full) :
    let st := runMain cfg turns
    let st' := runMain cfg turns'
    (sents st.trace).map Sent.request = (sents st'.trace).map Sent.request ∧
      st.stream.entries = st'.stream.entries ∧ st.entry = st'.entry := by
  intro st st'
  have hcompleted : completed st.trace = completed st'.trace := by
    rw [completed_text cfg clocks text, completed_text cfg clocks' (same ▸ text), same]
  have hsizes : ∀ ts, (∀ s ∈ sents (runMain cfg ts).trace, s.cause = .full) →
      ∀ b ∈ (runMain cfg ts).batches, b.length = maxEntries := by
    intro ts hcause b hb
    obtain ⟨s, hs, rfl⟩ := List.mem_map.mp hb
    exact (fullBatches_run cfg ts).full s hs (hcause s hs)
  obtain ⟨hbatches, hwaiting⟩ := shipments_unique (hsizes turns young) (hsizes turns' young')
    (fullBatches_run cfg turns).room (fullBatches_run cfg turns').room
    ((handed_over cfg turns).trans (hcompleted.trans (handed_over cfg turns').symm))
  have hrequests : ∀ ts, (sents (runMain cfg ts).trace).map Sent.request =
      (runMain cfg ts).batches.map fun es => ⟨[⟨cfg.labels, es⟩]⟩ := by
    intro ts
    rw [State.batches, List.map_map]
    exact List.map_congr_left (request_shape cfg ts)
  refine ⟨?_, hwaiting, ?_⟩
  · rw [hrequests, hrequests, hbatches]
  · have hentry : ∀ ts, NulFree (runMain cfg ts).bytesRead →
        (runMain cfg ts).entry = ⟨none, rest isNewline (runMain cfg ts).bytesRead⟩ := by
      intro ts hfree
      rw [pending_run, framed, scanChunks_eq_scan isNewline (by simp) hfree]
      rfl
    rw [hentry turns text, hentry turns' (same ▸ text), same]

/-- Sixty-four empty lines, two in a read: a full batch. -/
def pairTurns : List Turn := List.replicate 32 (readTurn 1 [10, 10])

/-- The same lines in other reads, most of them later. -/
def oddTurns : List Turn :=
  readTurn 1 [10] :: (List.replicate 31 { readTurn 1 [10, 10] with now := 20 } ++
    [{ readTurn 1 [10] with now := 30 }])

theorem requests_of_empty_lines :
    let st := runMain utcConfig pairTurns
    let st' := runMain utcConfig oddTurns
    (sents st.trace).map Sent.request = (sents st'.trace).map Sent.request ∧
      st.stream.entries = st'.stream.entries ∧ st.entry = st'.entry := by
  obtain ⟨htext, hsame, hyoung, hyoung'⟩ : NulFree (runMain utcConfig pairTurns).bytesRead ∧
      (runMain utcConfig oddTurns).bytesRead = (runMain utcConfig pairTurns).bytesRead ∧
      (∀ s ∈ sents (runMain utcConfig pairTurns).trace, s.cause = .full) ∧
      ∀ s ∈ sents (runMain utcConfig oddTurns).trace, s.cause = .full := by decide +kernel
  refine requests_of_text utcConfig 1 pairTurns oddTurns ?_ ?_ htext hsame hyoung hyoung'
  · intro t ht k
    rw [List.eq_of_mem_replicate ht]
    rfl
  · intro t ht k
    rcases List.mem_cons.mp ht with rfl | ht
    · rfl
    · rcases List.mem_append.mp ht with ht | ht
      · rw [List.eq_of_mem_replicate ht]
        rfl
      · rw [List.mem_singleton.mp ht]
        rfl

example : (runMain utcConfig pairTurns).batches.map List.length = [64] := by decide +kernel

end Lokicat.Regrouping

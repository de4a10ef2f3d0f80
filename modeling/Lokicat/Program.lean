import Lokicat.Endings
import Lokicat.Posting
import Lokicat.Sending

/-!
# The program from outside (lokicat.c)

`main` as a whole, on a heap that its pushes share: what it dies of before its loop, what it posts
and what it returns. The zone, the descriptor and what overflow does come from the
machine, the URL from the arguments and the labels from the lookup of the host.
-/

namespace Lokicat.Program

open Batching Chunks CommandLine Concrete CString Curl Delivery Framing Heaps InputLogread Iteration
  Libraries Logproto MainLoop MainSteps Message Noninterference Posting Push Sending StampWindow Util

structure Shown where
  death : Option Death
  consumed : List Byte
  posts : List Post
  /-- What the process returned, once it has ended. -/
  exitCode : Option Nat

/-- `exit (1)` in `die`, and 0 at the end of `main`. -/
def exitCode : Phase → Option Nat
  | .looping => none
  | .left => some 0
  | .died => some 1
  | .spinning => none

section Main

variable {κ : Type} (outside : Outside) (curl : Libcurl κ)

/-- A call of `send_push_request` and the request that it performs. -/
def push (cfg : Config) (s : Sent) : Prog (Block κ) (Option Post) := do
  let sent ← sendPushRequest outside.protobuf outside.snappy curl s.request cfg.lokiUrl s.outcome
  pure sent.2.2

/-- One iteration of the main loop, with the calls of `send_push_request` that it makes. -/
def stepShown (cfg : Config) (r : State × List Post) (t : Turn) :
    Prog (Block κ) (State × List Post) := do
  let st := stepMain cfg r.1 t
  let posts ← ((sents st.trace).drop (sents r.1.trace).length).mapM (push outside curl cfg)
  pure (st, r.2 ++ posts.filterMap id)

/-- `gethostbyname` may return NULL, whose `h_name` is read all the same. -/
def main (machine : Config) (host : Option (List Byte)) (args : List (List Byte))
    (turns : List Turn) : Prog (Block κ) Shown :=
  match start machine args with
  | .error death => pure ⟨some death, [], [], some 1⟩
  | .ok machine =>
    match host with
    | none => failure
    | some hName => do
      let cfg := { machine with labels := instanceLabels hName }
      let r ← turns.foldlM (stepShown outside curl cfg) (init cfg, [])
      pure ⟨none, r.1.bytesRead, r.2, exitCode r.1.phase⟩

end Main

/-! ## The arguments -/

theorem startsWith_split {a : List Byte} (h : startsWith a urlOption = true) :
    ∃ url, a = urlOption ++ url := by
  rw [startsWith, beq_iff_eq] at h
  refine ⟨a.drop urlOption.length, ?_⟩
  nth_rewrite 1 [← List.take_append_drop urlOption.length a]
  rw [h]

/-- What comes of the arguments: they are refused, or the last of them counts. -/
inductive Parsed (args : List (List Byte)) : Except Death (List Byte) → Prop where
  | usage (other : ∃ a ∈ args, startsWith a urlOption = false) : Parsed args (.error .usage)
  | missingUrl (absent : args = []) : Parsed args (.error .missingUrl)
  | url (url : List Byte) (options : ∀ a ∈ args, startsWith a urlOption = true)
      (last : args.getLast? = some (urlOption ++ url)) :
      Parsed args (.ok (snprintf urlSize (url ++ pushPath)))

theorem parsed_parseArgs (args : List (List Byte)) : Parsed args (parseArgs args) := by
  by_cases hother : ∃ a ∈ args, startsWith a urlOption = false
  · have hparse : parseArgs args = .error .usage := by
      simp only [parseArgs, foldlM_other hother]
      rfl
    rw [hparse]
    exact .usage hother
  · have hoptions : ∀ a ∈ args, startsWith a urlOption = true := by simpa using hother
    rcases List.eq_nil_or_concat args with rfl | ⟨before, last, rfl⟩
    · exact .missingUrl rfl
    · rw [List.concat_eq_append] at hoptions ⊢
      obtain ⟨url, rfl⟩ := startsWith_split (hoptions last (by simp))
      have hlast : lastUrl (before ++ [urlOption ++ url]) = some url := by
        simp [lastUrl, urlOf_option]
      have hparse : parseArgs (before ++ [urlOption ++ url]) =
          .ok (snprintf urlSize (url ++ pushPath)) := by
        simp only [parseArgs, foldlM_options fun a ha => startsWith_split (hoptions a ha), hlast]
        rfl
      rw [hparse]
      exact .url url hoptions (by simp)

/-! ## The posts -/

/-- Every line in a request is trimmed text. -/
theorem sent_trimmed (cfg : Config) (turns : List Turn) :
    ∀ s ∈ sents (runMain cfg turns).trace, ∀ e ∈ s.entries, ∃ text, NulFree text ∧
      e.line = trim text := by
  have hcompleted : ∀ e ∈ completed (runMain cfg turns).trace, ∃ text, NulFree text ∧
      e.line = trim text := by
    have hclocked : Clocked cfg (fun _ => True) (runMain cfg turns) :=
      clocked_run cfg fun _ _ _ => trivial
    refine forall_right (P := fun _ => True) hclocked.parses ?_ (by simp)
    rintro r e ⟨now, -, rfl⟩ -
    refine ⟨(afterDate (cstr r)).getD (cstr r), ?_, parse_line ..⟩
    obtain ⟨p, hp, -⟩ := afterDate_split (cstr r)
    intro b hb
    apply visible_free isNul r
    rw [← cstr, hp]
    exact List.mem_append_right _ hb
  intro s hs e he
  apply hcompleted
  rw [← handed_over]
  exact List.mem_append_left _
    (List.mem_flatten.mpr ⟨s.entries, List.mem_map.mpr ⟨s, hs, rfl⟩, he⟩)

section Runs

variable {κ : Type} {outside : Outside} {curl : Libcurl κ} {layout : Layout κ}
  (documented : outside.Documented) (transferring : curl.Documented layout)
  (handles : curl.HasHandles)

/-- What is posted for a call of `send_push_request`, if its body is compressed. -/
def postOf (outside : Outside) (cfg : Config) (s : Sent) : Option Post :=
  if s.outcome.compressedRes = snappyOk then some (post cfg.lokiUrl (outside.body s.request))
  else none

include documented transferring handles in
theorem ends_push (cfg : Config) (s : Sent) (m : Multiset (Nat × Block κ)) :
    Ends (push outside curl cfg s) m (postOf outside cfg s) m := by
  apply runs_then (send_keeps_blocks outside.protobuf outside.snappy curl layout
    documented.protobuf documented.snappy transferring handles s.request cfg.lokiUrl s.outcome m)
  exact ends_pure _ m

include documented transferring handles in
/-- An iteration posts what its calls post, and gives back the blocks of all of them. -/
theorem ends_stepShown (cfg : Config) (st : State) (t : Turn) (m : Multiset (Nat × Block κ)) :
    Ends (stepShown outside curl cfg (st, (sents st.trace).filterMap (postOf outside cfg)) t) m
      (stepMain cfg st t,
        (sents (stepMain cfg st t).trace).filterMap (postOf outside cfg)) m := by
  obtain ⟨as, htrace⟩ := micros_trace (micros_stepMain cfg st t)
  have hsents : sents (stepMain cfg st t).trace = sents st.trace ++ sents as := by
    rw [← htrace, sents_append]
  have hcalls := ends_mapM id (postOf outside cfg) fun s (_ : s ∈ sents as) =>
    ends_push documented transferring handles cfg s m
  rw [List.map_id] at hcalls
  simp only [stepShown, hsents, List.drop_left]
  apply runs_then hcalls
  refine runs_pure ⟨?_, rfl⟩
  rw [List.filterMap_append, List.filterMap_map]
  rfl

include documented transferring handles in
/-- The calls of a run post the requests that are compressed, and nothing is left of them. -/
theorem ends_turns (cfg : Config) (turns : List Turn) (m : Multiset (Nat × Block κ)) :
    Ends (turns.foldlM (stepShown outside curl cfg) (init cfg, [])) m
      (runMain cfg turns, (sents (runMain cfg turns).trace).filterMap (postOf outside cfg)) m := by
  apply runs_foldlM fun ts r m' => r =
    (runMain cfg ts, (sents (runMain cfg ts).trace).filterMap (postOf outside cfg)) ∧ m' = m
  · rintro ts t _ _ ⟨rfl, rfl⟩
    rw [runMain, runMain, run_concat]
    exact ends_stepShown documented transferring handles cfg _ t _
  · exact ⟨rfl, rfl⟩

/-- What shows of a run of `main` with these arguments. A post goes to the URL of the last
argument, as far as the array for it reaches, and the server reads from its body one stream with
the label of the host, of 1 to 64 entries, whose messages have no white space around them and no
NUL in them. -/
structure Shows (outside : Outside) (host : Option (List Byte)) (args : List (List Byte))
    (shown : Shown) : Prop where
  usage : shown.death = some .usage ↔ ∃ a ∈ args, startsWith a urlOption = false
  missingUrl : shown.death = some .missingUrl ↔ args = []
  dead : shown.death ≠ none → shown.posts = [] ∧ shown.exitCode = some 1
  posted : (∀ r ∈ records isNewline shown.consumed, r.length ≤ 2 ^ 24) →
    ∀ p ∈ shown.posts, ∃ hName url entries, host = some hName ∧
      args.getLast? = some (urlOption ++ url) ∧
      p = post (snprintf urlSize (url ++ pushPath)) p.body ∧
      outside.server p.body = some ⟨[⟨instanceLabels hName, entries⟩]⟩ ∧
      1 ≤ entries.length ∧ entries.length ≤ maxEntries ∧
      ∀ e ∈ entries, NulFree e.line ∧ (∀ b ∈ e.line.head?, isspace b = false) ∧
        ∀ b ∈ e.line.getLast?, isspace b = false

/-- Only arguments that are all accepted lead to the lookup of the host. -/
def Accepted (args : List (List Byte)) : Prop :=
  args ≠ [] ∧ ∀ a ∈ args, startsWith a urlOption = true

instance (args : List (List Byte)) : Decidable (Accepted args) :=
  inferInstanceAs (Decidable (_ ∧ _))

include documented in
theorem shows_run {machine : Config} (within : WithinDay machine.zone) {turns : List Turn}
    (clocks : ∀ t ∈ turns, ∀ k, -2 ^ 55 ≤ (t.line k).parseClock ∧ (t.line k).parseClock ≤ 2 ^ 55)
    {args : List (List Byte)} (accepted : Accepted args) {url : List Byte}
    (last : args.getLast? = some (urlOption ++ url)) (hName : List Byte) :
    let cfg : Config := { machine with
      lokiUrl := snprintf urlSize (url ++ pushPath), labels := instanceLabels hName }
    let st := runMain cfg turns
    Shows outside (some hName) args
      ⟨none, st.bytesRead, (sents st.trace).filterMap (postOf outside cfg), exitCode st.phase⟩ := by
  intro cfg st
  refine ⟨by simpa using accepted.2, by simpa using accepted.1, by simp, fun short p hp => ?_⟩
  obtain ⟨s, hs, hpost⟩ := List.mem_filterMap.mp hp
  have hwithin : WithinDay cfg.zone := within
  have hread : outside.server (outside.body s.request) =
      some ⟨[⟨instanceLabels hName, s.entries⟩]⟩ :=
    (body_received hwithin clocks short documented rfl s hs).trans
      (congrArg some (request_shape cfg turns s hs))
  obtain ⟨hfirst, hfew⟩ := (bounded_run cfg turns).sizes s hs
  rw [postOf] at hpost
  split at hpost
  · cases hpost
    refine ⟨hName, url, s.entries, rfl, last, rfl, hread, hfirst, hfew, ?_⟩
    intro e he
    obtain ⟨text, htext, hline⟩ := sent_trimmed cfg turns s hs e he
    rw [hline]
    exact ⟨fun b hb => htext b (trim_mem b hb), trim_head text, trim_last text⟩
  · cases hpost

end Runs

end Lokicat.Program

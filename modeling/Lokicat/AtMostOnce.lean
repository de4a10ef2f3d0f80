import Lokicat.Network
import Lokicat.Outcomes
import Lokicat.Posting

/-!
# What the server stores

The program never posts a batch twice. So whatever the network does to the bodies whose
push it takes for failed, the server stores an entry at most once, and those of the pushes that
it has answered with success in order.
-/

namespace Lokicat.AtMostOnce

open Batching Concrete CString Delivery Framing Iteration Libraries Logproto MainLoop Network
  Outcomes Posting Push StampWindow

/-- The entries of the request that the server takes a body for. -/
def taken (outside : Outside) (body : List Byte) : List Entry :=
  ((outside.server body).map (fun r => r.streams.flatMap Stream.entries)).getD []

/-- The server after some events of the network. -/
def serverStore (outside : Outside) (events : List (Event (List Byte))) : List Entry :=
  (run (Net.step (taken outside)) Net.start events).store

/-- The events post the bodies of a run, in order; a push is acknowledged when it is accepted. -/
def PostsOf (outside : Outside) (st : State) (events : List (Event (List Byte))) : Prop :=
  posts events = (posted st).map (fun s => (outside.body s.request, s.outcome.accepted))

section Posts

variable {outside : Outside} {st : State} {events : List (Event (List Byte))}
  (readable : ∀ s ∈ sents st.trace, outside.server (outside.body s.request) = some s.request)
  (posting : PostsOf outside st events)

include readable in
theorem taken_body : ∀ s ∈ posted st, taken outside (outside.body s.request) = s.entries := by
  intro s hs
  rw [taken, readable s (List.mem_of_mem_filter hs)]
  rfl

include readable posting in
theorem posts_taken :
    (posts events).flatMap (fun p => taken outside p.1) = (posted st).flatMap Sent.entries := by
  rw [posting, List.flatMap_map]
  exact List.flatMap_congr (taken_body readable)

include readable posting in
theorem acknowledged_taken : (acknowledged events).flatMap (taken outside) = delivered st := by
  have hposted : (posted st).filter (fun s => s.outcome.accepted) =
      (sents st.trace).filter (fun s => s.outcome.accepted) := by
    rw [posted, List.filter_filter]
    apply List.filter_congr
    intro s _
    cases haccepted : s.outcome.accepted with
    | false => simp
    | true =>
      simp only [PushOutcome.accepted, Bool.and_eq_true, decide_eq_true_eq] at haccepted
      simp [haccepted.1.1.1]
  have hacknowledged : acknowledged events =
      ((posted st).filter (fun s => s.outcome.accepted)).map (fun s => outside.body s.request) := by
    rw [acknowledged, posting, List.filter_map, List.map_map]
    rfl
  rw [hacknowledged, List.flatMap_map, delivered, sentWith, ← hposted]
  exact List.flatMap_congr fun s hs => taken_body readable s (List.mem_of_mem_filter hs)

end Posts

/-- A line whose push is answered with 500 when its body has not been read yet. -/
def lateTurns : List Turn :=
  [readTurn 1 [97, 10],
    { readTurn 40 [98, 10] with outcome := { acceptedOutcome with responseCode := 500 } }]

end Lokicat.AtMostOnce

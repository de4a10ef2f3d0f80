import Lokicat.Push
import Mathlib.Algebra.GroupWithZero.Nat

/-!
# What a push reports

The return code and the report of `send_push_request` against what became of
the push. A failed transfer and a refused request both return 0, and the report
of a sent request has its two numbers exchanged.
-/

namespace Lokicat.Reports

open CString Logproto Push

/-- The reports of a sent request, each with its `bytes` and its `lines`. -/
def sentReports (log : List LogLine) : List (Nat × Nat) :=
  log.filterMap (fun | .sent bytes lines => some (bytes, lines) | _ => none)

/-- The entries of all streams. -/
def entryCount (request : PushRequest) : Nat :=
  (request.streams.map (fun s => s.entries.length)).sum

/-- The return code tells whether the request was accepted, 0 if it was and 1 if not,
and only an accepted one is reported as sent, with its true numbers. -/
structure Truthful (request : PushRequest) (lokiUrl : List Byte) (o : PushOutcome) : Prop where
  status : (sendPushRequest request lokiUrl o).1 = if o.accepted then 0 else 1
  report : ∀ r ∈ sentReports (sendPushRequest request lokiUrl o).2,
    o.accepted = true ∧ r.1 = o.compressedLen ∧ r.2 = entryCount request

/-- The class of a response code is its first digit of three. -/
theorem class_of_code (code : Int) : code.tdiv 100 = 2 ↔ 200 ≤ code ∧ code ≤ 299 := by
  obtain hneg | hpos := Int.lt_or_le code 0
  · have hdiv : 0 ≤ (-code).tdiv 100 := Int.tdiv_nonneg (by omega) (by omega)
    rw [Int.neg_tdiv] at hdiv
    omega
  · rw [Int.tdiv_eq_ediv_of_nonneg hpos]
    omega

/-- Past the compression the return code is 0. -/
theorem status_compressed (request : PushRequest) (lokiUrl : List Byte) {o : PushOutcome}
    (h : o.compressedRes = snappyOk) : (sendPushRequest request lokiUrl o).1 = 0 := by
  simp only [sendPushRequest, h, ne_eq, not_true_eq_false, if_false]
  split <;> split <;> rfl

theorem foldl_lines (streams : List Stream) (n : Nat) :
    streams.foldl (fun lines s => lines + s.entries.length) n =
      n + (streams.map (fun s => s.entries.length)).sum := by
  induction streams generalizing n with
  | nil => rfl
  | cons s streams ih => rw [List.foldl_cons, ih, List.map_cons, List.sum_cons, Nat.add_assoc]

/-- An accepted request is reported with the number of its entries as `bytes` and the
length of its body as `lines`. -/
theorem reports_accepted (request : PushRequest) (lokiUrl : List Byte) {o : PushOutcome}
    (h : o.accepted = true) :
    sentReports (sendPushRequest request lokiUrl o).2 =
      [(entryCount request, o.compressedLen)] := by
  simp only [PushOutcome.accepted, Bool.and_eq_true, decide_eq_true_eq] at h
  obtain ⟨⟨⟨hcompressed, hresp⟩, hlow⟩, hhigh⟩ := h
  have hclass : o.responseCode.tdiv 100 = 2 := (class_of_code _).mpr ⟨hlow, hhigh⟩
  simp [sendPushRequest, hcompressed, hresp, hclass, sentReports, foldl_lines, entryCount]

/-- The truth is told exactly when the compression fails, or when the request is
accepted and has as many entries as its compressed body has bytes. -/
theorem truthful_iff (request : PushRequest) (lokiUrl : List Byte) (o : PushOutcome) :
    Truthful request lokiUrl o ↔
      o.compressedRes ≠ snappyOk ∨ (o.accepted = true ∧ entryCount request = o.compressedLen) := by
  by_cases hcompressed : o.compressedRes = snappyOk
  · have hstatus := status_compressed request lokiUrl hcompressed
    cases haccepted : o.accepted with
    | false =>
      simp only [hcompressed, ne_eq, not_true_eq_false, Bool.false_eq_true, false_and, or_self,
        iff_false]
      intro h
      have := h.status
      rw [hstatus, haccepted] at this
      contradiction
    | true =>
      have hreports := reports_accepted request lokiUrl haccepted
      simp only [hcompressed, ne_eq, not_true_eq_false, true_and, false_or]
      constructor
      · intro h
        have hreport := h.report _ (by rw [hreports]; exact List.mem_singleton.mpr rfl)
        exact hreport.2.1
      · intro hlen
        refine ⟨by rw [hstatus, haccepted, if_pos rfl], ?_⟩
        intro r hr
        rw [hreports, List.mem_singleton] at hr
        rw [hr]
        exact ⟨haccepted, hlen, hlen.symm⟩
  · have hsend : sendPushRequest request lokiUrl o = (1, [.errorCompressing o.compressedRes]) := by
      simp only [sendPushRequest, ne_eq, hcompressed, not_false_eq_true, if_true]
    have haccepted : o.accepted = false := by
      simp [PushOutcome.accepted, hcompressed]
    simp only [ne_eq, hcompressed, not_false_eq_true, true_or, iff_true]
    refine ⟨by rw [hsend, haccepted]; rfl, ?_⟩
    rw [hsend]
    intro r hr
    cases hr

/-- A connection that is refused is reported as a success. -/
theorem refused_connection_returns_zero :
    ¬ ∀ (request : PushRequest) (lokiUrl : List Byte) (o : PushOutcome),
      Truthful request lokiUrl o := by
  intro h
  have hstatus := (h ⟨[⟨[], [⟨none, [97]⟩]⟩]⟩ [] ⟨snappyOk, 12, 7, 0⟩).status
  revert hstatus
  decide

end Lokicat.Reports

import Lokicat.Ownership

/-!
# How many blocks are in use

At every loop head each block in use is accounted for: the current entry with its
pending text, two or three blocks for every waiting entry, and one lost text for
every read that came while the pending text started with NUL.
-/

namespace Lokicat.BlockCount

open Batching CString Delivery Footprint Framing Heaps Iteration Logproto MainLoop Memory Ownership

section Heap

variable {β : Type} {h : Heap β} {m : Multiset (Nat × β)}

/-- The number of blocks in use. -/
def inUse (h : Heap β) : Nat := (List.range h.next).countP (fun a => (h.cell a).isSome)

theorem inUse_owned (own : Owns h m) : inUse h = m.card := by
  have hblocks : (((List.range h.next).filter fun a => (h.cell a).isSome : List Nat) :
      Multiset Nat) = m.map Prod.fst := by
    refine (Multiset.Nodup.ext ?_ own.nodup).mpr ?_
    · exact Multiset.coe_nodup.mpr (List.nodup_range.filter _)
    · intro a
      rw [← owns_live own, Multiset.mem_coe, List.mem_filter, List.mem_range, Heap.Live]
      refine and_iff_right_of_imp fun hlive => ?_
      by_contra hnext
      rw [h.fresh a (by omega)] at hlive
      cases hlive
  rw [inUse, List.countP_eq_length_filter, ← Multiset.coe_card, hblocks, Multiset.card_map]

end Heap

/-- The blocks of an entry of the batch: itself, its line and its timestamp if set. -/
def blocks (e : Entry) : Nat := if e.timestamp.isSome then 3 else 2

theorem card_parsed {x : Held} (h : x.Parsed) : x.cells.card = blocks x.value := by
  obtain ⟨a, timestamp, line⟩ := x
  have hline := h.line
  cases line with
  | none => exact absurd rfl hline
  | some l => cases timestamp <;> rfl

theorem card_batch {held : List Held} (h : ∀ x ∈ held, x.Parsed) :
    (batchCells held).card = ((held.map Held.value).map blocks).sum := by
  induction held with
  | nil => rfl
  | cons x held ih =>
    rw [batchCells, List.map_cons, List.sum_cons, Multiset.card_add, card_parsed (h x (by simp)),
      List.map_cons, List.map_cons, List.sum_cons, ← ih fun y hy => h y (by simp [hy])]
    rfl

theorem sum_blocks_le (es : List Entry) : (es.map blocks).sum ≤ 3 * es.length := by
  induction es with
  | nil => simp
  | cons e es ih =>
    have he : blocks e ≤ 3 := by
      rw [blocks]
      split <;> omega
    simp only [List.map_cons, List.sum_cons, List.length_cons]
    omega

theorem card_pending {v : Vars} {st : State} {cur : Held} (h : Pending v st cur) :
    cur.cells.card = 1 + if st.entry.line = [] then 0 else 1 := by
  rw [cells_unstamped h.unstamped, Multiset.card_add, Multiset.card_singleton, ← h.value]
  cases hline : cur.line with
  | none => simp [Held.value, hline]
  | some l => simp [Held.value, hline, h.text l hline]

/-- The blocks in use at every loop head, and what bounds them. -/
theorem blocks_in_use (cfg : Config) (turns : List Turn) :
    let st := MainLoop.runMain cfg turns
    let lost := hiddenHeads isNul isNewline [] (reads st.trace)
    ∃ v h, Memory.runMain cfg turns = some (v, h) ∧
      inUse h = 1 + (if st.entry.line = [] then 0 else 1) + (st.stream.entries.map blocks).sum +
        lost ∧
      inUse h ≤ 2 + 3 * (maxEntries - 1) + lost := by
  intro st lost
  obtain ⟨v, h, m, hrun, own, textLost, cur, ⟨held, hagrees, hpending, rfl⟩, hlost⟩ :=
    runs_main cfg turns Heap.empty owns_empty
  have hcount : inUse h = 1 + (if st.entry.line = [] then 0 else 1) +
      (st.stream.entries.map blocks).sum + lost := by
    rw [inUse_owned own, Multiset.card_add, Multiset.card_add, card_batch hagrees.parsed, hlost,
      card_pending hpending, ← hagrees.values]
    simp only [st, lost]
    omega
  have hbatch : (st.stream.entries.map blocks).sum ≤ 3 * (maxEntries - 1) := by
    have hroom := (bounded_run cfg turns).capacity
    have hsum := sum_blocks_le st.stream.entries
    simp only [st] at hsum ⊢
    omega
  refine ⟨v, h, hrun, hcount, ?_⟩
  rw [hcount]
  split <;> omega

end Lokicat.BlockCount

import Lokicat.Iteration
import Mathlib.Data.List.Flatten
import Mathlib.Data.List.Perm.Subperm

/-!
# Posts over a network

A sender posts messages, one after the other, and never posts one again. The receiver has a
message whose post it has acknowledged. Another message may arrive at any later time, behind
messages posted after it, or never. So the receiver stores what it makes of each message at
most once, and in order what it has acknowledged.
-/

namespace Lokicat.Network

open Iteration

variable {μ α : Type}

inductive Event (μ : Type) where
  /-- A message is posted; it is acknowledged or not. -/
  | post : μ → Bool → Event μ
  /-- The message at some place of those in flight is received. -/
  | arrive : Nat → Event μ
  | lose : Nat → Event μ

/-- The messages in flight and what the receiver has stored. -/
structure Net (μ α : Type) where
  flight : List μ
  store : List α

def Net.start : Net μ α := ⟨[], []⟩

/-- One event, for a receiver that appends what it makes of a message. -/
def Net.step (take : μ → List α) (net : Net μ α) : Event μ → Net μ α
  | .post m true => { net with store := net.store ++ take m }
  | .post m false => { net with flight := net.flight ++ [m] }
  | .arrive k =>
    match net.flight[k]? with
    | some m => ⟨net.flight.eraseIdx k, net.store ++ take m⟩
    | none => net
  | .lose k => { net with flight := net.flight.eraseIdx k }

/-- The messages posted, each with whether it was acknowledged. -/
def posts (es : List (Event μ)) : List (μ × Bool) :=
  es.filterMap (fun | .post m acknowledged => some (m, acknowledged) | _ => none)

/-- The messages acknowledged, in order. -/
def acknowledged (es : List (Event μ)) : List μ :=
  ((posts es).filter Prod.snd).map Prod.fst

section Posts

variable (es : List (Event μ))

@[simp] theorem posts_post (m : μ) (a : Bool) : posts (es ++ [.post m a]) = posts es ++ [(m, a)] :=
  List.filterMap_append ..

@[simp] theorem posts_arrive (k : Nat) : posts (es ++ [.arrive k]) = posts es := by
  simp [posts]

@[simp] theorem posts_lose (k : Nat) : posts (es ++ [.lose k]) = posts es := by
  simp [posts]

end Posts

@[simp] theorem acknowledged_post (es : List (Event μ)) (m : μ) (a : Bool) :
    acknowledged (es ++ [.post m a]) = acknowledged es ++ if a then [m] else [] := by
  cases a <;> simp [acknowledged]

/-- What is stored and in flight has been posted, and what is acknowledged is stored. -/
structure Sound (take : μ → List α) (es : List (Event μ)) (net : Net μ α) : Prop where
  once : (net.store ++ net.flight.flatMap take).Subperm ((posts es).flatMap (fun p => take p.1))
  kept : ((acknowledged es).flatMap take).Sublist net.store

variable {take : μ → List α}

/-- A message that arrives leaves the flight for the store. -/
theorem arrive_perm {flight : List μ} {k : Nat} {m : μ} (h : flight[k]? = some m)
    (store : List α) :
    (store ++ take m ++ (flight.eraseIdx k).flatMap take).Perm (store ++ flight.flatMap take) := by
  obtain ⟨hk, rfl⟩ := List.getElem?_eq_some_iff.mp h
  have hflight := (List.getElem_cons_eraseIdx_perm hk).flatMap_right take
  rw [List.flatMap_cons] at hflight
  rw [List.append_assoc]
  exact hflight.append_left store

theorem sound_step {es : List (Event μ)} {net : Net μ α} (e : Event μ) (h : Sound take es net) :
    Sound take (es ++ [e]) (net.step take e) := by
  obtain ⟨honce, hkept⟩ := h
  cases e with
  | post m a =>
    have hposts : (posts (es ++ [.post m a])).flatMap (fun p => take p.1) =
        (posts es).flatMap (fun p => take p.1) ++ take m := by simp
    have hmore := (List.subperm_append_right (take m)).mpr honce
    cases a with
    | true =>
      have hstored : (net.store ++ take m ++ net.flight.flatMap take).Perm
          (net.store ++ net.flight.flatMap take ++ take m) := by
        rw [List.append_assoc, List.append_assoc]
        exact List.perm_append_comm.append_left net.store
      constructor
      · rw [hposts]
        exact hstored.subperm.trans hmore
      · rw [acknowledged_post, if_pos rfl, List.flatMap_append, List.flatMap_singleton]
        exact hkept.append_right (take m)
    | false =>
      constructor
      · rw [hposts]
        simpa [Net.step] using hmore
      · rw [acknowledged_post, if_neg (by decide), List.append_nil]
        exact hkept
  | arrive k =>
    rw [Net.step]
    cases hk : net.flight[k]? with
    | none => exact ⟨by rwa [posts_arrive], by rwa [acknowledged, posts_arrive]⟩
    | some m =>
      constructor
      · rw [posts_arrive]
        exact (arrive_perm hk net.store).subperm.trans honce
      · rw [acknowledged, posts_arrive]
        exact hkept.trans (List.sublist_append_left _ _)
  | lose k =>
    constructor
    · rw [posts_lose]
      have hflight := ((List.eraseIdx_sublist net.flight k).flatMap take).append_left net.store
      exact hflight.subperm.trans honce
    · rwa [acknowledged, posts_lose]

theorem sound_run (take : μ → List α) (es : List (Event μ)) :
    Sound take es (run (Net.step take) Net.start es) := by
  apply run_relation (Sound take)
  · exact ⟨List.Subperm.refl [], List.Sublist.refl []⟩
  · intro es net e h
    exact sound_step e h

/-- Where nothing arrives late the store is what was acknowledged. -/
theorem store_prompt (take : μ → List α) {es : List (Event μ)} (prompt : ∀ k, .arrive k ∉ es) :
    (run (Net.step take) Net.start es).store = (acknowledged es).flatMap take := by
  induction es using List.reverseRecOn with
  | nil => rfl
  | append_singleton es e ih =>
    have hbefore := ih fun k hk => prompt k (List.mem_append_left _ hk)
    rw [run_concat]
    cases e with
    | post m a => cases a <;> simp [Net.step, hbefore]
    | arrive k => exact absurd (by simp) (prompt k)
    | lose k =>
      rw [acknowledged, posts_lose]
      exact hbefore

end Lokicat.Network

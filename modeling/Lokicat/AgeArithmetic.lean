import Lokicat.Batching

/-!
# The arithmetic of the age test

The test narrows the clock to 32 bits twice and shares the value 0 with the
empty batch. It is right for a batch whose first reading is a positive `int`
with room for the age limit, until the clock has gone on to where the second
cast is negative.
-/

namespace Lokicat.AgeArithmetic

open Batching MainLoop MainSteps Push

/-- Where the test adds, the sum is an `int`. -/
def NoOverflow (oldest : Int) : Prop := 0 < oldest → oldest + maxAgeOfEntry < 2 ^ 31

/-- The age check sends a request. -/
def Flushes (cfg : Config) (now : Int) (o : PushOutcome) (st : State) : Prop :=
  (sents st.trace).length < (sents (ageCheck cfg now o st).trace).length

/-- The age test of a mark at a clock reading is free of overflow, and flushes exactly
a batch whose first reading is more than the age limit away. -/
structure AgeTestRight (cfg : Config) (first now : Int) (o : PushOutcome) (st : State) : Prop where
  noOverflow : NoOverflow st.timestampOldestEntry
  exact : Flushes cfg now o st ↔ maxAgeOfEntry < now - first

/-- What the clock must be for the test to be right: the batch is young, and its first
reading casts to no `int` too large for the sum; or it casts to a positive one and the time
since then, up to whole turns of the cast, ends between the age limit and the largest `int`. -/
def ClockFits (first now : Int) : Prop :=
  cInt first ≤ 2 ^ 31 - 31 ∧
    (now - first ≤ maxAgeOfEntry ∨
      0 < cInt first ∧ maxAgeOfEntry < (now - first) % 2 ^ 32 ∧
        cInt first + (now - first) % 2 ^ 32 < 2 ^ 31)

/-- A cast moves a reading by whole turns into the range of `int`. -/
theorem cInt_spec (t : Int) : (∃ k, cInt t = t + 2 ^ 32 * k) ∧ -2 ^ 31 ≤ cInt t ∧
    cInt t < 2 ^ 31 := by
  have hdiv := Int.emod_add_mul_ediv t (2 ^ 32)
  simp only [cInt, Int.bmod]
  split
  · exact ⟨⟨-(t / 2 ^ 32), by omega⟩, by omega, by omega⟩
  · exact ⟨⟨-(t / 2 ^ 32) - 1, by omega⟩, by omega, by omega⟩

theorem flushes_iff (cfg : Config) (now : Int) (o : PushOutcome) (st : State) :
    Flushes cfg now o st ↔ ageExpired cfg st.timestampOldestEntry now = true := by
  obtain ⟨hpos, h⟩ | ⟨-, hyoung, h⟩ | ⟨hold, h⟩ := ageCheck_cases cfg now o st
  · have hnot : ¬ageExpired cfg st.timestampOldestEntry now = true := by
      intro hold
      have := ageExpired_pos hold
      omega
    simp [Flushes, h, hnot]
  · simp [Flushes, h, hyoung, State.emit, sents]
  · simp [Flushes, h, hold, State.emit, sents]

/-- Where the second cast of a later reading lies, by the rest of the time between past
the whole turns of the cast. -/
theorem cInt_later {first now : Int} (hpos : 0 < cInt first) :
    cInt first + maxAgeOfEntry < cInt now ↔
      maxAgeOfEntry < (now - first) % 2 ^ 32 ∧ cInt first + (now - first) % 2 ^ 32 < 2 ^ 31 := by
  obtain ⟨⟨k, hk⟩, -, -⟩ := cInt_spec first
  obtain ⟨⟨j, hj⟩, hlow, hhigh⟩ := cInt_spec now
  simp only [maxAgeOfEntry]
  omega

/-- The age test of a batch whose mark was set from a reading is right at a later
one exactly when the clock fits. -/
theorem age_test_right_iff (cfg : Config) (first now : Int) (o : PushOutcome) (st : State)
    (mark : st.timestampOldestEntry = cInt first) (order : first ≤ now) :
    AgeTestRight cfg first now o st ↔ ClockFits first now := by
  simp only [ClockFits]
  by_cases hpos : 0 < cInt first
  · by_cases hroom : cInt first + maxAgeOfEntry < 2 ^ 31
    · have hflush : Flushes cfg now o st ↔ maxAgeOfEntry < (now - first) % 2 ^ 32 ∧
          cInt first + (now - first) % 2 ^ 32 < 2 ^ 31 := by
        rw [flushes_iff, mark, ageExpired_room cfg hpos hroom, cInt_later hpos]
      have hright : AgeTestRight cfg first now o st ↔
          (Flushes cfg now o st ↔ maxAgeOfEntry < now - first) :=
        ⟨AgeTestRight.exact, fun h => ⟨fun _ => by rwa [mark], h⟩⟩
      rw [hright, hflush]
      simp only [maxAgeOfEntry] at hroom ⊢
      omega
    · constructor
      · intro h
        exact absurd (mark ▸ h.noOverflow (mark ▸ hpos)) hroom
      · rintro ⟨hfits, -⟩
        simp only [maxAgeOfEntry] at hroom
        omega
  · have hnever : ¬Flushes cfg now o st := by
      rw [flushes_iff, mark]
      exact fun h => hpos (ageExpired_pos h)
    constructor
    · intro h
      have hyoung := mt h.exact.mpr hnever
      exact ⟨by omega, .inl (by omega)⟩
    · rintro ⟨-, hyoung | ⟨h, -⟩⟩
      · refine ⟨fun h => absurd (mark ▸ h) hpos, fun h => absurd h hnever, fun h => ?_⟩
        omega
      · exact absurd h hpos

/-- A batch of a first reading 1 is flushed at 32. -/
theorem flushed_at_32 :
    AgeTestRight utcConfig 1 32 acceptedOutcome (runMain utcConfig [readTurn 1 [97, 10]]) ↔
      ClockFits 1 32 :=
  age_test_right_iff utcConfig 1 32 acceptedOutcome (runMain utcConfig [readTurn 1 [97, 10]])
    (by decide) (by decide)

/-- A batch begun in 2038, as the cast turns negative, is not flushed by age. -/
theorem not_flushed_in_2038 :
    ¬ ∀ (cfg : Config) (first now : Int) (o : PushOutcome) (st : State),
      st.timestampOldestEntry = cInt first → 0 ≤ first → first ≤ now → now < 2 ^ 63 →
        AgeTestRight cfg first now o st := by
  intro h
  have hflush := (h utcConfig 2147483648 2147483679 acceptedOutcome
    (runMain utcConfig [readTurn 2147483648 [97, 10]]) (by decide) (by decide) (by decide)
    (by decide)).exact.mpr (by decide)
  revert hflush
  rw [flushes_iff]
  decide

end Lokicat.AgeArithmetic

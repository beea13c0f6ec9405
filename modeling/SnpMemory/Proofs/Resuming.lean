/-
# `SnpMemory.Proofs.Resuming` — filling is resumed in another buffer

Which page a walk takes at an address is a matter of the address alone.  What was placed
before does not count, so a walk that ends because its room is used up can be gone on with
from the address that it has reached:

    walk (m + n) start   =   walk m start,  then  walk n  from where that has ended

This is so wherever the cut is: before a 2MiB page or behind one, at the end of a range or
past it, where the second part has nothing to place.  Nothing is asked of the bounds of the
range, which may be any numbers.  A sum that is too large for a word is too large in the
part that comes to it, and the entries up to there are the same (`walk_add`).

When that happens is told by the places alone (`EndsInWords`), and as long as it does not
happen, two buffers are filled like one that is as long as both together
(`fill_resumed`).
-/
import SnpMemory.Proofs.Refilling

namespace SnpMemory

namespace Goal

variable {goal : Goal} {start room reached : Nat}

/-- One walk in two parts.  The second part is left out if the first one is broken off. -/
theorem walk_add (goal : Goal) (m n start : Nat) :
    goal.walk (m + n) start =
      match goal.walk m start with
      | (entries, .ok mid) => (entries ++ (goal.walk n mid).1, (goal.walk n mid).2)
      | (entries, .error limit) => (entries, .error limit) := by
  induction m generalizing start with
  | zero =>
      rw [Nat.zero_add]
      rfl
  | succ m ih =>
      rw [Nat.succ_add]
      by_cases more : start < goal.stop
      · by_cases fits : start + (goal.sizeAt start).bytes < wordLimit
        · rw [walk_of_fits more fits, walk_of_fits more fits, ih]
          cases goal.walk m (start + (goal.sizeAt start).bytes) with
          | mk entries ended => cases ended <;> rfl
        · rw [walk_of_overflow more (Nat.not_lt.mp fits),
            walk_of_overflow more (Nat.not_lt.mp fits)]
      · -- the range has ended, and so the second part has nothing to place either
        have ended : goal.stop ≤ start := Nat.not_lt.mp more
        simp only [walk_of_le ended, List.nil_append]

/-- The pages of a walk with so much room end at words: no sum of the walk is too large. -/
def EndsInWords (goal : Goal) (start room : Nat) : Prop :=
  ∀ k < room, goal.place start k < goal.stop →
    goal.place start k + (goal.sizeAt (goal.place start k)).bytes < wordLimit

theorem endsInWords_succ_iff :
    goal.EndsInWords start (room + 1) ↔
      (start < goal.stop → start + (goal.sizeAt start).bytes < wordLimit) ∧
        goal.EndsInWords (start + (goal.sizeAt start).bytes) room :=
  Nat.forall_lt_succ_left

/-- Behind the end of the range there is nothing to add. -/
theorem endsInWords_of_le (ended : goal.stop ≤ start) : goal.EndsInWords start room := by
  intro k _ more
  exact absurd more (Nat.not_lt.mpr (Nat.le_trans ended (goal.start_le_place start k)))

theorem exists_ok_iff :
    (∃ reached, (goal.walk room start).2 = .ok reached) ↔ goal.EndsInWords start room := by
  induction room generalizing start with
  | zero => exact iff_of_true ⟨start, rfl⟩ fun k less => absurd less (Nat.not_lt_zero k)
  | succ room ih =>
      by_cases more : start < goal.stop
      · by_cases fits : start + (goal.sizeAt start).bytes < wordLimit
        · rw [walk_of_fits more fits, ih, endsInWords_succ_iff]
          exact (and_iff_right fun _ => fits).symm
        · rw [walk_of_overflow more (Nat.not_lt.mp fits), endsInWords_succ_iff]
          exact iff_of_false nofun fun ends => fits (ends.1 more)
      · have ended : goal.stop ≤ start := Nat.not_lt.mp more
        rw [walk_of_le ended]
        exact iff_of_true ⟨start, rfl⟩ (endsInWords_of_le ended)

end Goal

namespace Batch

/-- **Filling is resumed.**  Take a buffer, and two others that have as many slots together.
Fill the one for any range whatever, and the two for the same range, the second from where
the first has ended.  If no sum of the walk is too large for a word, all three are filled,
the one and the second of the two to the same address, and the entries of the two in a row
are those of the one.  If a sum is too large, it is so in the one and in one of the two, and
the entries are the same nevertheless. -/
theorem fill_resumed (goal : Goal) (start : Nat) {whole first second : Batch}
    (slots : whole.capacity = first.capacity + second.capacity) :
    let filled := whole.fill goal start
    let front := first.fill goal start
    (goal.EndsInWords start whole.capacity →
      ∃ mid reached, front.2 = .ok mid ∧ (second.fill goal mid).2 = .ok reached ∧
        filled.2 = .ok reached ∧
        filled.1.entries = front.1.entries ++ (second.fill goal mid).1.entries) ∧
    (∀ mid, front.2 = .ok mid →
      filled.2 = (second.fill goal mid).2 ∧
        filled.1.entries = front.1.entries ++ (second.fill goal mid).1.entries) ∧
    ∀ limit, front.2 = .error limit →
      filled.2 = .error limit ∧ filled.1.entries = front.1.entries := by
  intro filled front
  have cut := goal.walk_add first.capacity second.capacity start
  rw [← slots] at cut
  have resumed : ∀ mid, front.2 = .ok mid →
      filled.2 = (second.fill goal mid).2 ∧
        filled.1.entries = front.1.entries ++ (second.fill goal mid).1.entries := by
    intro mid ended
    have walked : goal.walk first.capacity start =
        ((goal.walk first.capacity start).1, .ok mid) := Prod.ext rfl ended
    rw [walked] at cut
    simp only [filled, front, entries_fill, fill_snd, cut, and_self]
  refine ⟨?_, resumed, ?_⟩
  · intro inWords
    obtain ⟨reached, ended⟩ := Goal.exists_ok_iff.mpr inWords
    obtain ⟨mid, ended'⟩ : ∃ mid, front.2 = .ok mid := by
      refine Goal.exists_ok_iff.mpr fun k less => inWords k ?_
      rw [slots]
      exact Nat.lt_add_right _ less
    obtain ⟨same, entries⟩ := resumed mid ended'
    exact ⟨mid, reached, ended', same.symm.trans ended, ended, entries⟩
  · intro limit broken
    have walked : goal.walk first.capacity start =
        ((goal.walk first.capacity start).1, .error limit) := Prod.ext rfl broken
    rw [walked] at cut
    simp only [filled, front, entries_fill, fill_snd, cut, and_self]

/-- A range that ends inside of the first page beyond memory. -/
def pastTheEnd : Goal where
  stop := 0x10000000000800
  assignment := .shared
  useLarge := true

/-- One slot takes the page before the last 2MiB block of memory.  Two others take the block and
the page beyond memory, as the last two of three slots do. -/
theorem fill_resumed_pastTheEnd :
    let one := ofBuffer [.zero]
    let two := ofBuffer [⟨7⟩, .zero]
    let front := one.fill pastTheEnd 0xfffffffdff000
    let back := two.fill pastTheEnd 0xfffffffe00000
    let filled := usedSlots.fill pastTheEnd 0xfffffffdff000
    front.2 = .ok 0xfffffffe00000 ∧ back.2 = .ok 0x10000000001000 ∧
      filled.2 = .ok 0x10000000001000 ∧
      filled.1.entries = front.1.entries ++ back.1.entries := by
  intro one two front back filled
  have slots : usedSlots.capacity = one.capacity + two.capacity := rfl
  have inWords : pastTheEnd.EndsInWords 0xfffffffdff000 usedSlots.capacity := by
    unfold Goal.EndsInWords
    decide
  obtain ⟨ends, -⟩ := fill_resumed pastTheEnd 0xfffffffdff000 slots
  obtain ⟨mid, reached, cut, resumed, whole, entries⟩ := ends inWords
  have here : front.2 = .ok 0xfffffffe00000 := rfl
  cases here.symm.trans cut
  have there : back.2 = .ok 0x10000000001000 := rfl
  cases there.symm.trans resumed
  exact ⟨here, there, whole, entries⟩

end Batch

end SnpMemory

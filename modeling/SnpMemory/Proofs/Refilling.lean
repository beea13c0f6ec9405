/-
# `SnpMemory.Proofs.Refilling` — one buffer, filled again and again

A batch is filled, cleared and filled once more, for ranges that nobody has checked: the
bounds are any two 64-bit words.  Filling may then run into the end of the words, stop
there, and leave the batch as it is.

Where a walk is after `n` entries can be told without running it (`Goal.place`), in exact
numbers.  A walk places the entries of its first places and nothing else (`walk_fst`), and
it is broken off at a place in the last page of the words that is still in the range
(`AtEdge`), if there is room for an entry there (`exists_error_iff`).  A 2MiB page is never
in the way: it is taken only where it ends in the range, so its end is a word.

What stands in a batch afterwards is a matter of the last operation alone, since filling
begins by clearing.  So no history of operations, and no filling that was broken off, shows
in what comes later (`wellFormed_after`).
-/
import SnpMemory.Proofs.Filling

namespace SnpMemory

namespace Goal

/-! ## Places -/

/-- Where a walk from an address is after so many entries, in exact numbers.  What may end
the walk before is left out of account. -/
def place (goal : Goal) (start : Nat) : Nat → Nat
  | 0 => start
  | n + 1 => goal.place (start + (goal.sizeAt start).bytes) n

/-- An address in the range from which not even a 4KiB page ends at a word. -/
def AtEdge (goal : Goal) (address : Nat) : Prop :=
  wordLimit - 0x1000 ≤ address ∧ address < goal.stop

variable {goal : Goal} {start address room n reached : Nat}

theorem start_le_place (goal : Goal) (start n : Nat) : start ≤ goal.place start n := by
  induction n generalizing start with
  | zero => exact Nat.le_refl start
  | succ n ih => exact Nat.le_trans (Nat.le_add_right _ _) (ih _)

/-- A 2MiB page is taken only where it ends in the range. -/
theorem add_large_le (more : address < goal.stop) (large : goal.sizeAt address = .large) :
    address + 0x200000 ≤ goal.stop := by
  obtain ⟨-, -, room⟩ := sizeAt_eq_large_iff.mp large
  omega

/-! ## One step of a walk -/

theorem walk_of_fits (more : start < goal.stop)
    (fits : start + (goal.sizeAt start).bytes < wordLimit) :
    goal.walk (room + 1) start =
      (goal.entryAt start :: (goal.walk room (start + (goal.sizeAt start).bytes)).1,
        (goal.walk room (start + (goal.sizeAt start).bytes)).2) := by
  rw [walk, if_pos more, addWord_of_lt fits]

/-- The entry is placed, and then there is no next address. -/
theorem walk_of_overflow (more : start < goal.stop)
    (past : wordLimit ≤ start + (goal.sizeAt start).bytes) :
    goal.walk (room + 1) start = ([goal.entryAt start], .error .wordOverflow) := by
  rw [walk, if_pos more, addWord_of_le past]

/-! ## Whole walks -/

/-- A walk places the entries of its first places, in order. -/
theorem walk_fst (goal : Goal) (room start : Nat) :
    (goal.walk room start).1 =
      (List.range (goal.walk room start).1.length).map fun n =>
        goal.entryAt (goal.place start n) := by
  induction room generalizing start with
  | zero => rfl
  | succ room ih =>
      by_cases more : start < goal.stop
      · by_cases fits : start + (goal.sizeAt start).bytes < wordLimit
        · rw [walk_of_fits more fits, List.length_cons, List.range_succ_eq_map, List.map_cons,
            List.map_map]
          exact congrArg (goal.entryAt start :: ·) (ih _)
        · rw [walk_of_overflow more (Nat.not_lt.mp fits)]
          rfl
      · rw [walk_of_le (Nat.not_lt.mp more)]
        rfl

theorem exists_entryAt_of_mem_walk {e : Entry} (mem : e ∈ (goal.walk room start).1) :
    ∃ address, e = goal.entryAt address := by
  rw [walk_fst] at mem
  obtain ⟨n, -, rfl⟩ := List.mem_map.mp mem
  exact ⟨_, rfl⟩

/-- A walk that is not stopped ends at the place after its last entry. -/
theorem eq_place_of_walk (h : (goal.walk room start).2 = .ok reached) :
    reached = goal.place start (goal.walk room start).1.length := by
  induction room generalizing start with
  | zero =>
      cases h
      rfl
  | succ room ih =>
      by_cases more : start < goal.stop
      · by_cases fits : start + (goal.sizeAt start).bytes < wordLimit
        · rw [walk_of_fits more fits] at h ⊢
          exact ih h
        · rw [walk_of_overflow more (Nat.not_lt.mp fits)] at h
          cases h
      · rw [walk_of_le (Nat.not_lt.mp more)] at h ⊢
        cases h
        rfl

/-- A 2MiB page is not taken at the edge. -/
theorem AtEdge.sizeAt_eq (edge : goal.AtEdge address) (words : goal.stop < wordLimit) :
    goal.sizeAt address = .small := by
  obtain ⟨high, more⟩ := edge
  cases size : goal.sizeAt address with
  | small => rfl
  | large =>
      have inside := add_large_le more size
      unfold wordLimit at high words
      omega

theorem atEdge_iff (words : goal.stop < wordLimit) :
    goal.AtEdge address ↔
      address < goal.stop ∧ wordLimit ≤ address + (goal.sizeAt address).bytes := by
  constructor
  · intro edge
    rw [edge.sizeAt_eq words]
    exact ⟨edge.2, Nat.le_add_of_sub_le edge.1⟩
  · rintro ⟨more, past⟩
    refine ⟨?_, more⟩
    cases size : goal.sizeAt address with
    | small =>
        rw [size] at past
        exact Nat.sub_le_of_le_add past
    | large =>
        rw [size] at past
        exact absurd (Nat.lt_of_le_of_lt (add_large_le more size) words) (Nat.not_lt.mpr past)

/-- At a place at the edge a walk is broken off, with the entry for that place as its last. -/
theorem walk_of_place (words : goal.stop < wordLimit) (enough : n < room)
    (edge : goal.AtEdge (goal.place start n)) :
    (goal.walk room start).1.length = n + 1 ∧
      (goal.walk room start).2 = .error .wordOverflow := by
  obtain ⟨room, rfl⟩ := Nat.exists_eq_succ_of_ne_zero (Nat.ne_zero_of_lt enough)
  induction n generalizing start room with
  | zero =>
      obtain ⟨more, past⟩ := (atEdge_iff words).mp edge
      have walked : goal.walk (room + 1) start = ([goal.entryAt start], .error .wordOverflow) :=
        walk_of_overflow more past
      rw [walked]
      exact ⟨rfl, rfl⟩
  | succ n ih =>
      -- the next address is not behind a place that lies in the range
      have below : start + (goal.sizeAt start).bytes < goal.stop :=
        Nat.lt_of_le_of_lt (goal.start_le_place _ n) edge.2
      have more : start < goal.stop := Nat.lt_of_le_of_lt (Nat.le_add_right _ _) below
      have enough' : n < room := Nat.lt_of_succ_lt_succ enough
      obtain ⟨room, rfl⟩ := Nat.exists_eq_succ_of_ne_zero (Nat.ne_zero_of_lt enough')
      obtain ⟨length, stopped⟩ := ih edge room enough'
      rw [walk_of_fits more (Nat.lt_trans below words)]
      exact ⟨congrArg (· + 1) length, stopped⟩

/-- A walk is broken off nowhere else. -/
theorem exists_place_of_walk {limit : Fault} (words : goal.stop < wordLimit)
    (stopped : (goal.walk room start).2 = .error limit) :
    ∃ n < room, goal.AtEdge (goal.place start n) := by
  induction room generalizing start with
  | zero => cases stopped
  | succ room ih =>
      by_cases more : start < goal.stop
      · by_cases fits : start + (goal.sizeAt start).bytes < wordLimit
        · rw [walk_of_fits more fits] at stopped
          obtain ⟨n, enough, edge⟩ := ih stopped
          exact ⟨n + 1, Nat.succ_lt_succ enough, edge⟩
        · exact ⟨0, Nat.succ_pos room, (atEdge_iff words).mpr ⟨more, Nat.not_lt.mp fits⟩⟩
      · rw [walk_of_le (Nat.not_lt.mp more)] at stopped
        cases stopped

theorem exists_error_iff (words : goal.stop < wordLimit) :
    (∃ limit, (goal.walk room start).2 = .error limit) ↔
      ∃ n < room, goal.AtEdge (goal.place start n) := by
  constructor
  · rintro ⟨limit, stopped⟩
    exact exists_place_of_walk words stopped
  · rintro ⟨n, enough, edge⟩
    exact ⟨_, (walk_of_place words enough edge).2⟩

end Goal

/-! ## Operations on a batch -/

namespace Batch

/-- What can be done to a batch. -/
inductive Operation where
  | fill (goal : Goal) (start : Nat)
  | reset

/-- The batch after an operation, also when that was broken off. -/
def apply (b : Batch) : Operation → Batch
  | .fill goal start => (b.fill goal start).1
  | .reset => b.reset

/-- The batch after some operations, one after the other. -/
def after (b : Batch) (operations : List Operation) : Batch := operations.foldl apply b

/-- The buffer has so many slots, and those behind the entries are zero. -/
structure WellFormed (capacity : Nat) (b : Batch) : Prop where
  capacity_eq : b.capacity = capacity
  cleared : b.storage.drop b.len = List.replicate (capacity - b.len) .zero

variable {b other : Batch} {capacity : Nat}

theorem wellFormed_ofEntries {entries : List Entry} (few : entries.length ≤ capacity) :
    WellFormed capacity (ofEntries capacity entries) where
  capacity_eq := capacity_ofEntries few
  cleared := drop_ofEntries capacity entries

/-- Any operation leaves a well-formed batch, whatever it finds. -/
theorem wellFormed_apply (full : b.capacity = capacity) (operation : Operation) :
    WellFormed capacity (b.apply operation) := by
  subst full
  cases operation with
  | fill goal start => exact wellFormed_ofEntries (goal.length_walk_le _ _)
  | reset => exact wellFormed_ofEntries (Nat.zero_le _)

theorem capacity_after (b : Batch) (operations : List Operation) :
    (b.after operations).capacity = b.capacity := by
  induction operations generalizing b with
  | nil => rfl
  | cons operation rest ih => exact (ih _).trans (wellFormed_apply rfl operation).capacity_eq

/-- The last operation is the one that counts. -/
theorem wellFormed_of_ne_nil (b : Batch) {operations : List Operation} (some : operations ≠ []) :
    WellFormed b.capacity (b.after operations) := by
  obtain ⟨before, last, rfl⟩ := operations.eq_nil_or_concat.resolve_left some
  unfold after
  rw [List.concat_eq_append, List.foldl_append]
  exact wellFormed_apply (b.capacity_after before) last

theorem lastIndex?_eq_some_iff {i : Nat} : b.lastIndex? = some i ↔ i + 1 = b.len := by
  unfold lastIndex?
  split
  · next empty => exact iff_of_false nofun (by omega)
  · next some =>
      rw [Option.some.injEq]
      omega

theorem lastIndex?_eq_none_iff : b.lastIndex? = none ↔ b.isEmpty = true := by
  unfold lastIndex? isEmpty
  rw [beq_iff_eq]
  split
  · next empty => exact iff_of_true rfl empty
  · next some => exact iff_of_false nofun some

/-- Filling depends on the size of the buffer only. -/
theorem fill_congr (same : b.capacity = other.capacity) (goal : Goal) (start : Nat) :
    b.fill goal start = other.fill goal start := by
  unfold fill
  rw [same]

/-- What filling does with a range, on a buffer of some capacity. -/
structure FilledFrom (goal : Goal) (start capacity : Nat) (filled : Batch)
    (result : Except Fault Nat) : Prop where
  entries_eq : filled.entries = (List.range filled.len).map fun n =>
    goal.entryAt (goal.place start n)
  reached : ∀ address, result = .ok address →
    address = goal.place start filled.len ∧ (filled.len = capacity ∨ goal.stop ≤ address)
  broken_iff : (∃ limit, result = .error limit) ↔
    ∃ n < capacity, goal.AtEdge (goal.place start n)
  stored : ∀ n < capacity, goal.AtEdge (goal.place start n) →
    result = .error .wordOverflow ∧ filled.len = n + 1 ∧
      filled.entries.getLast? = some (goal.entryAt (goal.place start n)) ∧
      goal.sizeAt (goal.place start n) = .small

theorem filledFrom (b : Batch) {goal : Goal} (words : goal.stop < wordLimit) (start : Nat) :
    FilledFrom goal start b.capacity (b.fill goal start).1 (b.fill goal start).2 where
  entries_eq := by
    rw [entries_fill]
    exact goal.walk_fst _ _
  reached := by
    intro address ended
    rw [fill_snd] at ended
    exact ⟨Goal.eq_place_of_walk ended, Goal.length_of_walk (Prod.ext rfl ended)⟩
  broken_iff := Goal.exists_error_iff words
  stored := by
    intro n enough edge
    obtain ⟨length, stopped⟩ := Goal.walk_of_place words enough edge
    refine ⟨stopped, length, ?_, edge.sizeAt_eq words⟩
    rw [entries_fill, Goal.walk_fst, length, List.range_succ, List.map_append]
    exact List.getLast?_concat

/-- **One buffer, again and again.**  Take any buffer and any operations on the batch over it,
some of them perhaps broken off.  The batch has the capacity of the buffer and no more entries
than that; its entries are the first slots; its last index is that of the last entry, and there
is none just when the batch is empty.  After an operation all other slots are zero.

Let the batch then be filled for a range that words can bound.  What comes of it is what comes
of it on any batch of that capacity.  Filling is broken off just when the walk comes to an
address at the edge of the words and there is a slot left.  The entry for that address, a 4KiB
page, is then stored and counted.  No 2MiB page of the range ends beyond the words. -/
theorem wellFormed_after (storage : List Entry) (operations : List Operation) :
    let b := (ofBuffer storage).after operations
    b.capacity = storage.length ∧ b.len ≤ b.capacity ∧
    b.entries = b.storage.take b.len ∧ b.entries.length = b.len ∧
    (∀ i, b.lastIndex? = some i ↔ i + 1 = b.len) ∧
    (b.lastIndex? = none ↔ b.isEmpty = true) ∧
    (operations ≠ [] →
      b.storage.drop b.len = List.replicate (storage.length - b.len) .zero) ∧
    ∀ (goal : Goal) (start : Nat),
      (∀ other : Batch, other.capacity = storage.length →
        other.fill goal start = b.fill goal start) ∧
      (goal.stop < wordLimit →
        FilledFrom goal start storage.length (b.fill goal start).1 (b.fill goal start).2 ∧
        ∀ address < goal.stop, goal.sizeAt address = .large →
          address + 0x200000 < wordLimit) := by
  intro b
  have full : b.capacity = storage.length := capacity_after _ _
  refine ⟨full, b.len_le, rfl, List.length_take_of_le b.len_le, fun i => lastIndex?_eq_some_iff,
    lastIndex?_eq_none_iff, ?_, ?_⟩
  · intro some
    exact (wellFormed_of_ne_nil (ofBuffer storage) some).cleared
  · intro goal start
    refine ⟨fun other same => fill_congr (same.trans full.symm) goal start, ?_⟩
    intro words
    refine ⟨full ▸ b.filledFrom words start, ?_⟩
    intro address more large
    exact Nat.lt_of_le_of_lt (Goal.add_large_le more large) words

/-- A range that ends in the last page of the words. -/
def toTheEdge : Goal where
  stop := 0xffffffffffffffff
  assignment := .guestOnly
  useLarge := true

/-- Filling breaks off at the second of three slots.  The third is cleared nevertheless, and
the batch can be filled again as if nothing had happened. -/
theorem wellFormed_after_toTheEdge :
    let start := 0xffffffffffffe000
    let b := usedSlots.apply (.fill toTheEdge start)
    (usedSlots.fill toTheEdge start).2 = .error .wordOverflow ∧ b.len = 2 ∧
      b.storage.drop b.len = [.zero] ∧
      b.fill threeBlocks 0x1ff000 = usedSlots.fill threeBlocks 0x1ff000 := by
  intro start b
  have again : b = (ofBuffer usedSlots.storage).after [.fill toTheEdge start] := rfl
  obtain ⟨-, -, -, -, -, -, cleared, fills⟩ :=
    wellFormed_after usedSlots.storage [.fill toTheEdge start]
  obtain ⟨same, broken⟩ := fills toTheEdge start
  obtain ⟨filled, -⟩ := broken (by decide)
  have edge : toTheEdge.AtEdge (toTheEdge.place start 1) := ⟨by decide, by decide⟩
  obtain ⟨result, len, -⟩ := filled.stored 1 (by decide) edge
  have outcome := same usedSlots rfl
  have two : b.len = 2 := (congrArg (fun outcome => outcome.1.len) outcome).trans len
  have other := (fills threeBlocks 0x1ff000).1 usedSlots rfl
  refine ⟨(congrArg Prod.snd outcome).trans result, two, ?_, other.symm⟩
  have cleared' := cleared nofun
  rw [← again, two] at cleared'
  rw [two]
  exact cleared'

end Batch

end SnpMemory

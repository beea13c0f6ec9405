/-
# `SnpMemory.Batch` — entries for a range of memory, in a buffer of fixed size

A batch keeps its entries at the front of a buffer that a caller provides.
`fill` replaces them by entries for as much of a range as the buffer holds: it
walks from the start of the range, takes a 2MiB page wherever one is wanted,
aligned and inside the range, and a 4KiB page everywhere else.

The walk itself is `walk`, a function of the range and of the room in the
buffer; the lemmas say what it places and where it ends.
-/
import SnpMemory.Entry
import SnpMemory.Error

namespace SnpMemory

/-! ## The walk over a range -/

/-- What is asked of the pages in a range, and where the range ends. -/
structure Goal where
  /-- Exclusive upper bound of the range; it may be the end of memory itself. -/
  stop : Nat
  assignment : Assignment
  useLarge : Bool
deriving DecidableEq

namespace Goal

/-- The size of the page to take at an address. -/
def sizeAt (goal : Goal) (address : Nat) : PageSize :=
  if goal.useLarge ∧ address % PageSize.large.bytes = 0
      ∧ PageSize.large.bytes ≤ goal.stop - address then
    .large
  else .small

def entryAt (goal : Goal) (address : Nat) : Entry :=
  .ofPage (.truncate address) (goal.sizeAt address) goal.assignment

/-- Places entries from `address` on until `room` entries are placed or the range
ends.  The second part is the address after the last entry; an entry whose end no
64-bit word can hold is still placed. -/
def walk (goal : Goal) : (room : Nat) → (address : Nat) → List Entry × Except Fault Nat
  | 0, address => ([], .ok address)
  | room + 1, address =>
    if address < goal.stop then
      match addWord address (goal.sizeAt address).bytes with
      | .error fault => ([goal.entryAt address], .error fault)
      | .ok next =>
        let (entries, reached) := goal.walk room next
        (goal.entryAt address :: entries, reached)
    else ([], .ok address)

theorem length_walk_le (goal : Goal) (room address : Nat) :
    (goal.walk room address).1.length ≤ room := by
  induction room generalizing address with
  | zero => simp [walk]
  | succ room ih =>
    unfold walk
    split
    · split
      · simp
      · next next _ => simpa using ih next
    · simp

theorem walk_of_le {goal : Goal} {room address : Nat} (h : goal.stop ≤ address) :
    goal.walk room address = ([], .ok address) := by
  cases room with
  | zero => rfl
  | succ room => simp [walk, Nat.not_lt.2 h]

theorem le_of_walk {goal : Goal} {room address next : Nat}
    (h : (goal.walk room address).2 = .ok next) : address ≤ next := by
  induction room generalizing address with
  | zero => simp only [walk, Except.ok.injEq] at h; omega
  | succ room ih =>
    unfold walk at h
    split at h
    · split at h
      · simp at h
      · next sum hsum =>
        have := ih h
        unfold addWord at hsum
        split at hsum <;> simp only [reduceCtorEq, Except.ok.injEq] at hsum
        omega
    · simp only [Except.ok.injEq] at h; omega

/-- With room for an entry, the walk moves on as long as the range lasts. -/
theorem lt_of_walk {goal : Goal} {room address next : Nat} (hroom : 0 < room)
    (hstop : address < goal.stop) (h : (goal.walk room address).2 = .ok next) :
    address < next := by
  obtain ⟨room, rfl⟩ := Nat.exists_eq_succ_of_ne_zero (Nat.ne_of_gt hroom)
  simp only [walk, hstop, if_true] at h
  split at h
  · simp at h
  · next sum hsum =>
    have := le_of_walk h
    have := (goal.sizeAt address).bytes_pos
    unfold addWord at hsum
    split at hsum <;> simp only [reduceCtorEq, Except.ok.injEq] at hsum
    omega

end Goal

/-! ## Batches -/

/-- A buffer whose first `len` slots are in use. -/
structure Batch where
  storage : List Entry
  len : Nat
  len_le : len ≤ storage.length

namespace Batch

/-- An empty batch over a buffer, whatever the buffer holds. -/
def ofBuffer (storage : List Entry) : Batch := ⟨storage, 0, Nat.zero_le _⟩

def capacity (b : Batch) : Nat := b.storage.length

def isEmpty (b : Batch) : Bool := b.len == 0

def lastIndex? (b : Batch) : Option Nat := if b.len = 0 then none else some (b.len - 1)

def entries (b : Batch) : List Entry := b.storage.take b.len

/-- The batch of a capacity with the given entries at its front and zeros behind. -/
def ofEntries (capacity : Nat) (entries : List Entry) : Batch where
  storage := entries ++ List.replicate (capacity - entries.length) .zero
  len := entries.length
  len_le := by simp

/-- Drops all entries and clears the buffer. -/
def reset (b : Batch) : Batch := ofEntries b.capacity []

/-- Replaces the entries by those for the range from `start` on, as far as they fit,
and returns the address after the last of them. -/
def fill (b : Batch) (goal : Goal) (start : Nat) : Batch × Except Fault Nat :=
  let (entries, reached) := goal.walk b.capacity start
  (ofEntries b.capacity entries, reached)

@[simp] theorem entries_ofEntries (capacity : Nat) (entries : List Entry) :
    (ofEntries capacity entries).entries = entries := by
  simp [ofEntries, Batch.entries]

theorem capacity_ofEntries {capacity : Nat} {entries : List Entry}
    (h : entries.length ≤ capacity) : (ofEntries capacity entries).capacity = capacity := by
  simp [ofEntries, Batch.capacity]
  omega

@[simp] theorem capacity_reset (b : Batch) : b.reset.capacity = b.capacity :=
  capacity_ofEntries (Nat.zero_le _)

@[simp] theorem capacity_fill (b : Batch) (goal : Goal) (start : Nat) :
    (b.fill goal start).1.capacity = b.capacity :=
  capacity_ofEntries (goal.length_walk_le _ _)

theorem capacity_of_fill {b b' : Batch} {goal : Goal} {start : Nat} {reached : Except Fault Nat}
    (h : b.fill goal start = (b', reached)) : b'.capacity = b.capacity := by
  have := b.capacity_fill goal start
  rwa [h] at this

@[simp] theorem entries_fill (b : Batch) (goal : Goal) (start : Nat) :
    (b.fill goal start).1.entries = (goal.walk b.capacity start).1 :=
  entries_ofEntries _ _

theorem fill_snd (b : Batch) (goal : Goal) (start : Nat) :
    (b.fill goal start).2 = (goal.walk b.capacity start).2 := rfl

end Batch

end SnpMemory

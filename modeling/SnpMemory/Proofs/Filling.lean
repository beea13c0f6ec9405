/-
# `SnpMemory.Proofs.Filling` — what is put in a buffer, and how far it gets

Filling a buffer for a range places entries that lie end to end from the start of the
range on, each the one that is wanted at its place, until the buffer is full or the range
ends (`paves_fill`).  What is left of the buffer is cleared, whatever it held before.

The walk is greedy: it takes a 2MiB page wherever it may.  Nobody gets further with as
many entries (`fill_furthest`).  Let any other entries lie end to end from the same start,
with 2MiB pages at multiples of 2MiB only, and put them beside the walk, entry by entry.
The walk is never behind.  It could fall behind only where the others take a 2MiB block
that begins behind the place of the walk and ends beyond it, and no such block exists.
The walk has come past the place where the block begins, since neither a 4KiB page nor a
2MiB page jumps over a multiple of 2MiB, and there it has taken the whole block itself:

    start ... block ........... block + 2MiB ... stop
                |  never here  |                          (`Clear`)
-/
import SnpMemory.Proofs.Tiling

namespace SnpMemory

namespace Goal

variable {goal : Goal} {address start reached room : Nat} {entries : List Entry}

/-! ## What a walk places -/

theorem paves_of_walk (memory : goal.InMemory) (aligned : 0x1000 ∣ address)
    (walked : goal.walk room address = (entries, .ok reached)) :
    Paves address entries reached ∧ ∀ e ∈ entries, goal.Fits e.address.val e := by
  induction room generalizing address entries with
  | zero =>
      cases walked
      exact ⟨.done _, List.forall_mem_nil _⟩
  | succ room ih =>
      rcases walk_succ_cases walked with ⟨more, rest, rfl, later⟩ | ⟨-, rfl, rfl⟩
      · have fits : goal.Fits address (goal.entryAt address) :=
          fits_entryAt aligned (Nat.lt_of_lt_of_le more memory.within)
        obtain ⟨paves, others⟩ := ih (Nat.dvd_add aligned (dvd_bytes _)) later
        rw [← size_entryAt] at paves
        refine ⟨.next fits.address_eq fits.dvd_address paves,
          List.forall_mem_cons.mpr ⟨?_, others⟩⟩
        rw [fits.address_eq]
        exact fits
      · exact ⟨.done _, List.forall_mem_nil _⟩

/-! ## No walk gets further -/

/-- No 2MiB block of the range, from the start on, has the address strictly inside. -/
def Clear (goal : Goal) (start address : Nat) : Prop :=
  ∀ block, 0x200000 ∣ block → start ≤ block → block + 0x200000 ≤ goal.stop →
    address ≤ block ∨ block + 0x200000 ≤ address

theorem clear_start (goal : Goal) (start : Nat) : goal.Clear start start :=
  fun _ _ fromStart _ => .inl fromStart

/-- Where a block of the range begins, the walk takes all of it. -/
theorem sizeAt_of_block (useLarge : goal.useLarge = true) (multiple : 0x200000 ∣ address)
    (inside : address + 0x200000 ≤ goal.stop) : goal.sizeAt address = .large :=
  sizeAt_eq_large_iff.mpr ⟨useLarge, multiple, Nat.le_sub_of_add_le' inside⟩

/-- The next place of the walk is in no block either. -/
theorem Clear.next (clear : goal.Clear start address) (useLarge : goal.useLarge = true)
    (aligned : 0x1000 ∣ address) : goal.Clear start (address + (goal.sizeAt address).bytes) := by
  intro block multiple fromStart inside
  cases size : goal.sizeAt address with
  | small =>
      show address + 0x1000 ≤ block ∨ block + 0x200000 ≤ address + 0x1000
      have other : address ≠ block := by
        rintro rfl
        cases size.symm.trans (sizeAt_of_block useLarge multiple inside)
      rcases clear block multiple fromStart inside with before | behind
      · left
        omega
      · right
        exact Nat.le_trans behind (Nat.le_add_right _ _)
  | large =>
      obtain ⟨-, multiple', -⟩ := sizeAt_eq_large_iff.mp size
      show address + 0x200000 ≤ block ∨ block + 0x200000 ≤ address + 0x200000
      omega

/-- A page that begins where the walk is, or behind it, ends at the next place of the walk
or behind it. -/
theorem Clear.add_bytes_le (clear : goal.Clear start address) (useLarge : goal.useLarge = true)
    {place : Nat} {size : PageSize} (multiple : size.bytes ∣ place) (fromStart : start ≤ place)
    (behind : place ≤ address) (inside : place + size.bytes ≤ goal.stop) :
    place + size.bytes ≤ address + (goal.sizeAt address).bytes := by
  cases size with
  | small =>
      have page : 0x1000 ≤ (goal.sizeAt address).bytes :=
        Nat.le_of_dvd (PageSize.bytes_pos _) (dvd_bytes _)
      exact Nat.add_le_add behind page
  | large =>
      rcases clear place multiple fromStart inside with before | passed
      · obtain rfl : place = address := Nat.le_antisymm behind before
        exact Nat.le_of_eq (by rw [sizeAt_of_block useLarge multiple inside])
      · exact Nat.le_trans passed (Nat.le_add_right _ _)

/-- The induction is on the other entries; the walk is at or beyond the place of the first of
them, and has room for as many. -/
theorem le_reached_of_paves (useLarge : goal.useLarge = true) {place far : Nat}
    {others : List Entry} (paves : Paves place others far) (inside : far ≤ goal.stop)
    (few : others.length ≤ room) (fromStart : start ≤ place) (behind : place ≤ address)
    (aligned : 0x1000 ∣ address) (clear : goal.Clear start address)
    (walked : goal.walk room address = (entries, .ok reached)) : far ≤ reached := by
  induction paves generalizing room address entries with
  | done place =>
      have onward := le_of_walk (congrArg Prod.snd walked)
      exact Nat.le_trans behind onward
  | @next place far e rest _ multiple tail ih =>
      obtain ⟨room, rfl⟩ : ∃ room', room = room' + 1 :=
        Nat.exists_eq_succ_of_ne_zero (Nat.ne_of_gt (Nat.lt_of_lt_of_le (Nat.succ_pos _) few))
      rcases walk_succ_cases walked with ⟨-, later, rfl, walked'⟩ | ⟨ended, -, rfl⟩
      · have ahead : place + e.size.bytes ≤ address + (goal.sizeAt address).bytes :=
          clear.add_bytes_le useLarge multiple fromStart behind
            (Nat.le_trans tail.le_reached inside)
        exact ih inside (Nat.le_of_succ_le_succ few)
          (Nat.le_trans fromStart (Nat.le_add_right _ _)) ahead
          (Nat.dvd_add aligned (dvd_bytes _)) (clear.next useLarge aligned) walked'
      · exact Nat.le_trans inside ended

/-- Entries that pave the whole range are at least as many as those of its tiling. -/
theorem length_tiling_le (memory : goal.InMemory) (useLarge : goal.useLarge = true)
    (aligned : 0x1000 ∣ start) {others : List Entry} (paves : Paves start others goal.stop) :
    (goal.tiling start).length ≤ others.length := by
  obtain ⟨entries, reached, walked⟩ := exists_walk_eq memory others.length start
  have all : goal.stop ≤ reached :=
    le_reached_of_paves useLarge paves (Nat.le_refl _) (Nat.le_refl _) (Nat.le_refl _)
      (Nat.le_refl _) aligned (goal.clear_start start) walked
  have few : entries.length ≤ others.length := by
    have := goal.length_walk_le others.length start
    rwa [walked] at this
  rwa [tiling_eq_append walked, tiling_of_le all, List.append_nil]

end Goal

/-! ## Filling a buffer -/

namespace Batch

theorem fill_of_walk {b : Batch} {goal : Goal} {start reached : Nat} {entries : List Entry}
    (walked : goal.walk b.capacity start = (entries, .ok reached)) :
    b.fill goal start = (ofEntries b.capacity entries, .ok reached) := by
  unfold fill
  rw [walked]

theorem drop_ofEntries (capacity : Nat) (entries : List Entry) :
    (ofEntries capacity entries).storage.drop (ofEntries capacity entries).len =
      List.replicate (capacity - entries.length) .zero :=
  List.drop_left

/-- **What filling a buffer does.**  Take a buffer of any size, with anything in it, and a
range of memory from one page to another.  Filling ends at an address of the range.  The
entries that it places lie end to end from the start of the range to that address, so each
page in between is covered once and no other page is.  Each entry is the one that is wanted
at its place: it asks for the assignment, and is large just where a large one is wanted, is
aligned and has room.  Filling goes on until the range ends or the buffer is full, and the
slots behind the entries are cleared. -/
theorem paves_fill (b : Batch) {goal : Goal} {start : Nat} (memory : goal.InMemory)
    (aligned : 0x1000 ∣ start) (inside : start ≤ goal.stop) :
    let filled := (b.fill goal start).1
    ∃ reached, (b.fill goal start).2 = .ok reached ∧ start ≤ reached ∧ reached ≤ goal.stop ∧
      Paves start filled.entries reached ∧
      (∀ page, filled.entries.countP (fun e => e.block.Covers page) =
        if start ≤ page * 0x1000 ∧ page * 0x1000 < reached then 1 else 0) ∧
      (∀ e ∈ filled.entries, goal.Fits e.address.val e) ∧
      (reached = goal.stop ∨ filled.len = b.capacity) ∧
      filled.storage.drop filled.len = List.replicate (b.capacity - filled.len) .zero := by
  intro filled
  obtain ⟨entries, reached, walked⟩ := Goal.exists_walk_eq memory b.capacity start
  have same : b.fill goal start = (ofEntries b.capacity entries, .ok reached) :=
    fill_of_walk walked
  have placed : filled = ofEntries b.capacity entries := congrArg Prod.fst same
  obtain ⟨paves, fits⟩ := Goal.paves_of_walk memory aligned walked
  obtain ⟨within, -⟩ := Goal.le_stop_of_walk memory aligned inside walked
  rw [placed, entries_ofEntries]
  refine ⟨reached, congrArg Prod.snd same, paves.le_reached, within, paves, paves.countP_covers,
    fits, ?_, drop_ofEntries b.capacity entries⟩
  rcases Goal.length_of_walk walked with full | ended
  · exact .inr full
  · exact .inl (Nat.le_antisymm within ended)

/-- A range that ends where memory ends. -/
def toTheEnd : Goal where
  stop := physicalLimit
  assignment := .shared
  useLarge := true

/-- Three slots, of which two are in use. -/
def usedSlots : Batch := ⟨[⟨7⟩, .zero, ⟨7⟩], 2, by decide⟩

/-- The slots are filled for the last pages of memory, from one page before the last 2MiB
block on. -/
theorem paves_fill_lastPages :
    let filled := (usedSlots.fill toTheEnd 0xfffffffdff000).1
    filled.entries.map Entry.block =
        [⟨⟨0xfffffffdff000, by decide⟩, .small⟩, ⟨⟨0xfffffffe00000, by decide⟩, .large⟩] ∧
      Paves 0xfffffffdff000 filled.entries physicalLimit ∧
      filled.storage.drop filled.len = [.zero] := by
  intro filled
  have memory : toTheEnd.InMemory := ⟨by decide, Nat.le_refl _⟩
  have start : 0x1000 ∣ 0xfffffffdff000 := by decide
  obtain ⟨reached, returned, -, -, paves, -, -, -, cleared⟩ :=
    paves_fill usedSlots memory start (by decide)
  have last : (usedSlots.fill toTheEnd 0xfffffffdff000).2 = .ok physicalLimit := rfl
  cases last.symm.trans returned
  exact ⟨by decide, paves, cleared⟩

/-- **Nobody gets further.**  Let a buffer be filled for a range of memory in which 2MiB
pages are wanted.  Take any other entries that lie end to end from the start of the range,
in the range, with 4KiB pages at multiples of 4KiB and 2MiB pages at multiples of 2MiB.
If the buffer has a slot for each of them, they reach no further than what was placed in
it, which are such entries as well.  And if filling has come to the end of the range, no
fewer entries cover the range. -/
theorem fill_furthest (b : Batch) {goal : Goal} {start : Nat} (memory : goal.InMemory)
    (useLarge : goal.useLarge = true) (aligned : 0x1000 ∣ start) (inside : start ≤ goal.stop) :
    let filled := (b.fill goal start).1
    ∃ reached, (b.fill goal start).2 = .ok reached ∧ reached ≤ goal.stop ∧
      Paves start filled.entries reached ∧
      (∀ others far, Paves start others far → far ≤ goal.stop → others.length ≤ b.capacity →
        far ≤ reached) ∧
      (reached = goal.stop →
        ∀ others, Paves start others goal.stop → filled.len ≤ others.length) := by
  intro filled
  obtain ⟨entries, reached, walked⟩ := Goal.exists_walk_eq memory b.capacity start
  have same : b.fill goal start = (ofEntries b.capacity entries, .ok reached) :=
    fill_of_walk walked
  have placed : filled = ofEntries b.capacity entries := congrArg Prod.fst same
  obtain ⟨paves, -⟩ := Goal.paves_of_walk memory aligned walked
  obtain ⟨within, -⟩ := Goal.le_stop_of_walk memory aligned inside walked
  rw [placed, entries_ofEntries]
  refine ⟨reached, congrArg Prod.snd same, within, paves, ?_, ?_⟩
  · intro others far paves' inside' few
    exact Goal.le_reached_of_paves useLarge paves' inside' few (Nat.le_refl _) (Nat.le_refl _)
      aligned (goal.clear_start start) walked
  · rintro rfl others paves'
    have whole := Goal.length_tiling_le memory useLarge aligned paves'
    rwa [Goal.tiling_eq_append walked, Goal.tiling_of_le (Nat.le_refl _), List.append_nil] at whole

/-- A range that ends behind the third 2MiB block of memory. -/
def threeBlocks : Goal where
  stop := 0x600000
  assignment := .guestOnly
  useLarge := true

/-- Three slots are enough to get from the page before two blocks to the end of the second, and
fewer are not. -/
theorem fill_furthest_threeSlots :
    (usedSlots.fill threeBlocks 0x1ff000).2 = .ok 0x600000 ∧
      ∀ others, Paves 0x1ff000 others 0x600000 → 3 ≤ others.length := by
  have memory : threeBlocks.InMemory := ⟨by decide, by decide⟩
  have start : 0x1000 ∣ 0x1ff000 := by decide
  obtain ⟨reached, returned, -, -, -, fewest⟩ :=
    fill_furthest usedSlots memory rfl start (by decide)
  have last : (usedSlots.fill threeBlocks 0x1ff000).2 = .ok 0x600000 := rfl
  cases last.symm.trans returned
  exact ⟨last, fewest rfl⟩

end Batch

end SnpMemory

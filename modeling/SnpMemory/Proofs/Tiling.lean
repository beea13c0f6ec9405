/-
# `SnpMemory.Proofs.Tiling` — a range of memory and the entries that make it up

Memory is spoken of in 4KiB pages here, each named by its number: page `n` begins
at the address `0x1000 * n`.  A block is what one entry or one PVALIDATE call is
about, and covers one page or 512 (`Block.Covers`).

Entries that lie end to end, each at a multiple of its size, pave what is between
the first address and the last (`Paves`): each page there is covered once and no
other page is (`Paves.countP_covers`).

`Goal.Tiles` says what the entries for a range have to be, without saying how
they are found: each begins where the one before it ends, asks for the right
assignment, is large exactly where a large one is wanted, and the last ends where
the range ends.  `Goal.tiling` finds them all at once, and the walk that fills a
buffer is a piece of it at a time:

    walk room a = (es, ok b)   ⟹   tiling a = es ++ tiling b     (`tiling_eq_append`)

Proved of them: the tiling tiles the range (`tiles_tiling`) and so paves it
(`Tiles.paves`), and the walk runs into no limit as long as the range lies in
memory (`exists_walk_eq`).  It ends because there is no more room or because the
range ends (`length_of_walk`), so it places the first entries of the tiling, as
many as there is room for (`walk_eq_take`).
-/
import SnpMemory.Change

namespace SnpMemory

/-! ## Blocks and pages -/

/-- A block of memory. -/
structure Block where
  address : PhysAddr
  size : PageSize
deriving DecidableEq

/-- Whether the 4KiB page with this number begins in the block. -/
def Block.Covers (b : Block) (page : Nat) : Prop :=
  b.address.val ≤ page * 0x1000 ∧ page * 0x1000 < b.address.val + b.size.bytes

instance (b : Block) (page : Nat) : Decidable (b.Covers page) :=
  inferInstanceAs (Decidable (_ ∧ _))

/-- The block that an entry is about. -/
def Entry.block (e : Entry) : Block := ⟨e.address, e.size⟩

theorem Entry.dvd_address (e : Entry) : 0x1000 ∣ e.address.val := Nat.dvd_mul_left _ _

/-- Whether the page belongs to the range of an order. -/
def Change.Order.Spans (order : Change.Order) (page : Nat) : Prop :=
  order.start.start.val ≤ page * 0x1000 ∧ page * 0x1000 < order.stop

instance (order : Change.Order) (page : Nat) : Decidable (order.Spans page) :=
  inferInstanceAs (Decidable (_ ∧ _))

/-! ## Entries end to end -/

/-- The entries lie end to end, from one address to another, each at a multiple of its size. -/
inductive Paves : Nat → List Entry → Nat → Prop
  | done (address : Nat) : Paves address [] address
  | next {address reached : Nat} {e : Entry} {rest : List Entry} :
      e.address.val = address → e.size.bytes ∣ address →
      Paves (address + e.size.bytes) rest reached → Paves address (e :: rest) reached

namespace Paves

variable {address reached : Nat} {entries : List Entry}

theorem le_reached (h : Paves address entries reached) : address ≤ reached := by
  induction h with
  | done => exact Nat.le_refl _
  | next _ _ _ ih => exact Nat.le_trans (Nat.le_add_right _ _) ih

/-- A page is covered by one of the entries if it begins between the two addresses, else by
none. -/
theorem countP_covers (h : Paves address entries reached) (page : Nat) :
    entries.countP (fun e => e.block.Covers page) =
      if address ≤ page * 0x1000 ∧ page * 0x1000 < reached then 1 else 0 := by
  induction h with
  | done => rw [List.countP_nil, if_neg (by omega)]
  | @next address reached e rest place _ tail ih =>
      have positive := e.size.bytes_pos
      have inside := tail.le_reached
      rw [List.countP_cons, ih]
      simp only [Block.Covers, Entry.block, place, decide_eq_true_eq]
      split <;> split <;> split <;> omega

end Paves

namespace Goal

/-! ## What the entries for a range are -/

/-- The entry is the one that a goal wants at an address. -/
structure Fits (goal : Goal) (address : Nat) (e : Entry) : Prop where
  address_eq : e.address.val = address
  assignment_eq : e.assignment? = some goal.assignment
  currentPage_eq : e.currentPage = 0
  reserved_eq : e.reserved = 0
  large_iff : e.size = .large ↔
    goal.useLarge = true ∧ 0x200000 ∣ address ∧ 0x200000 ≤ goal.stop - address

/-- The entries cover the range from an address on, one after the other, without a gap
and without an overlap, and none is longer or shorter than it should be. -/
inductive Tiles (goal : Goal) : Nat → List Entry → Prop
  | stop : Tiles goal goal.stop []
  | next {address : Nat} {e : Entry} {rest : List Entry} :
      goal.Fits address e → Tiles goal (address + e.size.bytes) rest →
      Tiles goal address (e :: rest)

/-- All entries for the range from an address on. -/
def tiling (goal : Goal) (address : Nat) : List Entry :=
  if address < goal.stop then
    goal.entryAt address :: goal.tiling (address + (goal.sizeAt address).bytes)
  else []
termination_by goal.stop - address
decreasing_by
  have := (goal.sizeAt address).bytes_pos
  omega

/-- The range ends at a page, and in memory. -/
structure InMemory (goal : Goal) : Prop where
  aligned : 0x1000 ∣ goal.stop
  within : goal.stop ≤ physicalLimit

variable {goal : Goal} {address : Nat}

theorem tiling_of_lt (h : address < goal.stop) :
    goal.tiling address =
      goal.entryAt address :: goal.tiling (address + (goal.sizeAt address).bytes) := by
  rw [tiling, if_pos h]

theorem tiling_of_le (h : goal.stop ≤ address) : goal.tiling address = [] := by
  rw [tiling, if_neg (Nat.not_lt.mpr h)]

theorem size_entryAt : (goal.entryAt address).size = goal.sizeAt address :=
  Entry.size_ofPage _ _ _

theorem sizeAt_eq_large_iff :
    goal.sizeAt address = .large ↔
      goal.useLarge = true ∧ 0x200000 ∣ address ∧ 0x200000 ≤ goal.stop - address := by
  unfold sizeAt
  rw [Nat.dvd_iff_mod_eq_zero]
  split
  · next h => exact ⟨fun _ => h, fun _ => rfl⟩
  · next h => exact ⟨fun same => absurd same (by decide), fun h' => absurd h' h⟩

theorem fits_entryAt (aligned : 0x1000 ∣ address) (within : address < physicalLimit) :
    goal.Fits address (goal.entryAt address) where
  address_eq := by
    show (Entry.ofPage _ _ _).address.val = address
    rw [Entry.address_ofPage, PhysAddr.truncate_val within]
    exact Nat.div_mul_cancel aligned
  assignment_eq := Entry.assignment?_ofPage _ _ _
  currentPage_eq := Entry.currentPage_ofPage _ _ _
  reserved_eq := Entry.reserved_ofPage _ _ _
  large_iff := by rw [size_entryAt, sizeAt_eq_large_iff]

theorem dvd_bytes (size : PageSize) : 0x1000 ∣ size.bytes := by
  cases size <;> decide

/-- A page that begins in the range ends in it. -/
theorem add_bytes_le (ends : 0x1000 ∣ goal.stop) (aligned : 0x1000 ∣ address)
    (h : address < goal.stop) : address + (goal.sizeAt address).bytes ≤ goal.stop := by
  cases size : goal.sizeAt address with
  | small =>
      show address + 0x1000 ≤ goal.stop
      omega
  | large =>
      obtain ⟨-, -, room⟩ := sizeAt_eq_large_iff.mp size
      show address + 0x200000 ≤ goal.stop
      omega

theorem tiles_tiling (memory : goal.InMemory) (aligned : 0x1000 ∣ address)
    (inside : address ≤ goal.stop) : goal.Tiles address (goal.tiling address) := by
  induction address using tiling.induct goal with
  | case1 address h ih =>
      have next := add_bytes_le memory.aligned aligned h
      rw [tiling_of_lt h]
      refine .next (fits_entryAt aligned (Nat.lt_of_lt_of_le h memory.within)) ?_
      rw [size_entryAt]
      exact ih (Nat.dvd_add aligned (dvd_bytes _)) next
  | case2 address h =>
      obtain rfl : address = goal.stop := by omega
      rw [tiling_of_le (Nat.le_refl _)]
      exact .stop

/-! ## What a tiling covers -/

theorem Fits.dvd_address {e : Entry} (fits : goal.Fits address e) : e.size.bytes ∣ address := by
  cases size : e.size with
  | small =>
      rw [← fits.address_eq]
      exact e.dvd_address
  | large => exact (fits.large_iff.mp size).2.1

theorem Tiles.paves {entries : List Entry} (h : goal.Tiles address entries) :
    Paves address entries goal.stop := by
  induction h with
  | stop => exact .done _
  | next fits _ ih => exact .next fits.address_eq fits.dvd_address ih

theorem Tiles.le_stop {entries : List Entry} (h : goal.Tiles address entries) :
    address ≤ goal.stop :=
  h.paves.le_reached

/-- Every entry of a tiling is the one for its place, and its place is in the range. -/
theorem Tiles.exists_fits {entries : List Entry} (h : goal.Tiles address entries) {e : Entry}
    (mem : e ∈ entries) :
    ∃ place, goal.Fits place e ∧ address ≤ place ∧ place + e.size.bytes ≤ goal.stop := by
  induction h with
  | stop => exact absurd mem List.not_mem_nil
  | @next address e' rest fits tail ih =>
      rcases List.mem_cons.mp mem with rfl | later
      · exact ⟨address, fits, Nat.le_refl _, tail.le_stop⟩
      · obtain ⟨place, fits', low, high⟩ := ih later
        exact ⟨place, fits', by omega, high⟩

/-- A page is covered by one entry of the tiling if it belongs to the range, else by none. -/
theorem Tiles.countP_covers {entries : List Entry} (h : goal.Tiles address entries)
    (page : Nat) :
    entries.countP (fun e => e.block.Covers page) =
      if address ≤ page * 0x1000 ∧ page * 0x1000 < goal.stop then 1 else 0 :=
  h.paves.countP_covers page

/-! ## The walk as a piece of the tiling -/

variable {room next : Nat} {entries : List Entry}

/-- With room for one more entry, a walk places it and goes on behind it, or finds that the
range has ended. -/
theorem walk_succ_cases
    (h : goal.walk (room + 1) address = (entries, .ok next)) :
    (address < goal.stop ∧ ∃ rest, entries = goal.entryAt address :: rest ∧
        goal.walk room (address + (goal.sizeAt address).bytes) = (rest, .ok next)) ∨
      goal.stop ≤ address ∧ entries = [] ∧ next = address := by
  by_cases more : address < goal.stop
  · rw [walk, if_pos more] at h
    unfold addWord at h
    split at h
    · cases h
    · next sum placed =>
        split at placed
        · cases placed
          obtain ⟨rfl, reached⟩ := Prod.mk.inj h
          exact .inl ⟨more, _, rfl, Prod.ext rfl reached⟩
        · cases placed
  · rw [walk_of_le (Nat.not_lt.mp more)] at h
    cases h
    exact .inr ⟨Nat.not_lt.mp more, rfl, rfl⟩

theorem tiling_eq_append (h : goal.walk room address = (entries, .ok next)) :
    goal.tiling address = entries ++ goal.tiling next := by
  induction room generalizing address entries with
  | zero =>
      cases h
      rfl
  | succ room ih =>
      rcases walk_succ_cases h with ⟨more, rest, rfl, later⟩ | ⟨-, rfl, rfl⟩
      · rw [tiling_of_lt more, ih later, List.cons_append]
      · rfl

/-- A walk ends because there is no more room, or because the range ends. -/
theorem length_of_walk (h : goal.walk room address = (entries, .ok next)) :
    entries.length = room ∨ goal.stop ≤ next := by
  induction room generalizing address entries with
  | zero =>
      cases h
      exact .inl rfl
  | succ room ih =>
      rcases walk_succ_cases h with ⟨-, rest, rfl, later⟩ | ⟨ended, -, rfl⟩
      · rcases ih later with full | ended
        · exact .inl (congrArg (· + 1) full)
        · exact .inr ended
      · exact .inr ended

/-- What a walk places are the first entries of the tiling, and what it leaves are the
others. -/
theorem walk_eq_take (h : goal.walk room address = (entries, .ok next)) :
    entries = (goal.tiling address).take room ∧
      goal.tiling next = (goal.tiling address).drop room := by
  have whole := tiling_eq_append h
  rcases length_of_walk h with full | ended
  · rw [whole, ← full]
    exact ⟨List.take_left.symm, List.drop_left.symm⟩
  · have few : entries.length ≤ room := by
      have := goal.length_walk_le room address
      rwa [h] at this
    rw [tiling_of_le ended, List.append_nil] at whole
    rw [tiling_of_le ended, whole]
    exact ⟨(List.take_of_length_le few).symm, (List.drop_of_length_le few).symm⟩

/-- A walk that begins in the range does not leave it, and ends at a page. -/
theorem le_stop_of_walk (memory : goal.InMemory) (aligned : 0x1000 ∣ address)
    (inside : address ≤ goal.stop) (h : goal.walk room address = (entries, .ok next)) :
    next ≤ goal.stop ∧ 0x1000 ∣ next := by
  induction room generalizing address entries with
  | zero =>
      cases h
      exact ⟨inside, aligned⟩
  | succ room ih =>
      rcases walk_succ_cases h with ⟨more, rest, rfl, later⟩ | ⟨-, -, rfl⟩
      · exact ih (Nat.dvd_add aligned (dvd_bytes _))
          (add_bytes_le memory.aligned aligned more) later
      · exact ⟨inside, aligned⟩

/-- In memory no sum of the walk is too large. -/
theorem exists_walk_eq (memory : goal.InMemory) (room address : Nat) :
    ∃ entries next, goal.walk room address = (entries, .ok next) := by
  induction room generalizing address with
  | zero => exact ⟨[], address, rfl⟩
  | succ room ih =>
      by_cases more : address < goal.stop
      · obtain ⟨entries, next, tail⟩ := ih (address + (goal.sizeAt address).bytes)
        have within := memory.within
        have sum : address + (goal.sizeAt address).bytes < wordLimit := by
          unfold physicalLimit at within
          unfold wordLimit
          cases goal.sizeAt address <;> simp only [PageSize.bytes] <;> omega
        refine ⟨goal.entryAt address :: entries, next, ?_⟩
        rw [walk, if_pos more, addWord_of_lt sum]
        simp only [tail]
      · exact ⟨[], address, walk_of_le (Nat.not_lt.mp more)⟩

end Goal

/-- The range of an order that is not refused lies in memory. -/
theorem Change.Order.goal_inMemory {order : Change.Order} (h : order.stop ≤ physicalLimit) :
    order.goal.InMemory where
  aligned := Nat.dvd_add order.start.aligned (Nat.dvd_mul_right _ _)
  within := h

theorem Change.Order.tiles {order : Change.Order} (h : order.stop ≤ physicalLimit) :
    order.goal.Tiles order.start.start.val (order.goal.tiling order.start.start.val) :=
  Goal.tiles_tiling (goal_inMemory h) order.start.aligned (Nat.le_add_right _ _)

end SnpMemory

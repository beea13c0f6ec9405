/-
# `SnpMemory.Proofs.EntryParts` — an entry as the bits of its word

The hypervisor reads the word of an entry as it is, so what counts is where in the word
each field lies.  The fields are the parts of the word:

    part           low   width
    currentPage      0      12
    gfn             12      40
    operation       52       4
    size            56       1
    reserved        57       7

Each field is the number in the bits of its part (`testBit_part`), and each of the 64 bits
is in one part (`Part.exists_holds_iff`).  So a word is known once its parts are
(`eq_of_part_eq`), and its parts can be chosen freely (`part_ofParts`).  It follows that an
entry made for a page reads back as that page, and that an entry that could have been made
for a page is made again from what is read (`encodes_parts`).
-/
import SnpMemory.Entry

namespace SnpMemory.Entry

/-! ## The parts of a word -/

/-- The fields of an entry, as parts of its word. -/
inductive Part where
  | currentPage
  | gfn
  | operation
  | size
  | reserved

namespace Part

/-- The lowest bit of a part. -/
def low : Part → Nat
  | currentPage => 0
  | gfn => 12
  | operation => 52
  | size => 56
  | reserved => 57

/-- How many bits a part has. -/
def width : Part → Nat
  | currentPage => 12
  | gfn => 40
  | operation => 4
  | size => 1
  | reserved => 7

/-- Whether a bit of the word is in a part. -/
def Holds (part : Part) (i : Nat) : Prop := part.low ≤ i ∧ i < part.low + part.width

theorem Holds.unique {part part' : Part} {i : Nat} (h : part.Holds i) (h' : part'.Holds i) :
    part' = part := by
  obtain ⟨low, high⟩ := h
  obtain ⟨low', high'⟩ := h'
  cases part <;> cases part' <;> simp only [Part.low, Part.width] at * <;> omega

/-- Every bit of a word is in one part and in no other. -/
theorem exists_holds_iff {i : Nat} (h : i < 64) :
    ∃ part : Part, ∀ part' : Part, part'.Holds i ↔ part' = part := by
  have some : ∃ part : Part, part.Holds i := by
    by_cases mark : i < 12
    · exact ⟨currentPage, Nat.zero_le i, mark⟩
    by_cases frame : i < 52
    · exact ⟨gfn, Nat.not_lt.mp mark, frame⟩
    by_cases code : i < 56
    · exact ⟨operation, Nat.not_lt.mp frame, code⟩
    by_cases bit : i < 57
    · exact ⟨size, Nat.not_lt.mp code, bit⟩
    · exact ⟨reserved, Nat.not_lt.mp bit, h⟩
  obtain ⟨part, holds⟩ := some
  refine ⟨part, fun part' => ⟨holds.unique, ?_⟩⟩
  rintro rfl
  exact holds

end Part

/-! ## What an entry has in a part -/

/-- The number in a part of an entry, which is the field or its code. -/
def part (e : Entry) : Part → Nat
  | .currentPage => e.currentPage
  | .gfn => e.gfn
  | .operation => e.operation
  | .size => e.size.code
  | .reserved => e.reserved

theorem code_size (e : Entry) : e.size.code = e.raw.toNat / 0x100000000000000 % 2 := by
  rw [Entry.size]
  split <;> simp only [PageSize.code] <;> omega

theorem testBit_raw_of_le (e : Entry) {i : Nat} (h : 64 ≤ i) : e.raw.toNat.testBit i = false := by
  apply Nat.testBit_lt_two_pow
  exact Nat.lt_of_lt_of_le e.raw.toNat_lt (Nat.pow_le_pow_right Nat.two_pos h)

/-- A field is the word from the lowest bit of its part on, cut to its width. -/
theorem part_eq (e : Entry) (part : Part) :
    e.part part = (e.raw.toNat >>> part.low) % (1 <<< part.width) := by
  simp only [Nat.shiftRight_eq_div_pow, Nat.one_shiftLeft]
  cases part with
  | currentPage => simp [Entry.part, currentPage, Part.low, Part.width]
  | gfn => simp [Entry.part, gfn, Part.low, Part.width]
  | operation => simp [Entry.part, operation, Part.low, Part.width]
  | size => simp [Entry.part, code_size, Part.low, Part.width]
  | reserved =>
      -- nothing is above this part, so there is nothing to cut
      have top : e.raw.toNat / 0x200000000000000 < 0x80 := by
        have := e.raw.toNat_lt
        omega
      simp [Entry.part, reserved, Part.low, Part.width, Nat.mod_eq_of_lt top]

theorem part_lt (e : Entry) (part : Part) : e.part part < 1 <<< part.width := by
  rw [part_eq, Nat.one_shiftLeft]
  exact Nat.mod_lt _ (Nat.two_pow_pos _)

/-- The bits of a field are bits of the word. -/
theorem testBit_part (e : Entry) (part : Part) (i : Nat) :
    (e.part part).testBit i =
      (decide (i < part.width) && e.raw.toNat.testBit (part.low + i)) := by
  rw [part_eq, Nat.one_shiftLeft, Nat.testBit_mod_two_pow, Nat.testBit_shiftRight]

/-- The reserved field is zero if and only if no bit above the page size is set. -/
theorem reserved_eq_zero_iff (e : Entry) :
    e.reserved = 0 ↔ ∀ i, 57 ≤ i → e.raw.toNat.testBit i = false := by
  constructor
  · intro none i high
    obtain ⟨k, rfl⟩ := Nat.exists_eq_add_of_le high
    by_cases inWord : k < 7
    · have bit := testBit_part e .reserved k
      rw [show e.part .reserved = 0 from none, Nat.zero_testBit] at bit
      simpa [Part.low, Part.width, inWord] using bit.symm
    · exact testBit_raw_of_le e (by omega)
  · intro none
    apply Nat.eq_of_testBit_eq
    intro k
    rw [Nat.zero_testBit, show e.reserved = e.part .reserved from rfl, testBit_part,
      none (Part.reserved.low + k) (Nat.le_add_right _ _), Bool.and_false]

/-- A word is known once its parts are. -/
theorem eq_of_part_eq {e e' : Entry} (h : ∀ part, e.part part = e'.part part) : e = e' := by
  have bits : ∀ i, e.raw.toNat.testBit i = e'.raw.toNat.testBit i := by
    intro i
    by_cases inWord : i < 64
    · obtain ⟨part, only⟩ := Part.exists_holds_iff inWord
      obtain ⟨low, high⟩ := (only part).mpr rfl
      obtain ⟨k, rfl⟩ := Nat.exists_eq_add_of_le low
      have within : k < part.width := Nat.lt_of_add_lt_add_left high
      have bit := congrArg (fun n => n.testBit k) (h part)
      simpa only [testBit_part, within, decide_true, Bool.true_and] using bit
    · rw [testBit_raw_of_le e (Nat.not_lt.mp inWord), testBit_raw_of_le e' (Nat.not_lt.mp inWord)]
  obtain ⟨raw⟩ := e
  obtain ⟨raw'⟩ := e'
  exact congrArg Entry.mk (UInt64.toNat_inj.mp (Nat.eq_of_testBit_eq bits))

/-! ## Words from parts -/

/-- The entry with the given numbers in its parts. -/
def ofParts (value : Part → Nat) : Entry :=
  ⟨UInt64.ofNat (value .currentPage + value .gfn * 0x1000 + value .operation * 0x10000000000000
    + value .size * 0x100000000000000 + value .reserved * 0x200000000000000)⟩

/-- What fits into the parts can be put there, all of it at once. -/
theorem part_ofParts {value : Part → Nat} (fits : ∀ part, value part < 1 <<< part.width)
    (part : Part) : (ofParts value).part part = value part := by
  have currentPage : value .currentPage < 0x1000 := fits .currentPage
  have gfn : value .gfn < 0x10000000000 := fits .gfn
  have operation : value .operation < 0x10 := fits .operation
  have size : value .size < 2 := fits .size
  have reserved : value .reserved < 0x80 := fits .reserved
  have whole : (ofParts value).raw.toNat = value .currentPage + value .gfn * 0x1000
      + value .operation * 0x10000000000000 + value .size * 0x100000000000000
      + value .reserved * 0x200000000000000 := by
    rw [ofParts, UInt64.toNat_ofNat']
    exact Nat.mod_eq_of_lt (by omega)
  rw [part_eq, whole, Nat.shiftRight_eq_div_pow, Nat.one_shiftLeft]
  cases part <;> simp only [Part.low, Part.width] <;> omega

/-- Masking the bits of the frame leaves the start of the frame. -/
theorem and_frameMask (n : Nat) :
    n &&& 0xffffffffff000 = n / 0x1000 % 0x10000000000 * 0x1000 := by
  apply Nat.eq_of_testBit_eq
  intro i
  rw [show 0xffffffffff000 = (2 ^ 40 - 1) <<< 12 from rfl,
    show n / 0x1000 % 0x10000000000 * 0x1000 = (n >>> 12 % 2 ^ 40) <<< 12 by
      simp only [Nat.shiftLeft_eq, Nat.shiftRight_eq_div_pow, Nat.reducePow],
    Nat.testBit_and, Nat.testBit_shiftLeft, Nat.testBit_shiftLeft, Nat.testBit_two_pow_sub_one,
    Nat.testBit_mod_two_pow, Nat.testBit_shiftRight]
  by_cases low : 12 ≤ i
  · simp [low, Bool.and_comm]
  · simp [low]

section

variable (address : PhysAddr) (size : PageSize) (assignment : Assignment)

/-- The word of a made entry, put together by shifts and a mask. -/
theorem toNat_raw_ofPage_eq_or : (ofPage address size assignment).raw.toNat =
    size.code <<< 56 ||| assignment.code <<< 52 ||| (address.val &&& 0xffffffffff000) := by
  have inMemory := address.val_lt
  have frame : address.val / 0x1000 * 0x1000 < 2 ^ 52 := by omega
  have low : assignment.code <<< 52 + address.val / 0x1000 * 0x1000 < 2 ^ 56 := by
    have := assignment.code_lt
    omega
  have mask : address.val &&& 0xffffffffff000 = address.val / 0x1000 * 0x1000 := by
    rw [and_frameMask]
    omega
  calc
    (ofPage address size assignment).raw.toNat
      = size.code <<< 56 + (assignment.code <<< 52 + address.val / 0x1000 * 0x1000) := by
        rw [toNat_raw_ofPage, Nat.shiftLeft_eq, Nat.shiftLeft_eq, Nat.add_assoc]
    _ = size.code <<< 56 ||| (assignment.code <<< 52 ||| address.val / 0x1000 * 0x1000) := by
        rw [Nat.shiftLeft_add_eq_or_of_lt low, Nat.shiftLeft_add_eq_or_of_lt frame]
    _ = size.code <<< 56 ||| assignment.code <<< 52 ||| (address.val &&& 0xffffffffff000) := by
        rw [← Nat.or_assoc, mask]

/-- An entry with the reserved bits and the current page at zero is the one made from what is
read from it. -/
theorem ofPage_of_assignment? {e : Entry} (reserved : e.reserved = 0)
    (unmarked : e.currentPage = 0) (asked : e.assignment? = some assignment) :
    ofPage e.address e.size assignment = e := by
  have code : e.operation = assignment.code := Assignment.ofCode?_eq_some_iff.mp asked
  apply eq_of_part_eq
  intro part
  cases part with
  | currentPage => exact (currentPage_ofPage ..).trans unmarked.symm
  | gfn => exact (gfn_ofPage ..).trans (Nat.mul_div_cancel _ (by decide))
  | operation => exact (operation_ofPage ..).trans code.symm
  | size => exact congrArg PageSize.code (size_ofPage ..)
  | reserved => exact (reserved_ofPage ..).trans reserved.symm

end

/-- **Words and fields.**  An entry for the page at an address is a word put together by
shifts and a mask; it reads back as the start of the 4KiB frame, the size and the assignment,
with nothing in the current page and above the page size.  Any word with nothing there and a
valid operation is made again from the address, the size and the assignment that are read.
And whatever the word is, each field is the number in the bits of its part, each bit is in
one part, numbers that fit can be chosen for all parts at once and then make one word, and
the address is the start of the frame, in memory. -/
theorem encodes_parts :
    (∀ (address : PhysAddr) (size : PageSize) (assignment : Assignment),
      let e := ofPage address size assignment
      e.raw.toNat =
        size.code <<< 56 ||| assignment.code <<< 52 ||| (address.val &&& 0xffffffffff000) ∧
      e.address.val = address.val >>> 12 <<< 12 ∧ e.gfn = address.val >>> 12 ∧
      e.size = size ∧ e.assignment? = some assignment ∧ e.currentPage = 0 ∧
      ∀ i, 57 ≤ i → e.raw.toNat.testBit i = false) ∧
    (∀ (e : Entry) (assignment : Assignment),
      (∀ i, 57 ≤ i → e.raw.toNat.testBit i = false) → e.currentPage = 0 →
      e.assignment? = some assignment → ofPage e.address e.size assignment = e) ∧
    (∀ (e : Entry) (part : Part), e.part part < 1 <<< part.width ∧
      ∀ i < part.width, (e.part part).testBit i = e.raw.toNat.testBit (part.low + i)) ∧
    (∀ i < 64, ∃ part : Part, ∀ part' : Part, part'.Holds i ↔ part' = part) ∧
    (∀ value : Part → Nat, (∀ part, value part < 1 <<< part.width) →
      ∃ e : Entry, ∀ e' : Entry, (∀ part, e'.part part = value part) ↔ e' = e) ∧
    ∀ e : Entry, e.address.val = e.gfn <<< 12 ∧ e.address.val < 0x10000000000000 := by
  refine ⟨?_, ?_, ?_, ?_, ?_, ?_⟩
  · intro address size assignment e
    have frame : e.gfn = address.val >>> 12 := by
      rw [gfn_ofPage, Nat.shiftRight_eq_div_pow]
    refine ⟨toNat_raw_ofPage_eq_or .., ?_, frame, size_ofPage .., assignment?_ofPage ..,
      currentPage_ofPage .., e.reserved_eq_zero_iff.mp (reserved_ofPage ..)⟩
    rw [← frame, Nat.shiftLeft_eq]
    rfl
  · intro e assignment none unmarked asked
    exact ofPage_of_assignment? assignment (e.reserved_eq_zero_iff.mpr none) unmarked asked
  · intro e part
    refine ⟨e.part_lt part, fun i within => ?_⟩
    rw [testBit_part, decide_eq_true within, Bool.true_and]
  · intro i inWord
    exact Part.exists_holds_iff inWord
  · intro value fits
    refine ⟨ofParts value, fun e' => ⟨fun same => ?_, ?_⟩⟩
    · exact eq_of_part_eq fun part => (same part).trans (part_ofParts fits part).symm
    · rintro rfl
      exact part_ofParts fits
  · intro e
    refine ⟨?_, e.address.val_lt⟩
    rw [Nat.shiftLeft_eq]
    rfl

/-- The word for the highest 2MiB page is made again from what is read from it.  The highest bit
is in one part, and there is one word in which all parts are full. -/
theorem encodes_parts_lastBlock :
    let e : Entry := ⟨0x12fffffffe00000⟩
    (e.address.val = 0xfffffffe00000 ∧ ofPage e.address e.size .shared = e) ∧
      (∃ part : Part, ∀ part' : Part, part'.Holds 63 ↔ part' = part) ∧
      ∃ full : Entry, ∀ e' : Entry,
        (∀ part, e'.part part = 1 <<< part.width - 1) ↔ e' = full := by
  intro e
  obtain ⟨-, again, -, only, free, -⟩ := encodes_parts
  have none : ∀ i, 57 ≤ i → e.raw.toNat.testBit i = false :=
    e.reserved_eq_zero_iff.mp (by decide)
  refine ⟨⟨by decide, again e .shared none (by decide) (by decide)⟩, only 63 (by decide), ?_⟩
  refine free (fun part => 1 <<< part.width - 1) fun part => ?_
  cases part <;> decide

end SnpMemory.Entry

/-
# `SnpMemory.Entry` — entries of a page state change request

An entry asks the hypervisor to change one page.  It is a 64-bit word that the
hypervisor reads as it is:

    bits 63:57   reserved, zero in every entry made here    0x200000000000000 and up
    bit  56      page size                                  0x100000000000000
    bits 55:52   operation, the code of an assignment       0x10000000000000 and up
    bits 51:12   frame number                               0x1000 and up
    bits 11:0    current page, a mark of the hypervisor

Fields are taken apart by division and remainder at the weight of their lowest bit.

Proved here: each field of a made entry reads back (`gfn_ofPage` and the lemmas
around it).
-/
import SnpMemory.Page

namespace SnpMemory

/-- An entry of a page state change request. -/
structure Entry where
  raw : UInt64
deriving DecidableEq

namespace Entry

/-- The word of all zeros, which fills the unused part of a buffer. -/
def zero : Entry := ⟨0⟩

/-- The entry that asks for `assignment` of the page at `address`.  The low twelve
bits of the address are dropped. -/
def ofPage (address : PhysAddr) (size : PageSize) (assignment : Assignment) : Entry :=
  ⟨UInt64.ofNat (size.code * 0x100000000000000 + assignment.code * 0x10000000000000
    + address.val / 0x1000 * 0x1000)⟩

/-! ## Fields -/

/-- The number of the 4KiB frame at which the page starts. -/
def gfn (e : Entry) : Nat := e.raw.toNat / 0x1000 % 0x10000000000

theorem gfn_lt (e : Entry) : e.gfn < 0x10000000000 := Nat.mod_lt _ (by decide)

def address (e : Entry) : PhysAddr :=
  ⟨e.gfn * 0x1000, by have := e.gfn_lt; omega⟩

/-- The page size, in bit 56. -/
def size (e : Entry) : PageSize :=
  if e.raw.toNat / 0x100000000000000 % 2 = 0 then .small else .large

def operation (e : Entry) : Nat := e.raw.toNat / 0x10000000000000 % 16

/-- The assignment asked for, if the operation is one. -/
def assignment? (e : Entry) : Option Assignment := Assignment.ofCode? e.operation

def currentPage (e : Entry) : Nat := e.raw.toNat % 0x1000

/-- The bits above the page size. -/
def reserved (e : Entry) : Nat := e.raw.toNat / 0x200000000000000

/-! ## The fields of a made entry -/

variable (address : PhysAddr) (size : PageSize) (assignment : Assignment)

theorem toNat_raw_ofPage : (ofPage address size assignment).raw.toNat =
    size.code * 0x100000000000000 + assignment.code * 0x10000000000000
      + address.val / 0x1000 * 0x1000 := by
  have := address.val_lt
  have := size.code_lt
  have := assignment.code_lt
  unfold ofPage
  rw [UInt64.toNat_ofNat']
  apply Nat.mod_eq_of_lt
  omega

theorem gfn_ofPage : (ofPage address size assignment).gfn = address.val / 0x1000 := by
  have := address.val_lt
  unfold gfn
  rw [toNat_raw_ofPage]
  omega

theorem address_ofPage :
    (ofPage address size assignment).address.val = address.val / 0x1000 * 0x1000 := by
  show (ofPage address size assignment).gfn * 0x1000 = _
  rw [gfn_ofPage]

theorem operation_ofPage : (ofPage address size assignment).operation = assignment.code := by
  have := address.val_lt
  have := assignment.code_lt
  unfold operation
  rw [toNat_raw_ofPage]
  omega

theorem assignment?_ofPage : (ofPage address size assignment).assignment? = some assignment := by
  unfold assignment?
  rw [operation_ofPage, Assignment.ofCode?_code]

theorem size_ofPage : (ofPage address size assignment).size = size := by
  have := address.val_lt
  have := size.code_lt
  have := assignment.code_lt
  have bit : (ofPage address size assignment).raw.toNat / 0x100000000000000 % 2 = size.code := by
    rw [toNat_raw_ofPage]
    omega
  unfold Entry.size
  rw [bit]
  cases size <;> rfl

theorem currentPage_ofPage : (ofPage address size assignment).currentPage = 0 := by
  unfold currentPage
  rw [toNat_raw_ofPage]
  omega

theorem reserved_ofPage : (ofPage address size assignment).reserved = 0 := by
  have := address.val_lt
  have := size.code_lt
  have := assignment.code_lt
  unfold reserved
  rw [toNat_raw_ofPage]
  omega

end Entry

end SnpMemory

/-
# `SnpMemory.Msr` — messages in the model-specific register of the protocol

One register of the processor is seen by guest and hypervisor.  The low twelve
bits of its value tell the kind of message, the others carry the content:

    0x000   the address of the communication page
    0x014   a request to change one 4KiB page     (its address, and the operation in bits 55:52)
    0x015   the response to that request          (an error code in bits 63:32)
    0x100   a request to end the guest            (a reason in bits 23:16)
-/
import SnpMemory.Page

namespace SnpMemory.Msr

def register : Nat := 0xC0010130

/-- Why a guest asks to be ended. -/
inductive TerminationReason where
  | general
deriving DecidableEq

def TerminationReason.code : TerminationReason → Nat
  | general => 0

def TerminationReason.name : TerminationReason → String
  | general => "General"

/-! ## From guest to hypervisor -/

/-- What a guest can tell the hypervisor through the register. -/
inductive Message where
  /-- The communication page is here. -/
  | pageAt (gpa : Frame .small)
  | changePage (page : Frame .small) (assignment : Assignment)
  | terminate (reason : TerminationReason)

/-- The register's value for a message. -/
def Message.value : Message → UInt64
  | pageAt gpa => UInt64.ofNat gpa.start.val
  | changePage page assignment =>
    UInt64.ofNat (0x014 + page.start.val + assignment.code * 0x10000000000000)
  | terminate reason => UInt64.ofNat (0x100 + reason.code * 0x10000)

/-! ## From hypervisor to guest -/

/-- How the change of a single page can fail. -/
inductive PageError where
  /-- The address is not that of a page. -/
  | unaligned
  /-- The register does not hold a response. -/
  | notResponse
  | refused
deriving DecidableEq

def PageError.message : PageError → String
  | unaligned => "page must be 4KiB-aligned"
  | notResponse => "value is not a valid SNP Page State Change response"
  | refused => "page state change failed"

/-- The message that asks for a change of the page at an address. -/
def changePageAt (address : PhysAddr) (assignment : Assignment) : Except PageError Message :=
  match Frame.ofStart? address with
  | some page => .ok (.changePage page assignment)
  | none => .error .unaligned

structure Response where
  errorCode : Nat
deriving DecidableEq

/-- The response that a value of the register stands for: its kind must be right and the
bits between kind and error code must be zero. -/
def Response.ofValue? (value : UInt64) : Option Response :=
  if value.toNat % 0x1000 = 0x015 ∧ value.toNat / 0x1000 % 0x100000 = 0 then
    some ⟨value.toNat / 0x100000000⟩
  else none

/-- Whether a value of the register says that the page was changed. -/
def pageChanged (value : UInt64) : Except PageError Unit :=
  match Response.ofValue? value with
  | none => .error .notResponse
  | some response => if response.errorCode = 0 then .ok () else .error .refused

end SnpMemory.Msr

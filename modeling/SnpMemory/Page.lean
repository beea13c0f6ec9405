/-
# `SnpMemory.Page` — what can be said about a page

A page is assigned either to the guest alone or to guest and hypervisor
together, and the guest may have marked it as validated.  PVALIDATE sets or
clears that mark, or says why it did not.
-/
import SnpMemory.Address

namespace SnpMemory

/-- Who may use a page: the guest alone, or the hypervisor as well. -/
inductive Assignment where
  | guestOnly
  | shared
deriving DecidableEq

namespace Assignment

/-- The operation code of an assignment in requests to the hypervisor. -/
def code : Assignment → Nat
  | guestOnly => 1
  | shared => 2

def ofCode? : Nat → Option Assignment
  | 1 => some guestOnly
  | 2 => some shared
  | _ => none

def name : Assignment → String
  | guestOnly => "Private"
  | shared => "Shared"

theorem ofCode?_code (a : Assignment) : ofCode? a.code = some a := by
  cases a <;> rfl

theorem code_lt (a : Assignment) : a.code < 16 := by
  cases a <;> decide

theorem ofCode?_eq_some_iff {n : Nat} {a : Assignment} : ofCode? n = some a ↔ n = a.code := by
  constructor
  · intro h
    unfold ofCode? at h
    split at h <;> simp_all [code] <;> subst h <;> rfl
  · rintro rfl
    exact ofCode?_code a

end Assignment

/-- Whether a page is to be marked as validated or not. -/
inductive Validation where
  | unvalidated
  | validated
deriving DecidableEq

namespace Validation

/-- The number that stands for the mark in an instruction operand. -/
def code : Validation → Nat
  | unvalidated => 0
  | validated => 1

def ofCode? : Nat → Option Validation
  | 0 => some unvalidated
  | 1 => some validated
  | _ => none

def name : Validation → String
  | unvalidated => "Unvalidated"
  | validated => "Validated"

theorem ofCode?_code (v : Validation) : ofCode? v.code = some v := by
  cases v <;> rfl

end Validation

/-- The mark that pages of an assignment must carry: the guest validates what it
owns alone and nothing else. -/
def Assignment.validation : Assignment → Validation
  | .guestOnly => .validated
  | .shared => .unvalidated

/-- Why PVALIDATE did not change the mark of a page. -/
inductive PvalidateError where
  | badInput
  | noPermission
  /-- The reverse map table holds the page in another size. -/
  | sizeMismatch
  /-- The processor gave a code without a documented meaning. -/
  | unknownResult
  /-- The page already carried the mark. -/
  | notUpdated
deriving DecidableEq

namespace PvalidateError

/-- The code of an error.  The processor uses the first three; the last two are
above them, where no documented code lies. -/
def code : PvalidateError → Nat
  | badInput => 1
  | noPermission => 2
  | sizeMismatch => 6
  | unknownResult => 254
  | notUpdated => 255

def ofCode? : Nat → Option PvalidateError
  | 1 => some badInput
  | 2 => some noPermission
  | 6 => some sizeMismatch
  | 254 => some unknownResult
  | 255 => some notUpdated
  | _ => none

def name : PvalidateError → String
  | badInput => "FailInput"
  | noPermission => "FailPermission"
  | sizeMismatch => "FailSizeMismatch"
  | unknownResult => "UnknownResult"
  | notUpdated => "ValidationStatusNotUpdated"

theorem ofCode?_code (e : PvalidateError) : ofCode? e.code = some e := by
  cases e <;> rfl

end PvalidateError

end SnpMemory

/-
# `SnpMemory.Simulation.Validator` — a validator that follows rules

Each rule says which PVALIDATE calls it is about and what they end with.  The
first rule that fits a call decides it; a call that no rule fits succeeds.  A rule
may be good for a limited number of calls.
-/
import SnpMemory.Page

namespace SnpMemory.Simulation

/-- What a call ends with: a result, or what the instruction leaves in the registers. -/
inductive Outcome where
  | succeed
  | fail (error : PvalidateError)
  | registers (eax : UInt32) (carry : Bool)

namespace Outcome

/-- The outcome as a result.  Bare registers are not looked into. -/
def result : Outcome → Except PvalidateError Unit
  | fail error => .error error
  | _ => .ok ()

/-- The outcome as what the instruction leaves in EAX and the carry flag. -/
def inRegisters : Outcome → UInt32 × Bool
  | succeed => (0, false)
  | fail .notUpdated => (0, true)
  | fail error => (UInt32.ofNat error.code, false)
  | registers eax carry => (eax, carry)

end Outcome

/-- A rule for calls with an address from `first` up to, but not at, `stop`. -/
structure Rule where
  first : Nat := 0
  stop : Nat := 0xffffffffffffffff
  /-- The page size the rule is about, if it is about one only. -/
  size? : Option PageSize := none
  validation? : Option Validation := none
  /-- How many more calls the rule is good for, if there is a limit. -/
  times? : Option Nat := none
  outcome : Outcome

namespace Rule

def fits (rule : Rule) (address : Nat) (size : PageSize) (validation : Validation) : Bool :=
  rule.first ≤ address && address < rule.stop && rule.size?.all (· == size)
    && rule.validation?.all (· == validation) && rule.times? != some 0

def used (rule : Rule) : Rule := { rule with times? := rule.times?.map (· - 1) }

end Rule

/-- Decides a call by the first rule that fits, and keeps account of its use. -/
def consult (address : Nat) (size : PageSize) (validation : Validation) :
    List Rule → Outcome × List Rule
  | [] => (.succeed, [])
  | rule :: rest =>
    if rule.fits address size validation then (rule.outcome, rule.used :: rest)
    else
      let (outcome, rest) := consult address size validation rest
      (outcome, rule :: rest)

end SnpMemory.Simulation

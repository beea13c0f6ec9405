/-
# `SnpMemory.Change` — moving a range of memory between guest and hypervisor

A range is handled batch by batch.  Two parties have a say in each page: the
hypervisor changes the reverse map table, the guest changes the mark that
PVALIDATE sets.  The order matters.  A page that becomes shared loses its mark
before the hypervisor hears of it, and a page that becomes the guest's own gets
its mark only after the hypervisor has handed it over.

`tryChange` reports the first failure; `change` ends the guest instead, since
after a failure nobody knows in which state the range is.
-/
import SnpMemory.Batch
import SnpMemory.Validate

namespace SnpMemory.Change

/-! ## What a change needs of its surroundings -/

/-- The requests made while a range is changed. -/
inductive Call where
  | pvalidate (address : PhysAddr) (size : PageSize) (validation : Validation)
  | exchange (entries : List Entry)
  | terminate
  | log (line : LogLine)
deriving DecidableEq

@[reducible] def Call.Answer : Call → Type
  | pvalidate .. => Except PvalidateError Unit
  | exchange _ => Except Stop Unit
  | terminate => Unit
  | log _ => Unit

abbrev calls : Interface := ⟨Call, Call.Answer⟩

abbrev Event : Type := calls.Event

instance : Validating calls where
  pvalidate address size validation := .request (I := calls) (.pvalidate address size validation)
  log line := .request (I := calls) (.log line)

/-! ## One batch -/

/-- The most entries that a single request to the hypervisor can hold. -/
def maxEntries : Nat := 253

/-- Cuts entries into requests: full ones first, then what is left. -/
def requests : List Entry → List (List Entry)
  | [] => []
  | entry :: rest =>
    (entry :: rest).take maxEntries :: requests (rest.drop (maxEntries - 1))
termination_by entries => entries.length
decreasing_by simp only [List.length_drop, List.length_cons]; omega

abbrev OnBuffer (α : Type) : Type := Guest calls (List Entry) α

def exchange (entries : List Entry) : OnBuffer Unit := do
  match ← Guest.ask (I := calls) (.exchange entries) with
  | .ok () => pure ()
  | .error stop => throw stop

def exchangeAll : List (List Entry) → OnBuffer Unit
  | [] => pure ()
  | request :: rest => do
    exchange request
    exchangeAll rest

/-- Changes the pages of one batch, in the order that the assignment demands. -/
def changeBatch (entries : List Entry) : Assignment → OnBuffer Unit
  | .shared => do
    validateEntries entries
    exchangeAll (requests entries)
  | .guestOnly => do
    exchangeAll (requests entries)
    validateEntries entries

/-! ## A range -/

/-- Changes a range from `address` on, batch by batch.  Each batch is built in the
buffer, so that the buffer holds the last one when the run ends. -/
def changeFrom (goal : Goal) (batch : Batch) (room : 0 < batch.capacity) (address : Nat) :
    OnBuffer Unit :=
  if more : address < goal.stop then
    match filled : batch.fill goal address with
    | (batch', .error limit) => do
      .put batch'.storage
      .fault limit
    | (batch', .ok next) => do
      .put batch'.storage
      changeBatch batch'.entries goal.assignment
      changeFrom goal batch' (by rwa [Batch.capacity_of_fill filled]) next
  else pure ()
termination_by goal.stop - address
decreasing_by
  have := Goal.lt_of_walk room more (congrArg Prod.snd filled)
  omega

structure Order where
  start : Frame .small
  /-- How many 4KiB pages are to be changed. -/
  pageCount : Nat
  assignment : Assignment
  /-- Whether 2MiB entries may be used. -/
  useLarge : Bool

namespace Order

/-- The address after the last page. -/
def stop (order : Order) : Nat :=
  order.start.start.val + PageSize.small.bytes * order.pageCount

def goal (order : Order) : Goal where
  stop := order.stop
  assignment := order.assignment
  useLarge := order.useLarge

/-- The address after the last page, as the guest computes it.  There is none if the size or
the sum does not fit in a 64-bit word, or if the range leaves memory. -/
def stop? (order : Order) : Option Nat := do
  let size ← word? (order.pageCount * PageSize.small.bytes)
  let stop ← word? (order.start.start.val + size)
  if stop ≤ physicalLimit then some stop else none

/-- Words are wide enough: the guest finds the exact address, whenever the range lies in
memory. -/
theorem stop?_eq_some_iff {order : Order} {stop : Nat} :
    order.stop? = some stop ↔ order.stop = stop ∧ stop ≤ physicalLimit := by
  have end_eq : order.start.start.val + order.pageCount * PageSize.small.bytes = order.stop :=
    congrArg (order.start.start.val + ·) (Nat.mul_comm _ _)
  constructor
  · intro h
    obtain ⟨size, product, h⟩ := Option.bind_eq_some_iff.mp h
    obtain ⟨sum, summed, h⟩ := Option.bind_eq_some_iff.mp h
    obtain ⟨-, rfl⟩ := word?_eq_some_iff.mp product
    obtain ⟨-, rfl⟩ := word?_eq_some_iff.mp summed
    rw [end_eq] at h
    split at h
    · next within =>
        cases h
        exact ⟨rfl, within⟩
    · cases h
  · rintro ⟨rfl, within⟩
    have fits : order.stop < wordLimit := Nat.lt_of_le_of_lt within (by decide)
    have fits' : order.pageCount * PageSize.small.bytes < wordLimit :=
      Nat.lt_of_le_of_lt (Nat.le_add_left _ _) (end_eq ▸ fits)
    refine Option.bind_eq_some_iff.mpr ⟨_, word?_eq_some_iff.mpr ⟨fits', rfl⟩, ?_⟩
    refine Option.bind_eq_some_iff.mpr ⟨_, word?_eq_some_iff.mpr ⟨end_eq.symm ▸ fits, end_eq⟩, ?_⟩
    exact if_pos within

theorem stop?_eq_none_iff {order : Order} : order.stop? = none ↔ physicalLimit < order.stop := by
  rw [Option.eq_none_iff_forall_ne_some]
  constructor
  · intro none
    exact Nat.lt_of_not_le fun within => none _ (stop?_eq_some_iff.mpr ⟨rfl, within⟩)
  · intro beyond stop found
    obtain ⟨rfl, within⟩ := stop?_eq_some_iff.mp found
    exact Nat.not_le.mpr beyond within

end Order

/-- Carries out an order, with the buffer as room for one batch.  An empty buffer
and a range that leaves memory are refused before anything else happens. -/
def tryChange (order : Order) : OnBuffer Unit := do
  let batch := Batch.ofBuffer (← Guest.look)
  if room : 0 < batch.capacity then
    match order.stop? with
    | none => .fail (.invalidRange order.start.start order.pageCount)
    | some stop => do
      Guest.ask (I := calls) (.log
        (.changing order.pageCount order.start.start order.assignment order.useLarge))
      changeFrom { order.goal with stop } batch room order.start.start.val
  else .fail .emptyBuffer

def terminate : OnBuffer Unit := do
  Guest.ask (I := calls) .terminate
  throw .terminated

/-- Carries out an order, and ends the guest if that fails. -/
def change (order : Order) : OnBuffer Unit := do
  match ← Guest.attempt (tryChange order) with
  | .ok () => pure ()
  | .error (.failed error) => do
    Guest.ask (I := calls) (.log (.failed error))
    terminate
  | .error stop => throw stop

end SnpMemory.Change

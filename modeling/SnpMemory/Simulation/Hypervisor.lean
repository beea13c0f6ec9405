/-
# `SnpMemory.Simulation.Hypervisor` — a hypervisor that follows a list of actions

At each exit the hypervisor takes its next action on the page; the last action is
repeated for ever.  An action moves the position in work of the request forward,
and may then overwrite whatever it likes.
-/
import SnpMemory.Ghcb.Request

namespace SnpMemory.Simulation

def maxHalfWord : Nat := 0xffff

/-- What the hypervisor does at one exit. -/
structure Action where
  /-- The position to put in the header, whatever is there. -/
  current? : Option Nat := none
  /-- How many entries to move on otherwise. -/
  advance : Nat := maxHalfWord
  last? : Option Nat := none
  exitInfo1? : Option Nat := none
  exitInfo2? : Option Nat := none
  /-- Bytes to put on the page, each with its offset. -/
  writes : List (Nat × List UInt8) := []

def overwrite (g : Ghcb) (writes : List (Nat × List UInt8)) : Ghcb :=
  writes.foldl (fun g (offset, bytes) => g.writeBytes offset bytes) g

namespace Action

/-- The position after the action: never past the one behind the last, unless the action
says so itself. -/
def moved (action : Action) (c : Ghcb.Cursor) : Nat :=
  action.current?.getD
    (min (min (c.current + action.advance) maxHalfWord) (min (c.last + 1) maxHalfWord))

def put? (offset width : Nat) (value? : Option Nat) (g : Ghcb) : Ghcb :=
  match value? with
  | none => g
  | some value => g.writeWord offset width value

def apply (action : Action) (g : Ghcb) : Ghcb :=
  let moved := g.writeWord Ghcb.cursorOffset 2 (action.moved g.cursor)
  let ended := put? (Ghcb.cursorOffset + 2) 2 action.last? moved
  let reported := put? Ghcb.Field.exitInfo2.offset 8 action.exitInfo2?
    (put? Ghcb.Field.exitInfo1.offset 8 action.exitInfo1? ended)
  overwrite reported action.writes

end Action

/-- A hypervisor with an action for the next exit and for those after it. -/
structure Hypervisor where
  next : Action := {}
  later : List Action := []

namespace Hypervisor

/-- The hypervisor that takes the given actions; without any it just moves on. -/
def ofActions : List Action → Hypervisor
  | [] => {}
  | next :: later => { next, later }

/-- The hypervisor with one action less, unless it was the last. -/
def advanced (h : Hypervisor) : Hypervisor :=
  match h.later with
  | [] => h
  | next :: later => { next, later }

end Hypervisor

end SnpMemory.Simulation

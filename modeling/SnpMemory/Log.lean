/-
# `SnpMemory.Log` — what a guest reports while it works

Each kind of line has its own constructor; `render` puts the level in front of
the text.
-/
import SnpMemory.Error

namespace SnpMemory

inductive LogLine where
  | changing (pageCount : Nat) (start : PhysAddr) (assignment : Assignment) (useLarge : Bool)
  /-- A 2MiB page is handled as 4KiB pages from here on. -/
  | splitting (address : PhysAddr)
  /-- The hypervisor has done a request. -/
  | exchanged (entries exits : Nat)
  /-- A change failed, and the guest is about to end. -/
  | failed (error : ChangeError)
deriving DecidableEq

namespace LogLine

def level : LogLine → String
  | changing .. => "DEBUG"
  | splitting _ => "DEBUG"
  | exchanged .. => "TRACE"
  | failed _ => "ERROR"

def text : LogLine → String
  | changing pageCount start assignment useLarge =>
    s!"changing {pageCount} pages at {hex start.val} to {assignment.name} (large entries: {useLarge})"
  | splitting address =>
    s!"RMP page size mismatch at {hex address.val}, falling back to 4KiB pages"
  | exchanged entries exits => s!"page state change of {entries} entries took {exits} exits"
  | failed error => s!"page state change failed: {error.message}"

def render (line : LogLine) : String := s!"{line.level} {line.text}"

end LogLine

end SnpMemory

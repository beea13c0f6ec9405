/-
# `SnpMemory.Transcript.Runs` — lists of entries, written as runs

Entries for neighbouring pages differ by the size of the page.  A run is a first
word and the number of entries that follow each other in this way.
-/
import SnpMemory.Entry

namespace SnpMemory.Transcript

/-- The distance from an entry to the one for the next page; the entry of zeros repeats. -/
def stride (entry : Entry) : Nat := if entry.raw = 0 then 0 else entry.size.bytes

/-- Entries that follow each other: the first, the last and their number. -/
structure Run where
  first : Entry
  last : Entry
  count : Nat

/-- Adds an entry to the runs before it, the latest of which comes first. -/
def addEntry (runs : List Run) (entry : Entry) : List Run :=
  match runs with
  | [] => [⟨entry, entry, 1⟩]
  | run :: rest =>
    if entry.raw = run.last.raw + UInt64.ofNat (stride run.last) then
      { run with last := entry, count := run.count + 1 } :: rest
    else ⟨entry, entry, 1⟩ :: run :: rest

def runs (entries : List Entry) : List Run := (entries.foldl addEntry []).reverse

end SnpMemory.Transcript

/-
# `SnpMemory.Ghcb.Request` — a page state change request on the page

A request lies in the shared buffer: a header of eight bytes, then the entries,
eight bytes each.  The header holds two positions in the list of entries, the one
that the hypervisor works on and the last one.  The hypervisor moves the first
past the second when it is done.
-/
import SnpMemory.Batch
import SnpMemory.Ghcb.Page
import SnpMemory.Ghcb.ValidBitmap

namespace SnpMemory.Ghcb

/-- The positions in the header of a request. -/
structure Cursor where
  current : Nat
  last : Nat
deriving DecidableEq

/-- Where the header begins; the position in work comes first. -/
def cursorOffset : Nat := Field.sharedBuffer.offset

def headerSize : Nat := 8

def entriesOffset : Nat := cursorOffset + headerSize

def entrySize : Nat := 8

def cursor (g : Ghcb) : Cursor where
  current := g.readWord cursorOffset 2
  last := g.readWord (cursorOffset + 2) 2

/-- Puts a header with the given positions, and zeros behind them. -/
def putHeader (g : Ghcb) (c : Cursor) : Ghcb :=
  g.writeBytes cursorOffset
    (LittleEndian.encode 2 c.current ++ LittleEndian.encode 2 c.last ++ LittleEndian.encode 4 0)

def entryBytes (entries : List Entry) : List UInt8 :=
  entries.flatMap fun entry => LittleEndian.encode entrySize entry.raw.toNat

/-- Puts entries behind the header, if the shared buffer holds them all. -/
def putEntries (g : Ghcb) (entries : List Entry) : Except Fault Ghcb :=
  if headerSize + entrySize * entries.length ≤ Field.sharedBuffer.width then
    .ok (g.writeBytes entriesOffset (entryBytes entries))
  else .error .beyondSharedBuffer

/-- The entry at a position of the list behind the header. -/
def entryAt (g : Ghcb) (position : Nat) : Entry :=
  ⟨UInt64.ofNat (g.readWord (entriesOffset + entrySize * position) entrySize)⟩

/-! ## The fields around a request -/

def pageStateChangeCode : Nat := 0x80000010

def protocolVersion : Nat := 2

/-- The fields that an exit fills in. -/
def exitBitmap : ValidBitmap := .ofFlags [.exitCode, .exitInfo1, .exitInfo2, .scratch]

/-- Fills in the fields of an exit; the request is found at the address `scratch`. -/
def prepareExit (g : Ghcb) (scratch : Nat) : Ghcb :=
  ((((((g.write .exitCode pageStateChangeCode).write .exitInfo1 0).write .exitInfo2 0).write
    .scratch scratch).write .validBitmap exitBitmap.bits.toNat).write
    .protocolVersion protocolVersion)

end SnpMemory.Ghcb

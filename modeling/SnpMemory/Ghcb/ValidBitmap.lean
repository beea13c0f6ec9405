/-
# `SnpMemory.Ghcb.ValidBitmap` — which words of the page the other side may read

The first part of the page is an array of 64-bit words.  The bitmap has one bit
for each, at the position of the word.  Four of them belong to fields that the
guest uses; they are the known flags.
-/
import SnpMemory.Ghcb.Layout

namespace SnpMemory.Ghcb

/-- The flags that stand for fields in use. -/
inductive Flag where
  | exitCode
  | exitInfo1
  | exitInfo2
  | scratch
deriving DecidableEq

namespace Flag

def field : Flag → Field
  | exitCode => .exitCode
  | exitInfo1 => .exitInfo1
  | exitInfo2 => .exitInfo2
  | scratch => .scratch

/-- The flags in the order of their bits. -/
def all : List Flag := [exitCode, exitInfo1, exitInfo2, scratch]

/-- The bit of a flag, which is the position of the word that the field occupies. -/
def bit (flag : Flag) : Nat := flag.field.offset / 8

end Flag

/-- A set of valid words. -/
structure ValidBitmap where
  bits : BitVec 128
deriving DecidableEq

namespace ValidBitmap

def ofFlag (flag : Flag) : ValidBitmap := ⟨BitVec.twoPow 128 flag.bit⟩

def union (a b : ValidBitmap) : ValidBitmap := ⟨a.bits ||| b.bits⟩

def empty : ValidBitmap := ⟨0⟩

def ofFlags (flags : List Flag) : ValidBitmap :=
  flags.foldr (fun flag rest => (ofFlag flag).union rest) empty

def known : ValidBitmap := ofFlags Flag.all

def contains (b : ValidBitmap) (flag : Flag) : Bool := b.bits.getLsbD flag.bit

def isEmpty (b : ValidBitmap) : Bool := b.bits == 0

/-- Whether every known flag is set; other bits do not count. -/
def isAll (b : ValidBitmap) : Bool := Flag.all.all b.contains

/-- The known flags among the bits that are set. -/
def truncate (bits : BitVec 128) : ValidBitmap := ⟨bits &&& known.bits⟩

/-- The bitmap with the given bits, if all of them are known. -/
def ofBits? (bits : BitVec 128) : Option ValidBitmap :=
  if bits &&& ~~~ known.bits = 0 then some ⟨bits⟩ else none

end ValidBitmap

end SnpMemory.Ghcb

/-
# `SnpMemory.Ghcb.Page` — the communication page between guest and hypervisor

The page is a vector of bytes that both sides read and write; the fields of its
layout are views of it.  Every read goes through `byte` and every write through
`writeBytes`, and `byte_writeBytes` says all there is to say about the two.
-/
import SnpMemory.Ghcb.Layout
import SnpMemory.LittleEndian

namespace SnpMemory

structure Ghcb where
  bytes : Vector UInt8 Ghcb.pageSize
deriving DecidableEq

namespace Ghcb

def zero : Ghcb := ⟨.replicate pageSize 0⟩

/-- The byte at an offset; zero beyond the page. -/
def byte (g : Ghcb) (i : Nat) : UInt8 := if h : i < pageSize then g.bytes[i] else 0

/-- The `count` bytes from an offset on. -/
def readBytes (g : Ghcb) (offset count : Nat) : List UInt8 :=
  (List.range' offset count).map g.byte

/-- Puts bytes on the page from an offset on; what would lie beyond the page is dropped. -/
def writeBytes (g : Ghcb) (offset : Nat) : List UInt8 → Ghcb
  | [] => g
  | byte :: rest => writeBytes ⟨g.bytes.setIfInBounds offset byte⟩ (offset + 1) rest

@[ext] theorem ext {g g' : Ghcb} (h : ∀ i < pageSize, g.byte i = g'.byte i) : g = g' := by
  obtain ⟨bytes⟩ := g
  obtain ⟨bytes'⟩ := g'
  congr 1
  apply Vector.ext
  intro i hi
  simpa [byte, hi] using h i hi

@[simp] theorem byte_zero (i : Nat) : zero.byte i = 0 := by
  simp [byte, zero]

theorem byte_of_le {g : Ghcb} {i : Nat} (h : pageSize ≤ i) : g.byte i = 0 := by
  simp [byte, Nat.not_lt.2 h]

/-- A written byte reads back and every other byte is as before. -/
theorem byte_writeBytes (g : Ghcb) (offset : Nat) (bytes : List UInt8) (i : Nat)
    (h : i < pageSize) : (g.writeBytes offset bytes).byte i =
      if offset ≤ i then bytes[i - offset]?.getD (g.byte i) else g.byte i := by
  induction bytes generalizing g offset with
  | nil => simp [writeBytes]
  | cons byte rest ih =>
    rw [writeBytes, ih]
    have set : Ghcb.byte ⟨g.bytes.setIfInBounds offset byte⟩ i =
        if offset = i then byte else g.byte i := by
      simp [Ghcb.byte, h, Vector.getElem_setIfInBounds]
    rw [set]
    by_cases before : offset ≤ i
    · by_cases here : offset = i
      · subst here
        simp [show ¬ offset + 1 ≤ offset by omega]
      · have : offset + 1 ≤ i := by omega
        obtain ⟨d, rfl⟩ := Nat.exists_eq_add_of_le this
        simp [here, show offset + 1 + d - offset = d + 1 by omega,
          show offset ≤ offset + 1 + d by omega]
    · have : ¬ offset + 1 ≤ i := by omega
      have : offset ≠ i := by omega
      simp [*]

@[simp] theorem length_readBytes (g : Ghcb) (offset count : Nat) :
    (g.readBytes offset count).length = count := by
  simp [readBytes]

/-! ## Words -/

/-- The number in the `width` bytes from an offset on. -/
def readWord (g : Ghcb) (offset width : Nat) : Nat :=
  LittleEndian.decode (g.readBytes offset width)

/-- Puts a number, cut to `width` bytes, at an offset. -/
def writeWord (g : Ghcb) (offset width n : Nat) : Ghcb :=
  g.writeBytes offset (LittleEndian.encode width n)

/-! ## Fields -/

def read (g : Ghcb) (f : Field) : Nat := g.readWord f.offset f.width

/-- Puts a number, cut to the width of the field, into a field. -/
def write (g : Ghcb) (f : Field) (n : Nat) : Ghcb := g.writeWord f.offset f.width n

def clear (g : Ghcb) (f : Field) : Ghcb := g.writeBytes f.offset (List.replicate f.width 0)

/-- Clears every field, and so the page. -/
def reset (g : Ghcb) : Ghcb := Field.all.foldl clear g

/-! ## The page as a whole -/

def toBytes (g : Ghcb) : List UInt8 := g.bytes.toList

/-- The page with the given bytes, if they are as many as a page has. -/
def ofBytes? (bytes : List UInt8) : Option Ghcb :=
  if h : bytes.length = pageSize then some ⟨⟨bytes.toArray, by simpa using h⟩⟩ else none

end Ghcb

end SnpMemory

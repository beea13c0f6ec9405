/-
# `SnpMemory.Address` — guest-physical addresses and page frames

Guest-physical memory has 52-bit addresses.  `PhysAddr` is an address in that
range; its arithmetic is partial (`add?`), because a sum may leave memory.
The two page sizes and the frames they cut memory into are here as well.
-/
import SnpMemory.Hex

namespace SnpMemory

/-! ## Addresses -/

/-- Exclusive upper bound of guest-physical memory. -/
def physicalLimit : Nat := 0x10000000000000

structure PhysAddr where
  val : Nat
  val_lt : val < 0x10000000000000
deriving DecidableEq

namespace PhysAddr

@[ext] theorem ext {a b : PhysAddr} (h : a.val = b.val) : a = b := by
  cases a; cases b; simp_all

/-- The address `n`, if memory reaches that far. -/
def ofNat? (n : Nat) : Option PhysAddr :=
  if h : n < 0x10000000000000 then some ⟨n, h⟩ else none

/-- The address made of the low 52 bits of `n`. -/
def truncate (n : Nat) : PhysAddr :=
  ⟨n % 0x10000000000000, Nat.mod_lt _ (by decide)⟩

/-- The address `n` bytes further on, if that is still in memory. -/
def add? (a : PhysAddr) (n : Nat) : Option PhysAddr :=
  ofNat? (a.val + n)

def describe (a : PhysAddr) : String :=
  s!"PhysAddr({hex a.val})"

theorem truncate_val {n : Nat} (h : n < 0x10000000000000) : (truncate n).val = n :=
  Nat.mod_eq_of_lt h

theorem truncate_self (a : PhysAddr) : truncate a.val = a := ext (truncate_val a.val_lt)

theorem ofNat?_eq_none_iff {n : Nat} : ofNat? n = none ↔ 0x10000000000000 ≤ n := by
  unfold ofNat?
  split <;> simp <;> omega

theorem ofNat?_eq_some_iff {n : Nat} {a : PhysAddr} : ofNat? n = some a ↔ a.val = n := by
  unfold ofNat?
  split
  · simp only [Option.some.injEq, PhysAddr.ext_iff]
    exact eq_comm
  · simp only [reduceCtorEq, false_iff]
    have := a.val_lt
    omega

end PhysAddr

/-! ## Page sizes and frames -/

/-- The two page sizes that the reverse map table and PVALIDATE know. -/
inductive PageSize where
  | small
  | large
deriving DecidableEq

namespace PageSize

/-- How many bytes a page of this size covers. -/
def bytes : PageSize → Nat
  | small => 0x1000
  | large => 0x200000

/-- The number that stands for the size in entries and in instruction operands. -/
def code : PageSize → Nat
  | small => 0
  | large => 1

def ofCode? : Nat → Option PageSize
  | 0 => some small
  | 1 => some large
  | _ => none

def name : PageSize → String
  | small => "Page4KiB"
  | large => "Page2MiB"

theorem bytes_pos (size : PageSize) : 0 < size.bytes := by
  cases size <;> decide

theorem code_lt (size : PageSize) : size.code < 2 := by
  cases size <;> decide

theorem ofCode?_code (size : PageSize) : ofCode? size.code = some size := by
  cases size <;> rfl

end PageSize

/-- A page-aligned block of memory, as large as one page of the given size. -/
structure Frame (size : PageSize) where
  start : PhysAddr
  aligned : size.bytes ∣ start.val

namespace Frame

/-- The frame in which an address lies. -/
def containing (size : PageSize) (a : PhysAddr) : Frame size where
  start := ⟨a.val / size.bytes * size.bytes,
    Nat.lt_of_le_of_lt (Nat.div_mul_le_self _ _) a.val_lt⟩
  aligned := Nat.dvd_mul_left _ _

/-- The frame that starts at an address, if one does. -/
def ofStart? {size : PageSize} (a : PhysAddr) : Option (Frame size) :=
  if h : size.bytes ∣ a.val then some ⟨a, h⟩ else none

@[ext] theorem ext {size : PageSize} {frame frame' : Frame size} (h : frame.start = frame'.start) :
    frame = frame' := by
  cases frame
  cases frame'
  congr

/-- The frame of an address is the one from whose start on a page reaches it. -/
theorem containing_of_mem {size : PageSize} {frame : Frame size} {a : PhysAddr}
    (low : frame.start.val ≤ a.val) (high : a.val < frame.start.val + size.bytes) :
    containing size a = frame := by
  obtain ⟨k, hk⟩ := frame.aligned
  have quotient : a.val / size.bytes = k := by
    rw [hk] at low high
    exact Nat.div_eq_of_lt_le (by rwa [Nat.mul_comm]) (by rwa [Nat.add_one_mul, Nat.mul_comm k])
  apply Frame.ext
  apply PhysAddr.ext
  show a.val / size.bytes * size.bytes = frame.start.val
  rw [quotient, hk, Nat.mul_comm]

/-- A frame is the one that its own start lies in. -/
theorem containing_start {size : PageSize} (frame : Frame size) :
    containing size frame.start = frame :=
  containing_of_mem (Nat.le_refl _) (Nat.lt_add_of_pos_right size.bytes_pos)

theorem ofStart?_eq_some_iff {size : PageSize} {a : PhysAddr} {frame : Frame size} :
    ofStart? a = some frame ↔ frame.start = a := by
  unfold ofStart?
  constructor
  · intro h
    split at h
    · cases h
      rfl
    · cases h
  · rintro rfl
    rw [dif_pos frame.aligned]

/-- Frames start at the multiples of their size. -/
theorem exists_start_iff {size : PageSize} {a : PhysAddr} :
    (∃ frame : Frame size, frame.start = a) ↔ size.bytes ∣ a.val := by
  constructor
  · rintro ⟨frame, rfl⟩
    exact frame.aligned
  · intro aligned
    exact ⟨⟨a, aligned⟩, rfl⟩

/-- A frame ends inside memory. -/
theorem end_le {size : PageSize} (frame : Frame size) :
    frame.start.val + size.bytes ≤ 0x10000000000000 := by
  obtain ⟨k, hk⟩ := frame.aligned
  have := frame.start.val_lt
  cases size <;> simp only [PageSize.bytes] at * <;> omega

end Frame

end SnpMemory

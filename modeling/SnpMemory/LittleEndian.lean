/-
# `SnpMemory.LittleEndian` — numbers as bytes, lowest byte first

Proved here: reading what was written gives the number back, cut to the width
(`decode_encode`), and writing what was read gives the bytes back
(`encode_decode`).
-/

namespace SnpMemory.LittleEndian

/-- The lowest `width` bytes of a number. -/
def encode : (width : Nat) → Nat → List UInt8
  | 0, _ => []
  | width + 1, n => UInt8.ofNat n :: encode width (n / 256)

/-- How many numbers `width` bytes can stand for. -/
def range : (width : Nat) → Nat
  | 0 => 1
  | width + 1 => 256 * range width

/-- The number that bytes stand for. -/
def decode : List UInt8 → Nat
  | [] => 0
  | byte :: rest => byte.toNat + 256 * decode rest

@[simp] theorem length_encode (width n : Nat) : (encode width n).length = width := by
  induction width generalizing n with
  | zero => rfl
  | succ width ih => simp [encode, ih]

theorem decode_lt (bytes : List UInt8) : decode bytes < range bytes.length := by
  induction bytes with
  | nil => simp [decode, range]
  | cons byte rest ih =>
    have := byte.toNat_lt
    simp only [decode, List.length_cons, range]
    omega

/-- A number survives its bytes, cut to their width. -/
theorem decode_encode (width n : Nat) : decode (encode width n) = n % range width := by
  induction width generalizing n with
  | zero => simp [encode, decode, range, Nat.mod_one]
  | succ width ih =>
    rw [range, Nat.mod_mul, ← ih, encode, decode, UInt8.toNat_ofNat']

/-- Bytes survive their number. -/
theorem encode_decode (bytes : List UInt8) : encode bytes.length (decode bytes) = bytes := by
  induction bytes with
  | nil => rfl
  | cons byte rest ih =>
    have low : UInt8.ofNat (byte.toNat + 256 * decode rest) = byte := by
      apply UInt8.toNat_inj.1
      have := byte.toNat_lt
      rw [UInt8.toNat_ofNat']
      omega
    have high : (byte.toNat + 256 * decode rest) / 256 = decode rest := by
      have := byte.toNat_lt
      omega
    simp only [decode, List.length_cons, encode, low, high, ih]

end SnpMemory.LittleEndian

/-
# `SnpMemory.Hex` — how numbers are written in messages

Addresses, codes and registers are shown in hexadecimal, with lower-case
digits, no leading zeros and the mark `0x` in front.
-/

namespace SnpMemory

/-- A number in hexadecimal, marked with `0x`; zero is `0x0`. -/
def hex (n : Nat) : String :=
  "0x" ++ String.ofList (Nat.toDigits 16 n)

end SnpMemory

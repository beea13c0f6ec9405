/-
# `SnpMemory.Ghcb.Fields` — what reads see of writes

A read sees the last write to its bytes and no write to other bytes.  This holds
for runs of bytes, for words and for fields; since the fields cover the page,
clearing all of them leaves the page of zeros (`reset_eq_zero`).
-/
import SnpMemory.Ghcb.Page

namespace SnpMemory.Ghcb

/-! ## The layout -/

/-- Two different fields have no byte in common. -/
theorem Field.disjoint {f f' : Field} (h : f ≠ f') :
    f.offset + f.width ≤ f'.offset ∨ f'.offset + f'.width ≤ f.offset := by
  have all : ∀ f ∈ Field.all, ∀ f' ∈ Field.all, f ≠ f' →
      f.offset + f.width ≤ f'.offset ∨ f'.offset + f'.width ≤ f.offset := by decide +kernel
  exact all f f.mem_all f' f'.mem_all h

/-! ## Bytes -/

theorem byte_writeBytes_of_not_mem {g : Ghcb} {offset : Nat} {bytes : List UInt8} {i : Nat}
    (h : i < offset ∨ offset + bytes.length ≤ i) :
    (g.writeBytes offset bytes).byte i = g.byte i := by
  by_cases onPage : i < pageSize
  · rw [byte_writeBytes _ _ _ _ onPage]
    split
    · rw [List.getElem?_eq_none (by omega), Option.getD_none]
    · rfl
  · rw [byte_of_le (Nat.not_lt.1 onPage), byte_of_le (Nat.not_lt.1 onPage)]

theorem byte_writeBytes_of_mem {g : Ghcb} {offset : Nat} {bytes : List UInt8} {k : Nat}
    (h : k < bytes.length) (onPage : offset + k < pageSize) :
    (g.writeBytes offset bytes).byte (offset + k) = bytes[k] := by
  rw [byte_writeBytes _ _ _ _ onPage, if_pos (Nat.le_add_right _ _), Nat.add_sub_cancel_left,
    List.getElem?_eq_getElem h, Option.getD_some]

@[simp] theorem getElem_readBytes (g : Ghcb) (offset count k : Nat)
    (h : k < (g.readBytes offset count).length) :
    (g.readBytes offset count)[k] = g.byte (offset + k) := by
  simp [readBytes]

theorem readBytes_congr {g g' : Ghcb} {offset count : Nat}
    (h : ∀ k < count, g.byte (offset + k) = g'.byte (offset + k)) :
    g.readBytes offset count = g'.readBytes offset count := by
  apply List.ext_getElem
  · simp
  · intro k hk _
    simpa using h k (by simpa using hk)

/-- Written bytes read back. -/
theorem readBytes_writeBytes {g : Ghcb} {offset : Nat} {bytes : List UInt8}
    (h : offset + bytes.length ≤ pageSize) :
    (g.writeBytes offset bytes).readBytes offset bytes.length = bytes := by
  apply List.ext_getElem
  · simp
  · intro k _ hk
    rw [getElem_readBytes, byte_writeBytes_of_mem hk (by omega)]

/-- Bytes apart from the written ones read as before. -/
theorem readBytes_writeBytes_of_disjoint {g : Ghcb} {offset at' count : Nat} {bytes : List UInt8}
    (h : at' + count ≤ offset ∨ offset + bytes.length ≤ at') :
    (g.writeBytes offset bytes).readBytes at' count = g.readBytes at' count :=
  readBytes_congr fun k hk => byte_writeBytes_of_not_mem (by omega)

/-- Runs of bytes that follow each other can be put one after the other. -/
theorem writeBytes_append (g : Ghcb) (offset : Nat) (bytes more : List UInt8) :
    g.writeBytes offset (bytes ++ more) =
      (g.writeBytes offset bytes).writeBytes (offset + bytes.length) more := by
  induction bytes generalizing g offset with
  | nil => rfl
  | cons byte rest ih =>
    rw [List.cons_append, writeBytes, writeBytes, ih, List.length_cons, Nat.add_right_comm,
      Nat.add_assoc]

/-! ## Words -/

theorem readWord_lt (g : Ghcb) (offset width : Nat) :
    g.readWord offset width < LittleEndian.range width := by
  have := LittleEndian.decode_lt (g.readBytes offset width)
  rwa [length_readBytes] at this

/-- A written word reads back, cut to its width. -/
theorem readWord_writeWord {g : Ghcb} {offset width n : Nat} (h : offset + width ≤ pageSize) :
    (g.writeWord offset width n).readWord offset width = n % LittleEndian.range width := by
  have same : (g.writeBytes offset (LittleEndian.encode width n)).readBytes offset
      (LittleEndian.encode width n).length = LittleEndian.encode width n :=
    readBytes_writeBytes (by rwa [LittleEndian.length_encode])
  rw [LittleEndian.length_encode] at same
  rw [readWord, writeWord, same, LittleEndian.decode_encode]

/-- Words apart from the written one read as before. -/
theorem readWord_writeWord_of_disjoint {g : Ghcb} {offset width n at' width' : Nat}
    (h : at' + width' ≤ offset ∨ offset + width ≤ at') :
    (g.writeWord offset width n).readWord at' width' = g.readWord at' width' := by
  rw [readWord, writeWord, readBytes_writeBytes_of_disjoint (by rwa [LittleEndian.length_encode]),
    ← readWord]

/-! ## Fields -/

/-- A written field reads back, cut to its width. -/
theorem read_write (g : Ghcb) (f : Field) (n : Nat) :
    (g.write f n).read f = n % LittleEndian.range f.width :=
  readWord_writeWord f.end_le

/-- The other fields read as before. -/
theorem read_write_of_ne (g : Ghcb) {f f' : Field} (n : Nat) (h : f' ≠ f) :
    (g.write f n).read f' = g.read f' :=
  readWord_writeWord_of_disjoint (Field.disjoint h)

/-- Only the bytes of the field change. -/
theorem byte_write_of_not_covers (g : Ghcb) {f : Field} (n : Nat) {i : Nat} (h : ¬ f.Covers i) :
    (g.write f n).byte i = g.byte i := by
  apply byte_writeBytes_of_not_mem
  rw [LittleEndian.length_encode]
  unfold Field.Covers at h
  omega

theorem byte_clear (g : Ghcb) (f : Field) (i : Nat) :
    (g.clear f).byte i = if f.Covers i then 0 else g.byte i := by
  by_cases covers : f.Covers i
  · obtain ⟨k, rfl⟩ := Nat.exists_eq_add_of_le covers.1
    have within : k < f.width := Nat.lt_of_add_lt_add_left covers.2
    rw [if_pos covers, clear, byte_writeBytes_of_mem (by simpa using within)
      (Nat.lt_of_lt_of_le covers.2 f.end_le)]
    simp
  · rw [if_neg covers, clear, byte_writeBytes_of_not_mem]
    unfold Field.Covers at covers
    simp only [List.length_replicate]
    omega

theorem byte_foldl_clear (fields : List Field) (g : Ghcb) (i : Nat) :
    (fields.foldl clear g).byte i = if ∃ f ∈ fields, f.Covers i then 0 else g.byte i := by
  induction fields generalizing g with
  | nil => simp
  | cons f rest ih =>
    rw [List.foldl_cons, ih, byte_clear]
    by_cases first : f.Covers i <;> by_cases later : ∃ f ∈ rest, f.Covers i <;>
      simp [first, later]

/-- Clearing every field clears the page. -/
theorem reset_eq_zero (g : Ghcb) : g.reset = zero := by
  ext i h
  rw [reset, byte_foldl_clear, byte_zero,
    if_pos (Field.consecutive_all.exists_covers (Nat.zero_le i) h)]

/-- Every field of the page of zeros is zero. -/
theorem read_zero (f : Field) : zero.read f = 0 := by
  have bytes : zero.readBytes f.offset f.width = List.replicate f.width 0 := by
    apply List.ext_getElem
    · simp
    · simp
  have zeros : ∀ n, LittleEndian.decode (List.replicate n 0) = 0 := by
    intro n
    induction n with
    | zero => rfl
    | succ n ih => rw [List.replicate_succ, LittleEndian.decode, ih]; rfl
  rw [read, readWord, bytes, zeros]

/-! ## The page as a whole -/

theorem length_toBytes (g : Ghcb) : g.toBytes.length = pageSize := by
  simp [toBytes]

/-- The bytes of a page make up the page. -/
theorem ofBytes?_toBytes (g : Ghcb) : ofBytes? g.toBytes = some g := by
  rw [ofBytes?, dif_pos g.length_toBytes]
  rfl

theorem toBytes_of_ofBytes? {bytes : List UInt8} {g : Ghcb} (h : ofBytes? bytes = some g) :
    g.toBytes = bytes := by
  unfold ofBytes? at h
  split at h
  · cases h
    simp [toBytes]
  · simp at h

end SnpMemory.Ghcb

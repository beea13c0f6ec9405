/-
# `SnpMemory.Proofs.PageLayout` — the page as its fields, one after the other

Both sides must agree on where each field of the page lies.  The offsets are what comes out
when the fields are put down in their order, each at the first place that its alignment
allows (`place_all`); nothing has to be skipped on the way.  So every byte of the page is in
one field (`exists_covers_iff`), and the page is the bytes of its fields, one field after
the other (`flatMap_encode_read`).

That fields are apart is also why they can be written one at a time.  A field that was
written reads back, cut to its width, the others read as before, and no byte outside of it
changes; clearing all of them, the reserved ones included, leaves a page of zeros
(`lays_out`).
-/
import SnpMemory.Ghcb.Fields

namespace SnpMemory

open LittleEndian (encode)

namespace LittleEndian

theorem range_eq (width : Nat) : range width = 1 <<< (8 * width) := by
  induction width with
  | zero => rfl
  | succ width ih => rw [range, ih, Nat.mul_succ, Nat.one_shiftLeft, Nat.one_shiftLeft,
      Nat.pow_add, Nat.mul_comm]

end LittleEndian

namespace Ghcb

namespace Field

/-! ## Where the fields lie -/

/-- What the offset of a field is a multiple of: the size of the numbers in it. -/
def alignment : Field → Nat
  | cpl => 1
  | validBitmap => 16
  | sharedBuffer => 1
  | protocolVersion => 2
  | usage => 4
  | reserved _ => 1
  | _ => 8

/-- Puts fields down in their order, each at the first multiple of its alignment. -/
def place (next : Nat) : List Field → List (Field × Nat)
  | [] => []
  | f :: rest =>
    let offset := (next + f.alignment - 1) / f.alignment * f.alignment
    (f, offset) :: place (offset + f.width) rest

theorem alignment_pos (f : Field) : 0 < f.alignment := by
  cases f <;> simp [alignment]

theorem alignment_dvd_offset (f : Field) : f.alignment ∣ f.offset := by
  cases f with
  | reserved index => exact Nat.one_dvd _
  | _ => decide

/-- Fields that follow each other, all of them aligned, are put where they are. -/
theorem Consecutive.place_eq {start stop : Nat} {fields : List Field}
    (h : Consecutive start fields stop) :
    place start fields = fields.map fun f => (f, f.offset) := by
  induction fields generalizing start with
  | nil => rfl
  | cons f rest ih =>
      obtain ⟨rfl, after⟩ := h
      obtain ⟨k, hk⟩ := f.alignment_dvd_offset
      have there : (f.offset + f.alignment - 1) / f.alignment * f.alignment = f.offset := by
        have pos := f.alignment_pos
        have below : (f.alignment - 1) / f.alignment = 0 :=
          Nat.div_eq_of_lt (Nat.sub_one_lt_of_lt pos)
        rw [hk, Nat.add_sub_assoc pos, Nat.mul_add_div pos, below, Nat.add_zero, Nat.mul_comm]
      rw [place, there, ih after, List.map_cons]

theorem place_all : place 0 all = all.map fun f => (f, f.offset) := consecutive_all.place_eq

theorem Consecutive.le {start stop : Nat} {fields : List Field}
    (h : Consecutive start fields stop) : start ≤ stop := by
  induction fields generalizing start with
  | nil => exact Nat.le_of_eq h
  | cons f rest ih => exact Nat.le_trans (Nat.le_add_right _ _) (ih h.2)

theorem Covers.unique {f f' : Field} {i : Nat} (h : f.Covers i) (h' : f'.Covers i) : f' = f := by
  apply Decidable.byContradiction
  intro other
  have := Field.disjoint other
  simp only [Covers] at h h'
  omega

/-- Every byte of the page is in one field and in no other. -/
theorem exists_covers_iff {i : Nat} (h : i < pageSize) :
    ∃ f : Field, ∀ f' : Field, f'.Covers i ↔ f' = f := by
  obtain ⟨f, -, covers⟩ := consecutive_all.exists_covers (Nat.zero_le i) h
  refine ⟨f, fun f' => ⟨covers.unique, ?_⟩⟩
  rintro rfl
  exact covers

end Field

/-! ## The bytes of the fields -/

theorem readBytes_append (g : Ghcb) (offset count more : Nat) :
    g.readBytes offset count ++ g.readBytes (offset + count) more =
      g.readBytes offset (count + more) := by
  rw [readBytes, readBytes, readBytes, ← List.map_append, List.range'_append_1]

theorem encode_read (g : Ghcb) (f : Field) :
    encode f.width (g.read f) = g.readBytes f.offset f.width := by
  have bytes := LittleEndian.encode_decode (g.readBytes f.offset f.width)
  rwa [length_readBytes] at bytes

/-- Fields that follow each other make up the bytes from the first to the last. -/
theorem flatMap_encode_read (g : Ghcb) {start stop : Nat} {fields : List Field}
    (h : Field.Consecutive start fields stop) :
    fields.flatMap (fun f => encode f.width (g.read f)) = g.readBytes start (stop - start) := by
  induction fields generalizing start with
  | nil =>
      obtain rfl : start = stop := h
      simp [readBytes]
  | cons f rest ih =>
      obtain ⟨rfl, after⟩ := h
      have count : f.width + (stop - (f.offset + f.width)) = stop - f.offset := by
        have := after.le
        omega
      rw [List.flatMap_cons, encode_read, ih after, readBytes_append, count]

theorem toBytes_eq_readBytes (g : Ghcb) : g.toBytes = g.readBytes 0 pageSize := by
  apply List.ext_getElem
  · simp [toBytes]
  · intro i onPage _
    have onPage : i < pageSize := by simpa [toBytes] using onPage
    simp [toBytes, byte, onPage]

/-- The page is the bytes of its fields, one field after the other. -/
theorem toBytes_eq_flatMap (g : Ghcb) :
    g.toBytes = Field.all.flatMap fun f => encode f.width (g.read f) := by
  rw [g.flatMap_encode_read Field.consecutive_all, Nat.sub_zero, toBytes_eq_readBytes]

theorem exists_ofBytes?_iff {bytes : List UInt8} :
    (∃ g, ofBytes? bytes = some g) ↔ bytes.length = pageSize := by
  simp only [ofBytes?]
  split <;> simp [*]

/-- **The layout of the page.**  The fields lie where they come to lie when each is put down
at the first place that its alignment allows; every byte of the page is in one field, and
no field goes beyond the page.  A number that is written to a field reads back, cut to the
width of the field; every other field reads as before, and every byte outside of the field
is as before.  Any 4096 bytes are a page, and no other bytes are; they are the bytes of that
page, and of its fields, one after the other.  And a page that is reset is the page of
zeros, whatever was in its fields, be they reserved or not. -/
theorem lays_out :
    Field.place 0 Field.all = Field.all.map (fun f => (f, f.offset)) ∧
    (∀ i < 4096, ∃ f : Field, ∀ f' : Field, f'.Covers i ↔ f' = f) ∧
    (∀ f : Field, f.offset + f.width ≤ 4096) ∧
    (∀ (g : Ghcb) (f : Field) (n : Nat),
      (g.write f n).read f = n % (1 <<< (8 * f.width)) ∧
      (∀ f', f' ≠ f → (g.write f n).read f' = g.read f') ∧
      ∀ i, ¬ f.Covers i → (g.write f n).byte i = g.byte i) ∧
    (∀ bytes : List UInt8, ((∃ g, ofBytes? bytes = some g) ↔ bytes.length = 4096) ∧
      ∀ g, ofBytes? bytes = some g →
        g.toBytes = bytes ∧
          Field.all.flatMap (fun f => encode f.width (g.read f)) = bytes) ∧
    ∀ g : Ghcb, g.reset = zero ∧ (∀ i, g.reset.byte i = 0) ∧ ∀ f, g.reset.read f = 0 := by
  refine ⟨Field.place_all, fun i => Field.exists_covers_iff, Field.end_le, ?_, ?_, ?_⟩
  · intro g f n
    refine ⟨?_, fun f' other => g.read_write_of_ne n other, fun i =>
      g.byte_write_of_not_covers n⟩
    rw [read_write, LittleEndian.range_eq]
  · intro bytes
    refine ⟨exists_ofBytes?_iff, fun g made => ?_⟩
    have whole : g.toBytes = bytes := toBytes_of_ofBytes? made
    exact ⟨whole, g.toBytes_eq_flatMap.symm.trans whole⟩
  · intro g
    rw [reset_eq_zero]
    exact ⟨rfl, byte_zero, read_zero⟩

/-- Nine bits are written to a field of eight, between reserved ones; and a page is read from
ones. -/
theorem lays_out_cpl :
    let g := zero.write .rax 0x1234
    let g' := g.write .cpl 0x1ff
    (g'.read .cpl = 0xff ∧ g'.read .rax = g.read .rax ∧ g'.byte 204 = g.byte 204) ∧
      (∃ f : Field, ∀ f' : Field, f'.Covers 204 ↔ f' = f) ∧
      ∃ page, ofBytes? (List.replicate 4096 0xff) = some page ∧
        page.toBytes = List.replicate 4096 0xff := by
  intro g g'
  obtain ⟨-, only, -, written, made, -⟩ := lays_out
  obtain ⟨same, others, outside⟩ := written g .cpl 0x1ff
  obtain ⟨some, whole⟩ := made (List.replicate 4096 0xff)
  obtain ⟨page, read⟩ := some.mpr List.length_replicate
  refine ⟨⟨same, others .rax ?_, outside 204 ?_⟩, only 204 ?_, page, read, (whole page read).1⟩
  · decide
  · decide
  · decide

end Ghcb

end SnpMemory

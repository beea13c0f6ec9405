/-
# `SnpMemory.Proofs.ShownPage` — every byte that the hypervisor is shown

The page is shared with the hypervisor, so each byte that is on it at an exit is a byte
that the guest gives away.  Here the page is written out as a list of bytes:

    requestImage a es    the page at the first exit of a request, with the page at `a`
    stamped a bytes      a page with the six fields of an exit filled in

At the first exit the hypervisor finds the request, the fields of the exit, and zeros,
whatever the page held before.  At a later exit it finds what it has left itself at the
exit before, apart from these fields.  And what it leaves at the last exit is the page
that the exchange returns with (`shown_of_world`).

A run of bytes on the page can be replaced in the list (`toBytes_writeBytes`), and that
is all there is to writing a request and filling in an exit.
-/
import SnpMemory.Proofs.Exits

namespace SnpMemory

open LittleEndian (encode)

namespace Ghcb

/-! ## Images of pages -/

def zeros (count : Nat) : List UInt8 := List.replicate count 0

/-- The number with a bit for each of the 64-bit words at some offsets, and no other bit. -/
def wordBits (offsets : List Nat) : Nat :=
  offsets.foldr (fun offset bits => 1 <<< (offset / 8) ||| bits) 0

/-- The bytes of the four words from `0x390` on at an exit, for a page at an address: code,
two words of information, and the address of the request. -/
def exitWords (address : Nat) : List UInt8 :=
  encode 8 0x80000010 ++ encode 8 0 ++ encode 8 0 ++ encode 8 (address + 0x800)

/-- The bitmap of an exit: the four words are valid, which have the bits 114 to 117. -/
def exitWordBits : List UInt8 := encode 16 (wordBits [0x390, 0x398, 0x3a0, 0x3a8])

/-- A request as it lies in the shared buffer from `0x800` on. -/
def requestBytes (entries : List Entry) : List UInt8 :=
  encode 2 0 ++ encode 2 (entries.length - 1) ++ encode 4 0 ++
    entries.flatMap fun e => encode 8 e.raw.toNat

/-- The page at an address when it is shown with a request for the first time: the words
from `0x390` on, their bitmap from `0x3f0` on, the request from `0x800` on, the version of
the protocol from `0xffa` on, and zeros everywhere else. -/
def requestImage (address : Nat) (entries : List Entry) : List UInt8 :=
  zeros 0x390 ++ (exitWords address ++ (zeros 0x40 ++ (exitWordBits ++
    (zeros 0x400 ++ requestBytes entries ++ zeros (0x7f2 - 8 * entries.length) ++
      (encode 2 2 ++ zeros 4)))))

/-- The bytes of a page at an address, with the fields of an exit filled in at the same
places and every other byte as it is. -/
def stamped (address : Nat) (bytes : List UInt8) : List UInt8 :=
  bytes.take 0x390 ++ (exitWords address ++ ((bytes.drop 0x3b0).take 0x40 ++ (exitWordBits ++
    ((bytes.drop 0x400).take 0xbfa ++ (encode 2 2 ++ bytes.drop 0xffc)))))

/-! ## Writing bytes, in the list of all bytes -/

theorem toBytes_set (g : Ghcb) (offset : Nat) (byte : UInt8) :
    toBytes ⟨g.bytes.setIfInBounds offset byte⟩ = g.toBytes.set offset byte := by
  simp [toBytes]

/-- Bytes that are written take the place of as many others. -/
theorem toBytes_writeBytes {g : Ghcb} {offset : Nat} {before old new after : List UInt8}
    (whole : g.toBytes = before ++ (old ++ after)) (place : before.length = offset)
    (same : old.length = new.length) :
    (g.writeBytes offset new).toBytes = before ++ (new ++ after) := by
  induction new generalizing g offset before old with
  | nil =>
      obtain rfl := List.eq_nil_of_length_eq_zero same
      exact whole
  | cons byte rest ih =>
      cases old with
      | nil => cases same
      | cons byte' old =>
          have set : toBytes ⟨g.bytes.setIfInBounds offset byte⟩ =
              (before ++ [byte]) ++ (old ++ after) := by
            rw [toBytes_set, whole, ← place, List.set_append_right _ _ (Nat.le_refl _),
              Nat.sub_self]
            simp
          have next := ih set (List.length_append.trans (congrArg (· + 1) place))
            (Nat.succ.inj same)
          rwa [List.append_assoc] at next

theorem toBytes_zero : zero.toBytes = zeros pageSize := by
  simp [toBytes, zero, zeros]

theorem zeros_add (m n : Nat) : zeros (m + n) = zeros m ++ zeros n :=
  List.replicate_append_replicate.symm

@[simp] theorem length_zeros (n : Nat) : (zeros n).length = n := List.length_replicate

theorem length_exitWords (address : Nat) : (exitWords address).length = 0x20 := by
  simp [exitWords]

theorem length_exitWordBits : exitWordBits.length = 0x10 := LittleEndian.length_encode _ _

/-! ## Filling in an exit -/

/-- The exit fields are written in three places. -/
theorem prepareExit_eq (g : Ghcb) (address : Nat) :
    g.prepareExit (address + 0x800) =
      ((g.writeBytes 0x390 (exitWords address)).writeBytes 0x3f0 exitWordBits).writeBytes 0xffa
        (encode 2 2) := by
  have bits : exitBitmap.bits.toNat = wordBits [0x390, 0x398, 0x3a0, 0x3a8] := by decide
  rw [exitWords, writeBytes_append, writeBytes_append, writeBytes_append, exitWordBits, ← bits]
  simp only [List.length_append, LittleEndian.length_encode]
  rfl

/-- When a page is taken apart at the places of the exit fields, the parts between them
stay. -/
theorem toBytes_prepareExit {g : Ghcb} {address : Nat}
    {before words between bits between' version after : List UInt8}
    (whole : g.toBytes =
      before ++ (words ++ (between ++ (bits ++ (between' ++ (version ++ after))))))
    (l₁ : before.length = 0x390) (l₂ : words.length = 0x20) (l₃ : between.length = 0x40)
    (l₄ : bits.length = 0x10) (l₅ : between'.length = 0xbfa) (l₆ : version.length = 2) :
    (g.prepareExit (address + 0x800)).toBytes =
      before ++ (exitWords address ++ (between ++ (exitWordBits ++
        (between' ++ (encode 2 2 ++ after))))) := by
  have first : (g.writeBytes 0x390 (exitWords address)).toBytes =
      (before ++ exitWords address ++ between) ++ (bits ++ (between' ++ (version ++ after))) := by
    rw [toBytes_writeBytes whole l₁ (l₂.trans (length_exitWords address).symm)]
    simp only [List.append_assoc]
  have second : ((g.writeBytes 0x390 (exitWords address)).writeBytes 0x3f0 exitWordBits).toBytes =
      (before ++ exitWords address ++ between ++ exitWordBits ++ between') ++
        (version ++ after) := by
    have place : (before ++ exitWords address ++ between).length = 0x3f0 := by
      simp only [List.length_append, l₁, length_exitWords, l₃]
    rw [toBytes_writeBytes first place (l₄.trans length_exitWordBits.symm)]
    simp only [List.append_assoc]
  have place : (before ++ exitWords address ++ between ++ exitWordBits ++ between').length =
      0xffa := by
    simp only [List.length_append, l₁, length_exitWords, l₃, length_exitWordBits, l₅]
  rw [prepareExit_eq,
    toBytes_writeBytes second place (l₆.trans (LittleEndian.length_encode 2 2).symm)]
  simp only [List.append_assoc]

theorem drop_eq_append (bytes : List UInt8) (i count : Nat) :
    bytes.drop i = (bytes.drop i).take count ++ bytes.drop (i + count) := by
  rw [← List.drop_drop, List.take_append_drop]

/-- Whatever is on the page, an exit fills in its own fields and nothing else. -/
theorem toBytes_prepareExit_eq_stamped (g : Ghcb) (address : Nat) :
    (g.prepareExit (address + 0x800)).toBytes = stamped address g.toBytes := by
  have length : g.toBytes.length = 0x1000 := g.length_toBytes
  have whole : g.toBytes = g.toBytes.take 0x390 ++ ((g.toBytes.drop 0x390).take 0x20 ++
      ((g.toBytes.drop 0x3b0).take 0x40 ++ ((g.toBytes.drop 0x3f0).take 0x10 ++
        ((g.toBytes.drop 0x400).take 0xbfa ++ ((g.toBytes.drop 0xffa).take 2 ++
          g.toBytes.drop 0xffc))))) := by
    rw [← drop_eq_append _ 0xffa, ← drop_eq_append _ 0x400, ← drop_eq_append _ 0x3f0,
      ← drop_eq_append _ 0x3b0, ← drop_eq_append _ 0x390, List.take_append_drop]
  refine toBytes_prepareExit whole ?_ ?_ ?_ ?_ ?_ ?_ <;>
    simp only [List.length_take, List.length_drop, length] <;> omega

/-! ## The request -/

/-- Header and entries follow each other. -/
theorem placed_eq (entries : List Entry) :
    Protocol.placed entries = zero.writeBytes 0x800 (requestBytes entries) := by
  rw [requestBytes, writeBytes_append]
  simp only [List.length_append, LittleEndian.length_encode]
  rfl

theorem length_requestBytes (entries : List Entry) :
    (requestBytes entries).length = 8 + 8 * entries.length := by
  simp only [requestBytes, List.length_append, LittleEndian.length_encode]
  exact congrArg (8 + ·) (length_entryBytes entries)

theorem toBytes_placed {entries : List Entry} (few : entries.length ≤ Change.maxEntries) :
    (Protocol.placed entries).toBytes =
      zeros 0x800 ++ (requestBytes entries ++ zeros (0x7f8 - 8 * entries.length)) := by
  unfold Change.maxEntries at few
  have size : pageSize = 0x800 + (8 + 8 * entries.length + (0x7f8 - 8 * entries.length)) := by
    unfold pageSize
    omega
  have whole : zero.toBytes = zeros 0x800 ++
      (zeros (8 + 8 * entries.length) ++ zeros (0x7f8 - 8 * entries.length)) := by
    rw [toBytes_zero, size, zeros_add, zeros_add]
  rw [placed_eq, toBytes_writeBytes whole (length_zeros _)
    ((length_zeros _).trans (length_requestBytes entries).symm)]

/-- The page of a request at its first exit. -/
theorem toBytes_prepareExit_placed {entries : List Entry} (address : Nat)
    (few : entries.length ≤ Change.maxEntries) :
    ((Protocol.placed entries).prepareExit (address + 0x800)).toBytes =
      requestImage address entries := by
  have low : zeros 0x800 =
      zeros 0x390 ++ (zeros 0x20 ++ (zeros 0x40 ++ (zeros 0x10 ++ zeros 0x400))) := by
    rw [← zeros_add, ← zeros_add, ← zeros_add, ← zeros_add]
  have high : zeros (0x7f8 - 8 * entries.length) =
      zeros (0x7f2 - 8 * entries.length) ++ (zeros 2 ++ zeros 4) := by
    unfold Change.maxEntries at few
    rw [← zeros_add, ← zeros_add]
    exact congrArg zeros (by omega)
  have whole : (Protocol.placed entries).toBytes =
      zeros 0x390 ++ (zeros 0x20 ++ (zeros 0x40 ++ (zeros 0x10 ++
        (zeros 0x400 ++ requestBytes entries ++ zeros (0x7f2 - 8 * entries.length) ++
          (zeros 2 ++ zeros 4))))) := by
    rw [toBytes_placed few, low, high]
    simp only [List.append_assoc]
  have length : (zeros 0x400 ++ requestBytes entries ++
      zeros (0x7f2 - 8 * entries.length)).length = 0xbfa := by
    unfold Change.maxEntries at few
    simp only [List.length_append, length_zeros, length_requestBytes]
    omega
  exact toBytes_prepareExit whole (length_zeros _) (length_zeros _) (length_zeros _)
    (length_zeros _) length (length_zeros _)

end Ghcb

namespace Protocol

/-! ## What the hypervisor is shown -/

/-- **What the hypervisor is shown.**  Let a request of a permitted length be exchanged in any
world, from any page on.  Then there is an exit, and the first one shows the request, the
fields of the exit and zeros, down to the last byte.  Every later one shows what the
hypervisor left at the exit before, with nothing but the fields of the exit filled in.
The exchange returns with what the last exit left.  And no exit gives away another page. -/
theorem shown_of_world {σ : Type} (p : Protocol) (world : Program.World calls σ) (s : σ)
    (page : Ghcb) {entries : List Entry} (nonempty : 0 < entries.length)
    (few : entries.length ≤ Change.maxEntries) :
    let run := ((p.exchange entries).play page).run world s #[]
    let taken := exits run.2.2.toList
    let address := p.gpa.start.val
    (∃ first later, taken = first :: later ∧
      first.shown.toBytes = Ghcb.requestImage address entries) ∧
    (∀ before e e' after, taken = before ++ e :: e' :: after →
      e'.shown.toBytes = Ghcb.stamped address e.left.toBytes) ∧
    taken.getLast?.map Exit.left = some run.1.2 ∧
    ∀ e ∈ taken, e.gpa = p.gpa := by
  intro run taken address
  obtain ⟨events, reaches, -, trace⟩ :=
    Program.exists_follows_of_run world ((p.exchange entries).play page) s #[]
  obtain ⟨during, outcome, exitsRun, same, -⟩ :=
    (exchangeRun_of_ends reaches).exists_exitsRun nonempty few
  have whole : taken = exits during := (congrArg exits trace).trans same
  have linked : Linked p (placed entries) taken run.1.2 := whole ▸ exitsRun.linked
  have some : taken ≠ [] := whole ▸ exitsRun.exits_ne_nil
  refine ⟨?_, ?_, ?_, linked.gpa_eq⟩
  · obtain ⟨first, later, split⟩ := List.exists_cons_of_ne_nil some
    refine ⟨first, later, split, ?_⟩
    rw [split] at linked
    rw [linked.2.1]
    exact Ghcb.toBytes_prepareExit_placed address few
  · intro before e e' after split
    rw [split] at linked
    rw [linked.shown_eq]
    exact Ghcb.toBytes_prepareExit_eq_stamped e.left address
  · obtain ⟨before, last, split⟩ := (List.eq_nil_or_concat taken).resolve_left some
    rw [List.concat_eq_append] at split
    rw [split] at linked ⊢
    rw [List.getLast?_concat, Option.map_some, linked.left_eq]

/-- A page with a one in every bit. -/
def ones : Ghcb := ⟨.replicate Ghcb.pageSize 0xff⟩

/-- A hypervisor that leaves nothing but ones. -/
def blotting : Program.World calls Unit
  | .exit _ _, u => (ones, u)
  | .pvalidate .., u => (.ok (), u)
  | .maskInterrupts, u => ((), u)
  | .unmaskInterrupts, u => ((), u)
  | .terminate, u => ((), u)
  | .log _, u => ((), u)

/-- None of the ones that are on the page at the beginning is shown. -/
theorem shown_of_world_blotting :
    let p : Protocol := { gpa := ⟨⟨0x1000, by decide⟩, by decide⟩ }
    let taken := exits (((p.exchange [.zero, .zero]).play ones).run blotting () #[]).2.2.toList
    ∃ first later, taken = first :: later ∧
      first.shown.toBytes = Ghcb.requestImage p.gpa.start.val [.zero, .zero] := by
  intro p taken
  have nonempty : 0 < [Entry.zero, .zero].length := by decide
  have few : [Entry.zero, .zero].length ≤ Change.maxEntries := by decide
  exact (shown_of_world p blotting () ones nonempty few).1

end Protocol

end SnpMemory

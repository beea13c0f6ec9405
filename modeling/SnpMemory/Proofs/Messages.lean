/-
# `SnpMemory.Proofs.Messages` — messages in the protocol register

The hypervisor is told one thing at a time, by the value of one register, and has to know
from the value alone what it is.  `Message.ofValue?` reads a value:

    bits 11:0     the kind of message
    bits 51:12    the address of a page
    bits 55:52    the operation, in a request for a change
    bits 23:16    the reason, in a request for the end

Every message is read from its own value (`ofValue?_value`), so no two messages have a
value in common.  The value of a request for a change is also the word of an entry, for the
same page in the other way of asking, with the kind in the low bits
(`value_changePage_eq_or`).  And nothing that a guest says can be taken for a response.
-/
import SnpMemory.Msr
import SnpMemory.Protocol

namespace SnpMemory.Msr

/-! ## Values as numbers -/

namespace Message

theorem toNat_pageAt (gpa : Frame .small) : (pageAt gpa).value.toNat = gpa.start.val := by
  have := gpa.start.val_lt
  simp only [value, UInt64.toNat_ofNat']
  exact Nat.mod_eq_of_lt (by omega)

theorem toNat_changePage (page : Frame .small) (assignment : Assignment) :
    (changePage page assignment).value.toNat =
      0x014 + page.start.val + assignment.code * 0x10000000000000 := by
  have := page.start.val_lt
  have := assignment.code_lt
  simp only [value, UInt64.toNat_ofNat']
  exact Nat.mod_eq_of_lt (by omega)

theorem toNat_terminate (reason : TerminationReason) :
    (terminate reason).value.toNat = 0x100 + reason.code * 0x10000 := by
  cases reason
  rfl

/-- A page has room above its start for the kind of a message. -/
theorem start_add_le (page : Frame .small) : page.start.val + 0x1000 ≤ 0x10000000000000 :=
  page.end_le

/-- The low twelve bits of a message, by its kind. -/
def kind : Message → Nat
  | pageAt _ => 0
  | changePage .. => 0x014
  | terminate _ => 0x100

theorem value_mod (m : Message) : m.value.toNat % 0x1000 = m.kind := by
  cases m with
  | pageAt gpa =>
      have aligned : 0x1000 ∣ gpa.start.val := gpa.aligned
      rw [toNat_pageAt]
      exact Nat.mod_eq_zero_of_dvd aligned
  | changePage page assignment =>
      have aligned : 0x1000 ∣ page.start.val := page.aligned
      rw [toNat_changePage]
      show _ = 0x014
      omega
  | terminate reason =>
      rw [toNat_terminate]
      show _ = 0x100
      omega

/-! ## Reading a message -/

end Message

def TerminationReason.ofCode? : Nat → Option TerminationReason
  | 0 => some general
  | _ => none

/-- The message that a value of the register stands for. -/
def Message.ofValue? (value : UInt64) : Option Message :=
  let page : Frame .small := .containing .small (.truncate value.toNat)
  match value.toNat % 0x1000 with
  | 0 => some (.pageAt page)
  | 0x014 => (Assignment.ofCode? (value.toNat >>> 52 % 16)).map (.changePage page)
  | 0x100 => (TerminationReason.ofCode? (value.toNat >>> 16 % 256)).map .terminate
  | _ => none

namespace Message

/-- The page in a message is the frame that the low 52 bits of the value lie in. -/
theorem containing_pageAt (gpa : Frame .small) :
    Frame.containing .small (.truncate (pageAt gpa).value.toNat) = gpa := by
  rw [toNat_pageAt, PhysAddr.truncate_self, Frame.containing_start]

theorem containing_changePage (page : Frame .small) (assignment : Assignment) :
    Frame.containing .small (.truncate (changePage page assignment).value.toNat) = page := by
  have inMemory := start_add_le page
  have low : (PhysAddr.truncate (changePage page assignment).value.toNat).val =
      page.start.val + 0x014 := by
    rw [toNat_changePage]
    simp only [PhysAddr.truncate]
    omega
  apply Frame.containing_of_mem
  · rw [low]
    exact Nat.le_add_right _ _
  · rw [low]
    exact Nat.add_lt_add_left (by decide) _

/-- The operation in a request for a change is in the bits 55:52. -/
theorem operation_changePage (page : Frame .small) (assignment : Assignment) :
    (changePage page assignment).value.toNat >>> 52 % 16 = assignment.code := by
  have := start_add_le page
  have := assignment.code_lt
  rw [toNat_changePage, Nat.shiftRight_eq_div_pow]
  omega

/-- A message is read from its own value. -/
theorem ofValue?_value (m : Message) : ofValue? m.value = some m := by
  have kind := m.value_mod
  cases m with
  | pageAt gpa => simp only [ofValue?, kind, Message.kind, containing_pageAt]
  | changePage page assignment =>
      simp only [ofValue?, kind, Message.kind, containing_changePage, operation_changePage,
        Assignment.ofCode?_code, Option.map_some]
  | terminate reason =>
      cases reason
      rfl

/-- Messages with the same value are the same. -/
theorem value_inj {m m' : Message} : m.value = m'.value ↔ m = m' := by
  constructor
  · intro same
    have read := ofValue?_value m
    rw [same, ofValue?_value] at read
    exact (Option.some.inj read).symm
  · rintro rfl
    rfl

/-! ## Requests for a change, bit by bit -/

section

variable (page : Frame .small) (assignment : Assignment)

/-- A request for a change, put together by shifts: its parts have no bit in common. -/
theorem value_changePage : (changePage page assignment).value =
    UInt64.ofNat (0x014 ||| page.start.val ||| assignment.code <<< 52) := by
  obtain ⟨k, hk⟩ : 2 ^ 12 ∣ page.start.val := page.aligned
  have inMemory := start_add_le page
  have low : 2 ^ 12 * k + 0x014 < 2 ^ 52 := by omega
  have parts : 0x014 ||| page.start.val ||| assignment.code <<< 52 =
      0x014 + page.start.val + assignment.code * 0x10000000000000 := by
    calc
      0x014 ||| page.start.val ||| assignment.code <<< 52
        = assignment.code <<< 52 ||| (2 ^ 12 * k ||| 0x014) := by
          rw [hk, Nat.or_comm 0x014, Nat.or_comm]
      _ = assignment.code <<< 52 + (2 ^ 12 * k + 0x014) := by
          rw [← Nat.two_pow_add_eq_or_of_lt (by decide), ← Nat.shiftLeft_add_eq_or_of_lt low]
      _ = 0x014 + page.start.val + assignment.code * 0x10000000000000 := by
          rw [hk, Nat.shiftLeft_eq]
          omega
  rw [parts, value]

/-- A request for a change is the entry for the same page, with the kind in the low bits. -/
theorem value_changePage_eq_or : (changePage page assignment).value =
    (Entry.ofPage page.start .small assignment).raw ||| 0x014 := by
  obtain ⟨k, hk⟩ : 2 ^ 12 ∣ page.start.val := page.aligned
  have word : (Entry.ofPage page.start .small assignment).raw.toNat =
      2 ^ 12 * (assignment.code * 0x10000000000 + k) := by
    rw [Entry.toNat_raw_ofPage, hk]
    simp only [PageSize.code]
    omega
  apply UInt64.toNat_inj.mp
  rw [toNat_changePage, UInt64.toNat_or, word, hk]
  show _ = _ ||| 0x014
  rw [← Nat.two_pow_add_eq_or_of_lt (by decide)]
  omega

end

/-! ## What a response is taken from, and a message made for -/

/-- A message is no response. -/
theorem ofValue?_response (m : Message) : Response.ofValue? m.value = none := by
  have kind := m.value_mod
  simp only [Response.ofValue?, kind]
  cases m <;> simp [Message.kind]

end Message

variable {address : PhysAddr} {assignment : Assignment}

theorem pageAddress_eq_ok_iff {gpa : Frame .small} :
    Protocol.pageAddress address = .ok gpa ↔ gpa.start = address := by
  rw [← Frame.ofStart?_eq_some_iff, Protocol.pageAddress]
  split <;> simp [*]

theorem changePageAt_eq_ok_iff {m : Message} : changePageAt address assignment = .ok m ↔
    ∃ page : Frame .small, page.start = address ∧ m = .changePage page assignment := by
  simp only [← Frame.ofStart?_eq_some_iff, changePageAt]
  split
  · simp [*, eq_comm]
  · simp [*]

theorem changePageAt_of_not_dvd (unaligned : ¬ 0x1000 ∣ address.val) :
    changePageAt address assignment = .error .unaligned := by
  simp only [changePageAt]
  split
  · rename_i page start
    rw [Frame.ofStart?_eq_some_iff] at start
    exact absurd (Frame.exists_start_iff.mp ⟨page, start⟩) unaligned
  · rfl

/-- **Messages are told apart.**  The low bits of a message's value say what kind of message
it is, and the whole message is read from its value, so that two messages have one value
only if they are the same; and none of them is taken for a response.  A request for a change
has the address in the bits 51:12 and the operation in the bits 55:52.  It is the entry for
the same 4KiB page, except for the kind in the low twelve bits.  Addresses of pages and
requests are made for the multiples of 4KiB, and for no other address. -/
theorem Message.value_determines :
    (∀ m : Message, m.value.toNat % 0x1000 = m.kind ∧ ofValue? m.value = some m ∧
      Response.ofValue? m.value = none) ∧
    (∀ m m' : Message, m.value = m'.value ↔ m = m') ∧
    (∀ (page : Frame .small) (assignment : Assignment),
      let value := (changePage page assignment).value
      let word := (Entry.ofPage page.start .small assignment).raw
      (value.toNat >>> 12 % 0x10000000000) <<< 12 = page.start.val ∧
      value.toNat >>> 52 % 16 = assignment.code ∧
      value = word ||| 0x014 ∧ value.toNat >>> 12 = word.toNat >>> 12) ∧
    (∀ gpa : Frame .small, (pageAt gpa).value.toNat = gpa.start.val) ∧
    ∀ (address : PhysAddr) (assignment : Assignment),
      ((∃ gpa, Protocol.pageAddress address = .ok gpa) ↔ 0x1000 ∣ address.val) ∧
      (∀ gpa, Protocol.pageAddress address = .ok gpa ↔ gpa.start = address) ∧
      ((∃ m, changePageAt address assignment = .ok m) ↔ 0x1000 ∣ address.val) ∧
      ∀ m, changePageAt address assignment = .ok m ↔
        ∃ page : Frame .small, page.start = address ∧ m = changePage page assignment := by
  refine ⟨?_, fun _ _ => value_inj, ?_, toNat_pageAt, ?_⟩
  · intro m
    exact ⟨m.value_mod, m.ofValue?_value, m.ofValue?_response⟩
  · intro page assignment value word
    have inMemory := start_add_le page
    have aligned : 0x1000 ∣ page.start.val := page.aligned
    have number : value.toNat = _ := toNat_changePage page assignment
    have entry : word.toNat = _ := Entry.toNat_raw_ofPage page.start .small assignment
    have frame : (value.toNat >>> 12 % 0x10000000000) <<< 12 = page.start.val := by
      rw [number, Nat.shiftLeft_eq, Nat.shiftRight_eq_div_pow]
      omega
    have above : value.toNat >>> 12 = word.toNat >>> 12 := by
      rw [number, entry, Nat.shiftRight_eq_div_pow, Nat.shiftRight_eq_div_pow]
      simp only [PageSize.code]
      omega
    exact ⟨frame, operation_changePage page assignment, value_changePage_eq_or page assignment,
      above⟩
  · intro address assignment
    have starts : (∃ page : Frame .small, page.start = address) ↔ 0x1000 ∣ address.val :=
      Frame.exists_start_iff
    refine ⟨?_, fun _ => pageAddress_eq_ok_iff, ?_, fun _ => changePageAt_eq_ok_iff⟩
    · simp only [pageAddress_eq_ok_iff, starts]
    · simp only [changePageAt_eq_ok_iff, ← starts]
      constructor
      · rintro ⟨m, page, start, -⟩
        exact ⟨page, start⟩
      · rintro ⟨page, start⟩
        exact ⟨_, page, start, rfl⟩

end SnpMemory.Msr

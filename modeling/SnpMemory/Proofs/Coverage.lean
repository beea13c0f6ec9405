/-
# `SnpMemory.Proofs.Coverage` — a finished change has changed each page once

A change works batch by batch, cuts each batch into requests, and may have to take
a large page apart.  When it ends well, none of this shows in what it has done
(`covers_once_of_ends`):

* the entries handed over, put together, tile the range (`exchanged_eq`);
* each page of the range got its mark from one call (`countP_marks_eq`);
* no call and no entry is about any other page.

Both counts are additive over the events of a run, so each part of a run adds what
its own entries cover, and the tiling covers each page once.
-/
import SnpMemory.Proofs.Ordering

namespace SnpMemory.Change

/-! ## What the events of a run have done -/

/-- The entries in an exchange. -/
def Event.entries : Event → List Entry
  | ⟨.exchange entries, _⟩ => entries
  | _ => []

/-- The entries handed to the hypervisor, in order. -/
def exchanged (events : List Event) : List Entry := events.flatMap Event.entries

/-- Whether an event is a successful call for a block with the page in it. -/
def marks (page : Nat) : Event → Bool
  | ⟨.pvalidate address size _, answer⟩ =>
    match (answer : Except PvalidateError Unit) with
    | .ok () => decide ((⟨address, size⟩ : Block).Covers page)
    | .error _ => false
  | _ => false

section

variable {address : PhysAddr} {size : PageSize} {v : Validation} {page : Nat}

@[simp] theorem exchanged_nil : exchanged [] = [] := rfl

@[simp] theorem exchanged_append (events more : List Event) :
    exchanged (events ++ more) = exchanged events ++ exchanged more :=
  List.flatMap_append

@[simp] theorem exchanged_pvalidate (answer : Except PvalidateError Unit) (events : List Event) :
    exchanged (.pvalidate address size v answer :: events) = exchanged events := rfl

@[simp] theorem exchanged_log (line : LogLine) (events : List Event) :
    exchanged (.log line :: events) = exchanged events := rfl

@[simp] theorem exchanged_exchange (entries : List Entry) (answer : Except Stop Unit)
    (events : List Event) :
    exchanged (.exchange entries answer :: events) = entries ++ exchanged events := rfl

@[simp] theorem marks_ok :
    marks page (.pvalidate address size v (.ok ())) =
      decide ((⟨address, size⟩ : Block).Covers page) := rfl

@[simp] theorem marks_error (error : PvalidateError) :
    marks page (.pvalidate address size v (.error error)) = false := rfl

@[simp] theorem marks_log (line : LogLine) : marks page (.log line) = false := rfl

@[simp] theorem marks_exchange (entries : List Entry) (answer : Except Stop Unit) :
    marks page (.exchange entries answer) = false := rfl

end

variable {entries : List Entry} {events : List Event} {result : Except Stop Unit} {page : Nat}

/-! ## The entries -/

theorem exchanged_of_marking {v : Validation}
    (h : ∀ ev ∈ events, ∃ b, Marking v b ev) : exchanged events = [] := by
  refine List.flatMap_eq_nil_iff.mpr ?_
  intro ev mem
  obtain ⟨b, marking⟩ := h ev mem
  cases marking with
  | log => rfl
  | call => rfl

theorem EntriesRun.exchanged_eq (run : EntriesRun entries events result) :
    exchanged events = [] := by
  induction run with
  | done => rfl
  | invalid => rfl
  | stopped _ block => exact exchanged_of_marking fun ev mem => ⟨_, block.marking ev mem⟩
  | next _ block _ ih =>
      rw [exchanged_append, ih, exchanged_of_marking fun ev mem => ⟨_, block.marking ev mem⟩]
      rfl

theorem RequestsRun.exchanged_eq {requests : List (List Entry)}
    (run : RequestsRun requests events result) (ended : result = .ok ()) :
    Change.exchanged events = requests.flatten := by
  induction run with
  | done => rfl
  | failed => cases ended
  | next _ ih => rw [exchanged_exchange, ih ended, List.flatten_cons]

theorem BatchRun.exchanged_eq {assignment : Assignment}
    (run : BatchRun entries assignment events (.ok ())) : exchanged events = entries := by
  cases assignment with
  | shared =>
      cases run with
      | through h h' =>
          rw [exchanged_append, h.exchanged_eq, h'.exchanged_eq rfl, flatten_requests]
          rfl
  | guestOnly =>
      cases run with
      | through h h' =>
          rw [exchanged_append, h.exchanged_eq rfl, h'.exchanged_eq, flatten_requests,
            List.append_nil]

theorem RangeRun.exchanged_eq {goal : Goal} {capacity address : Nat}
    (run : RangeRun goal capacity address events result) (ended : result = .ok ()) :
    exchanged events = goal.tiling address := by
  induction run with
  | done none => rw [Goal.tiling_of_le none, exchanged_nil]
  | limited => cases ended
  | stopped => cases ended
  | next _ walked batch _ ih =>
      rw [exchanged_append, batch.exchanged_eq, ih ended, Goal.tiling_eq_append walked]

/-! A run that stops has handed over the first of these entries. -/

theorem RequestsRun.exchanged_isPrefix {requests : List (List Entry)}
    (run : RequestsRun requests events result) : Change.exchanged events <+: requests.flatten := by
  induction run with
  | done => exact List.prefix_refl _
  | failed => exact (List.prefix_append_right_inj _).mpr List.nil_prefix
  | next _ ih => exact (List.prefix_append_right_inj _).mpr ih

theorem BatchRun.exchanged_isPrefix {assignment : Assignment}
    (run : BatchRun entries assignment events result) : exchanged events <+: entries := by
  cases assignment with
  | shared =>
      cases run with
      | stopped h =>
          rw [h.exchanged_eq]
          exact List.nil_prefix
      | through h h' =>
          rw [exchanged_append, h.exchanged_eq, ← flatten_requests entries]
          exact h'.exchanged_isPrefix
  | guestOnly =>
      cases run with
      | stopped h =>
          rw [← flatten_requests entries]
          exact h.exchanged_isPrefix
      | through h h' =>
          rw [exchanged_append, h'.exchanged_eq, List.append_nil, ← flatten_requests entries]
          exact h.exchanged_isPrefix

theorem RangeRun.exchanged_isPrefix {goal : Goal} {capacity address : Nat}
    (run : RangeRun goal capacity address events result) :
    exchanged events <+: goal.tiling address := by
  induction run with
  | done => exact List.nil_prefix
  | limited => exact List.nil_prefix
  | stopped _ walked batch =>
      rw [Goal.tiling_eq_append walked]
      exact batch.exchanged_isPrefix.trans (List.prefix_append _ _)
  | next _ walked batch _ ih =>
      rw [exchanged_append, batch.exchanged_eq, Goal.tiling_eq_append walked]
      exact (List.prefix_append_right_inj _).mpr ih

/-- The entries handed over for an order are the first ones of its tiling. -/
theorem OrderRun.exchanged_isPrefix {order : Order} {capacity : Nat}
    (run : OrderRun order capacity events result) :
    exchanged events <+: order.goal.tiling order.start.start.val := by
  cases run with
  | noRoom => exact List.nil_prefix
  | noRange => exact List.nil_prefix
  | accepted _ _ run => exact run.exchanged_isPrefix

theorem OrderRun.exchanged_eq {order : Order} {capacity : Nat}
    (run : OrderRun order capacity events (.ok ())) :
    exchanged events = order.goal.tiling order.start.start.val := by
  cases run with
  | accepted _ _ run => exact run.exchanged_eq rfl

/-! ## The marks -/

theorem countP_range_eq (first page count : Nat) :
    (List.range count).countP (fun n => first + n = page) =
      if first ≤ page ∧ page < first + count then 1 else 0 := by
  induction count with
  | zero => rw [List.range_zero, List.countP_nil, if_neg (by omega)]
  | succ count ih =>
      rw [List.range_succ, List.countP_append, ih, List.countP_singleton]
      simp only [decide_eq_true_eq]
      split <;> split <;> split <;> omega

theorem PagesRun.countP_marks {first : PhysAddr} {v : Validation} {ns : List Nat}
    (run : PagesRun first v ns events result) (ended : result = .ok ())
    (aligned : 0x1000 ∣ first.val) :
    events.countP (marks page) = ns.countP (fun n => first.val / 0x1000 + n = page) := by
  induction run with
  | done => rfl
  | beyond => cases ended
  | failed => cases ended
  | @next n rest a _ _ place _ ih =>
      have here : (⟨a, .small⟩ : Block).Covers page ↔ first.val / 0x1000 + n = page := by
        have := val_of_add? place
        simp only [Block.Covers, PageSize.bytes] at *
        omega
      simp only [List.countP_cons, ih ended, marks_ok, decide_eq_true_eq, here]

theorem BlockRun.countP_marks {address : PhysAddr} {v : Validation} {size : PageSize}
    (run : BlockRun address v size events (.ok ())) (aligned : 0x1000 ∣ address.val) :
    events.countP (marks page) = if (⟨address, size⟩ : Block).Covers page then 1 else 0 := by
  cases run with
  | whole => simp only [List.countP_singleton, marks_ok, decide_eq_true_eq]
  | split pages =>
      have same : (address.val / 0x1000 ≤ page ∧ page < address.val / 0x1000 + 512) ↔
          (⟨address, .large⟩ : Block).Covers page := by
        simp only [Block.Covers, PageSize.bytes]
        omega
      simp only [List.countP_cons, pages.countP_marks rfl aligned, marks_error, marks_log,
        smallPagesPerLarge, countP_range_eq, same, Bool.false_eq_true, if_false, Nat.add_zero]

theorem EntriesRun.countP_marks (run : EntriesRun entries events result)
    (ended : result = .ok ()) :
    events.countP (marks page) = entries.countP (fun e => e.block.Covers page) := by
  induction run with
  | done => rfl
  | invalid => cases ended
  | stopped => cases ended
  | @next e rest _ _ _ _ _ block _ ih =>
      rw [List.countP_append, block.countP_marks e.dvd_address, ih ended, List.countP_cons,
        Nat.add_comm]
      simp only [decide_eq_true_eq]
      rfl

theorem RequestsRun.countP_marks {requests : List (List Entry)}
    (run : RequestsRun requests events result) : events.countP (marks page) = 0 := by
  refine List.countP_eq_zero.mpr ?_
  intro ev mem
  obtain ⟨request, -, answer, rfl⟩ := run.exchange ev mem
  exact Bool.false_ne_true

theorem BatchRun.countP_marks {assignment : Assignment}
    (run : BatchRun entries assignment events (.ok ())) :
    events.countP (marks page) = entries.countP (fun e => e.block.Covers page) := by
  cases assignment with
  | shared =>
      cases run with
      | through h h' => rw [List.countP_append, h.countP_marks rfl, h'.countP_marks, Nat.add_zero]
  | guestOnly =>
      cases run with
      | through h h' => rw [List.countP_append, h.countP_marks, h'.countP_marks rfl, Nat.zero_add]

theorem RangeRun.countP_marks {goal : Goal} {capacity address : Nat}
    (run : RangeRun goal capacity address events result) (ended : result = .ok ()) :
    events.countP (marks page) =
      (goal.tiling address).countP (fun e => e.block.Covers page) := by
  induction run with
  | done none => rw [Goal.tiling_of_le none, List.countP_nil, List.countP_nil]
  | limited => cases ended
  | stopped => cases ended
  | next _ walked batch _ ih =>
      rw [List.countP_append, batch.countP_marks, ih ended, Goal.tiling_eq_append walked,
        List.countP_append]

/-! ## A finished change -/

/-- **Exact coverage.**  When an order ends well, whatever the answers and the buffer were:
the entries handed over tile its range; each page of the range got its mark from exactly
one successful call, and the mark is that of the assignment; and no call and no entry was
about a page outside the range. -/
theorem covers_once_of_ends (order : Order) {buffer buffer' : List Entry} {events : List Event}
    (run : (tryChange order).Ends buffer events (.ok ()) buffer') :
    order.goal.Tiles order.start.start.val (exchanged events) ∧
    (∀ page, order.Spans page → events.countP (marks page) = 1) ∧
    (∀ address size v, Event.pvalidate address size v (.ok ()) ∈ events →
      (v = .validated ↔ order.assignment = .guestOnly)) ∧
    ∀ page, ¬ order.Spans page →
      (∀ address size v answer, Event.pvalidate address size v answer ∈ events →
        ¬ (⟨address, size⟩ : Block).Covers page) ∧
      ∀ entries answer, Event.exchange entries answer ∈ events →
        ∀ e ∈ entries, ¬ e.block.Covers page := by
  have orderRun := exists_ends_tryChange_iff.mp ⟨buffer', run⟩
  have proper := orderRun.proper
  cases orderRun with
  | accepted room within rangeRun =>
      have tiles := Order.tiles within
      refine ⟨?_, fun page spans => ?_, fun address size v mem => ?_, fun page outside => ⟨?_, ?_⟩⟩
      · rw [exchanged_log, rangeRun.exchanged_eq rfl]
        exact tiles
      · rw [List.countP_cons, marks_log, rangeRun.countP_marks rfl, tiles.countP_covers]
        exact if_pos spans
      · obtain ⟨past, mark, -⟩ := proper.exists_past mem
        rw [mark]
        cases order.assignment <;> decide
      · intro address size v answer mem covers
        obtain ⟨past, -, inside⟩ := proper.exists_past mem
        exact outside (inside page covers).1
      · intro entries answer mem e mem' covers
        obtain ⟨past, asked⟩ := proper.exists_past mem
        exact outside ((asked e mem').2 page covers).1

/-- An order to take back 514 pages, with a 2MiB block in the middle of them. -/
def takeBlock : Order where
  start := ⟨⟨0x1ff000, by decide⟩, by decide⟩
  pageCount := 514
  assignment := .guestOnly
  useLarge := true

def takeBlockEntry (address : PhysAddr) (size : PageSize) : Entry :=
  .ofPage address size .guestOnly

/-- Two slots make two batches of it, and the block in the first one is found split. -/
theorem covers_once_of_ends_takeBlock :
    ∃ events buffer', (tryChange takeBlock).Ends [.zero, .zero] events (.ok ()) buffer' ∧
      Event.pvalidate ⟨0x200000, by decide⟩ .large .validated (.error .sizeMismatch) ∈ events ∧
      takeBlock.goal.Tiles 0x1ff000 (exchanged events) ∧
      events.countP (marks 0x200) = 1 := by
  let before := takeBlockEntry ⟨0x1ff000, by decide⟩ .small
  let block := takeBlockEntry ⟨0x200000, by decide⟩ .large
  let after := takeBlockEntry ⟨0x400000, by decide⟩ .small
  have asks : ∀ address size, (takeBlockEntry address size).assignment? = some .guestOnly :=
    fun _ _ => Entry.assignment?_ofPage _ _ _
  obtain ⟨pages, split⟩ := BlockRun.exists_split block.address .validated (by decide)
  have place : block.address = ⟨0x200000, by decide⟩ := by decide
  have size : block.size = .large := Entry.size_ofPage _ _ _
  rw [← size] at split
  have firstBatch : BatchRun [before, block] .guestOnly _ (.ok ()) :=
    .through (.granted _) (.next (asks _ _) (.whole _) (.next (asks _ _) split .done))
  have lastBatch : BatchRun [after] .guestOnly _ (.ok ()) :=
    .through (.granted _) (.next (asks _ _) (.whole _) .done)
  have run : OrderRun takeBlock [Entry.zero, Entry.zero].length _ (.ok ()) :=
    .accepted (by decide) (by decide) (.next (by decide) rfl firstBatch
      (.next (by decide) rfl lastBatch (.done (Nat.le_refl _))))
  obtain ⟨buffer', ends⟩ := exists_ends_tryChange_iff.mpr run
  obtain ⟨tiles, once, -⟩ := covers_once_of_ends takeBlock ends
  refine ⟨_, buffer', ends, ?_, tiles, once 0x200 (by decide)⟩
  rw [place, size]
  simp only [List.mem_cons, List.mem_append]
  exact .inr (.inl (.inr (.inr (.inl (.inl trivial)))))

end SnpMemory.Change

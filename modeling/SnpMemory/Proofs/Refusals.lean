/-
# `SnpMemory.Proofs.Refusals` — what is refused, and that nothing has happened then

An order is refused if there is no room for an entry, or else if its range leaves memory.
The guest computes the end of the range in 64-bit words, and could be misled by a product
or a sum that wraps around; it is not, since each of them is checked
(`Order.stop?_eq_none_iff`).  A request to the hypervisor is refused if it has no entries,
or more than a request can hold.  `Order.refusal?` and `Protocol.refusal?` say so in one
place.

A refusal comes before everything else: the program of a refused order is its error and
nothing more (`play_tryChange_of_refusal`), and that of a refused request masks and unmasks
interrupts around its error (`play_exchange_of_refusal`).  Whatever is not refused gets as
far as a call.  An order that fails has then met a fatal answer (`FailStop`), and a request
has taken an exit (`ExitsRun.exits_ne_nil`).
-/
import SnpMemory.Proofs.Work

namespace SnpMemory

open Change (Order tryChange)

/-! ## Orders -/

/-- The errors with which an order is refused. -/
inductive ChangeError.RefusesOrder : ChangeError → Prop
  | emptyBuffer : RefusesOrder .emptyBuffer
  | invalidRange (start : PhysAddr) (pageCount : Nat) : RefusesOrder (.invalidRange start pageCount)

namespace Change

/-- The error with which an order is refused on a buffer, if it is. -/
def Order.refusal? (order : Order) (buffer : List Entry) : Option ChangeError :=
  if buffer = [] then some .emptyBuffer
  else if physicalLimit < order.stop then
    some (.invalidRange order.start.start order.pageCount)
  else none

/-- PVALIDATE, or an exchange with the hypervisor. -/
def Event.IsCall : Event → Prop
  | ⟨.pvalidate .., _⟩ => True
  | ⟨.exchange _, _⟩ => True
  | _ => False

/-- No exchange ended with an error that is for refused orders. -/
def Honest (events : List Event) : Prop :=
  ∀ entries error, Event.exchange entries (.error (.failed error)) ∈ events → ¬ error.RefusesOrder

variable {order : Order} {buffer : List Entry} {error : ChangeError} {events : List Event}

namespace Order

theorem refusal?_eq_emptyBuffer_iff :
    order.refusal? buffer = some .emptyBuffer ↔ buffer = [] := by
  unfold refusal?
  split
  · next empty => exact iff_of_true rfl empty
  · next nonempty =>
      refine iff_of_false ?_ nonempty
      split
      · exact nofun
      · exact nofun

theorem refusal?_eq_invalidRange_iff {start : PhysAddr} {count : Nat} :
    order.refusal? buffer = some (.invalidRange start count) ↔
      (buffer ≠ [] ∧ physicalLimit < order.stop) ∧
        start = order.start.start ∧ count = order.pageCount := by
  unfold refusal?
  split
  · next empty => exact iff_of_false nofun fun h => h.1.1 empty
  · next nonempty =>
      split
      · next beyond =>
          constructor
          · rintro ⟨⟩
            exact ⟨⟨nonempty, beyond⟩, rfl, rfl⟩
          · rintro ⟨-, rfl, rfl⟩
            rfl
      · next within => exact iff_of_false nofun fun h => within h.1.2

theorem refusal?_eq_none_iff :
    order.refusal? buffer = none ↔ 0 < buffer.length ∧ order.stop ≤ physicalLimit := by
  unfold refusal?
  rw [List.length_pos_iff]
  split
  · next empty => exact iff_of_false nofun fun h => h.1 empty
  · next nonempty =>
      split
      · next beyond => exact iff_of_false nofun fun h => Nat.not_lt.mpr h.2 beyond
      · next within => exact iff_of_true rfl ⟨nonempty, Nat.not_lt.mp within⟩

theorem exists_refusal_of (refused : buffer = [] ∨ physicalLimit < order.stop) :
    ∃ error, order.refusal? buffer = some error := by
  refine Option.ne_none_iff_exists'.mp fun none => ?_
  obtain ⟨room, within⟩ := refusal?_eq_none_iff.mp none
  rcases refused with rfl | beyond
  · exact absurd room (Nat.lt_irrefl 0)
  · exact Nat.not_lt.mpr within beyond

end Order

/-- A refused order is its error, and nothing else. -/
theorem play_tryChange_of_refusal (refused : order.refusal? buffer = some error) :
    (tryChange order).play buffer = .done (.error (.failed error), buffer) := by
  unfold Order.refusal? at refused
  split at refused
  · next empty =>
      cases refused
      subst empty
      rfl
  · next nonempty =>
      split at refused
      · next beyond =>
          cases refused
          have room : 0 < (Batch.ofBuffer buffer).capacity := List.length_pos_iff.mpr nonempty
          unfold tryChange
          rw [Guest.play_bind, Guest.play_look, Program.done_bind]
          simp only [dif_pos room, Order.stop?_eq_none_iff.mpr beyond, Guest.play_fail]
      · cases refused

theorem Event.isCall_of_fatal {ev : Event} {stop : Stop} (h : ev.fatal? = some stop) :
    ev.IsCall := by
  obtain ⟨call, answer⟩ := ev
  cases call with
  | pvalidate => trivial
  | exchange => trivial
  | terminate => cases h
  | log => cases h

/-- An order that fails without having been refused has called PVALIDATE or the hypervisor. -/
theorem OrderRun.exists_isCall {stop : Stop}
    (run : OrderRun order buffer.length events (.error stop))
    (none : order.refusal? buffer = none) : ∃ ev ∈ events, ev.IsCall := by
  obtain ⟨room, within⟩ := Order.refusal?_eq_none_iff.mp none
  obtain ⟨ev, mem, fatal⟩ := (run.failStop room within).exists_fatal
  exact ⟨ev, mem, Event.isCall_of_fatal fatal⟩

theorem OrderRun.not_refusesOrder
    (run : OrderRun order buffer.length events (.error (.failed error)))
    (none : order.refusal? buffer = none) (honest : Honest events) : ¬ error.RefusesOrder := by
  obtain ⟨room, within⟩ := Order.refusal?_eq_none_iff.mp none
  obtain ⟨ev, mem, fatal⟩ := (run.failStop room within).exists_fatal
  rcases Event.exists_of_fatal fatal with ⟨_, _, _, _, same⟩ | ⟨entries, rfl⟩
  · cases same
    exact nofun
  · exact honest entries error mem

/-- An order ends with an error for refused orders if and only if it is refused with it. -/
theorem result_eq_iff_refusal? {σ : Type} (order : Order) (buffer : List Entry)
    (world : Program.World calls σ) (s : σ) (kind : error.RefusesOrder) :
    let run := ((tryChange order).play buffer).run world s #[]
    Honest run.2.2.toList →
      (run.1.1 = .error (.failed error) ↔ order.refusal? buffer = some error) := by
  intro run honest
  cases refused : order.refusal? buffer with
  | some error' =>
      have result : run.1.1 = .error (.failed error') := by
        simp only [run, play_tryChange_of_refusal refused, Program.run]
      rw [result, Except.error.injEq, Stop.failed.injEq, Option.some.injEq]
  | none =>
      refine iff_of_false (fun ended => ?_) nofun
      have orderRun : OrderRun order buffer.length run.2.2.toList run.1.1 :=
        orderRun_of_run order buffer world s
      rw [ended] at orderRun
      exact orderRun.not_refusesOrder refused honest kind

end Change

/-! ## Requests -/

/-- The errors with which a request is refused. -/
inductive ChangeError.RefusesRequest : ChangeError → Prop
  | noEntries : RefusesRequest .noEntries
  | tooManyEntries (count : Nat) : RefusesRequest (.tooManyEntries count)

namespace Protocol

/-- The error with which a request is refused, if it is. -/
def refusal? (entries : List Entry) : Option ChangeError :=
  if entries = [] then some .noEntries
  else if Change.maxEntries < entries.length then some (.tooManyEntries entries.length)
  else none

variable {p : Protocol} {entries : List Entry} {g g' : Ghcb} {events : List Event}
  {error : ChangeError}

theorem refusal?_eq_noEntries_iff : refusal? entries = some .noEntries ↔ entries = [] := by
  unfold refusal?
  split
  · next empty => exact iff_of_true rfl empty
  · next nonempty =>
      refine iff_of_false ?_ nonempty
      split
      · exact nofun
      · exact nofun

theorem refusal?_eq_tooManyEntries_iff {count : Nat} :
    refusal? entries = some (.tooManyEntries count) ↔
      Change.maxEntries < entries.length ∧ count = entries.length := by
  unfold refusal?
  split
  · next empty =>
      subst empty
      exact iff_of_false nofun fun h => absurd h.1 (Nat.not_lt_zero _)
  · split
    · next many =>
        constructor
        · rintro ⟨⟩
          exact ⟨many, rfl⟩
        · rintro ⟨-, rfl⟩
          rfl
    · next few => exact iff_of_false nofun fun h => few h.1

theorem refusal?_eq_none_iff :
    refusal? entries = none ↔ 0 < entries.length ∧ entries.length ≤ Change.maxEntries := by
  unfold refusal?
  rw [List.length_pos_iff]
  split
  · next empty => exact iff_of_false nofun fun h => h.1 empty
  · next nonempty =>
      split
      · next many => exact iff_of_false nofun fun h => Nat.not_lt.mpr h.2 many
      · next few => exact iff_of_true rfl ⟨nonempty, Nat.not_lt.mp few⟩

theorem exists_refusal_of (refused : entries = [] ∨ Change.maxEntries < entries.length) :
    ∃ error, refusal? entries = some error := by
  refine Option.ne_none_iff_exists'.mp fun none => ?_
  obtain ⟨nonempty, few⟩ := refusal?_eq_none_iff.mp none
  rcases refused with rfl | many
  · exact absurd nonempty (Nat.lt_irrefl 0)
  · exact Nat.not_lt.mpr few many

theorem refusesRequest_of_refusal (refused : refusal? entries = some error) :
    error.RefusesRequest := by
  unfold refusal? at refused
  split at refused
  · cases refused
    exact .noEntries
  · split at refused
    · cases refused
      exact .tooManyEntries _
    · cases refused

theorem request_eq_fail (refused : refusal? entries = some error) :
    p.request entries = .fail error := by
  unfold refusal? at refused
  split at refused
  · next empty =>
      cases refused
      subst empty
      rfl
  · next nonempty =>
      have some : entries.length ≠ 0 := fun none => nonempty (List.eq_nil_of_length_eq_zero none)
      split at refused
      · next many =>
          cases refused
          rw [request, if_neg some, if_pos many]
      · cases refused

/-- A refused request has interrupts masked and unmasked, and leaves the page alone. -/
theorem play_exchange_of_refusal (refused : refusal? entries = some error) (page : Ghcb) :
    (p.exchange entries).play page =
      .ask .maskInterrupts fun _ => .ask .unmaskInterrupts fun _ =>
        .done (.error (.failed error), page) := by
  unfold exchange withoutInterrupts
  rw [request_eq_fail refused]
  rfl

theorem ExchangeRun.exits_ne_nil {result : Except Stop Unit}
    (run : ExchangeRun p entries g events result g') (nonempty : 0 < entries.length)
    (few : entries.length ≤ Change.maxEntries) : exits events ≠ [] := by
  obtain ⟨during, outcome, exitsRun, same, -⟩ := run.exists_exitsRun nonempty few
  rw [same]
  exact exitsRun.exits_ne_nil

section

variable {σ : Type} (p : Protocol) (entries : List Entry) (page : Ghcb)
  (world : Program.World calls σ) (s : σ)

theorem exchangeRun_of_run :
    let run := ((p.exchange entries).play page).run world s #[]
    ExchangeRun p entries page run.2.2.toList run.1.1 run.1.2 := by
  intro run
  obtain ⟨reaches, -⟩ := Program.reaches_of_run world ((p.exchange entries).play page) s
  exact exchangeRun_of_ends reaches

/-- A request that is not refused fails only for what its exits bring. -/
theorem atExit_of_run (permitted : refusal? entries = none) :
    let run := ((p.exchange entries).play page).run world s #[]
    ∀ stop, run.1.1 = .error stop → AtExit stop := by
  intro run stop ended
  obtain ⟨nonempty, few⟩ := refusal?_eq_none_iff.mp permitted
  have exchange : ExchangeRun p entries page run.2.2.toList run.1.1 run.1.2 :=
    exchangeRun_of_run p entries page world s
  rw [ended] at exchange
  exact exchange.atExit nonempty few

/-- A request ends with an error for refused requests if and only if it is refused with it. -/
theorem result_eq_iff_refusal? (kind : error.RefusesRequest) :
    (((p.exchange entries).play page).run world s #[]).1.1 = .error (.failed error) ↔
      refusal? entries = some error := by
  cases refused : refusal? entries with
  | some error' =>
      simp only [play_exchange_of_refusal refused, Program.run, Except.error.injEq,
        Stop.failed.injEq, Option.some.injEq]
  | none =>
      refine iff_of_false (fun ended => ?_) nofun
      have atExit := atExit_of_run p entries page world s refused _ ended
      cases kind with
      | noEntries => cases atExit
      | tooManyEntries => cases atExit

/-- An exchange never ends with an error that is for refused orders. -/
theorem not_refusesOrder_of_run
    (ended : (((p.exchange entries).play page).run world s #[]).1.1 = .error (.failed error)) :
    ¬ error.RefusesOrder := by
  intro kind
  cases refused : refusal? entries with
  | some error' =>
      simp only [play_exchange_of_refusal refused, Program.run] at ended
      cases ended
      cases refusesRequest_of_refusal refused with
      | noEntries => cases kind
      | tooManyEntries => cases kind
  | none =>
      have atExit := atExit_of_run p entries page world s refused _ ended
      cases kind with
      | emptyBuffer => cases atExit
      | invalidRange => cases atExit

end

end Protocol

/-! ## What is refused -/

/-- **Refusals are exact, and nothing has happened then.**  Give any order and any buffer, in
any world.  As long as no exchange makes such errors up, the order ends with an error about
the buffer if and only if the buffer is empty, and with one about the range if and only if
there is room and the range ends, in exact numbers, beyond 2⁵²; a range may end there.  In
both cases there was no event, the buffer is what it was, and so is the world.  Whatever else
goes wrong, a call was made before.

Over any protocol, from any page on and in any world, an exchange ends with an error about
the number of entries if and only if there are none or more than a request can hold.  Then
interrupts were masked and unmasked and that is all, and the page is what it was.  Any other
exchange takes an exit.  And the errors for refused orders are not made up here. -/
theorem refused_iff :
    (∀ (order : Order) (buffer : List Entry) (σ : Type) (world : Program.World Change.calls σ)
      (s : σ),
      let run := ((tryChange order).play buffer).run world s #[]
      let events : List Change.Event := run.2.2.toList
      let beyond := 0x10000000000000 < order.start.start.val + 4096 * order.pageCount
      (Change.Honest events →
        (run.1.1 = .error (.failed .emptyBuffer) ↔ buffer = []) ∧
        ∀ start count, run.1.1 = .error (.failed (.invalidRange start count)) ↔
          (buffer ≠ [] ∧ beyond) ∧ start = order.start.start ∧ count = order.pageCount) ∧
      (buffer = [] ∨ beyond → events = [] ∧ run.1.2 = buffer ∧ run.2.1 = s) ∧
      ∀ stop, run.1.1 = .error stop → (buffer = [] ∨ beyond) ∨ ∃ ev ∈ events, ev.IsCall) ∧
    ∀ (p : Protocol) (entries : List Entry) (page : Ghcb) (σ : Type)
      (world : Program.World Protocol.calls σ) (s : σ),
      let run := ((p.exchange entries).play page).run world s #[]
      let events : List Protocol.Event := run.2.2.toList
      (run.1.1 = .error (.failed .noEntries) ↔ entries = []) ∧
      (∀ count, run.1.1 = .error (.failed (.tooManyEntries count)) ↔
        253 < entries.length ∧ count = entries.length) ∧
      (entries = [] ∨ 253 < entries.length → events = [.mask, .unmask] ∧ run.1.2 = page) ∧
      (entries ≠ [] ∧ entries.length ≤ 253 → Protocol.exits events ≠ []) ∧
      ∀ error, run.1.1 = .error (.failed error) → ¬ error.RefusesOrder := by
  constructor
  · intro order buffer σ world s run events beyond
    -- `beyond` is the test of the program, with its numbers written out
    refine ⟨fun honest => ⟨?_, fun start count => ?_⟩, fun refused => ?_, fun stop ended => ?_⟩
    · exact (Change.result_eq_iff_refusal? order buffer world s .emptyBuffer honest).trans
        Order.refusal?_eq_emptyBuffer_iff
    · exact (Change.result_eq_iff_refusal? order buffer world s (.invalidRange _ _) honest).trans
        Order.refusal?_eq_invalidRange_iff
    · obtain ⟨error, same⟩ := Order.exists_refusal_of refused
      simp only [events, run, Change.play_tryChange_of_refusal same, Program.run, and_self]
    · refine Classical.or_iff_not_imp_left.mpr fun accepted => ?_
      obtain ⟨nonempty, within⟩ := not_or.mp accepted
      have none : order.refusal? buffer = none :=
        Order.refusal?_eq_none_iff.mpr ⟨List.length_pos_iff.mpr nonempty, Nat.not_lt.mp within⟩
      have orderRun : Change.OrderRun order buffer.length events run.1.1 :=
        Change.orderRun_of_run order buffer world s
      rw [ended] at orderRun
      exact orderRun.exists_isCall none
  · intro p entries page σ world s run events
    refine ⟨?_, fun count => ?_, fun refused => ?_, ?_, ?_⟩
    · exact (Protocol.result_eq_iff_refusal? p entries page world s .noEntries).trans
        Protocol.refusal?_eq_noEntries_iff
    · exact (Protocol.result_eq_iff_refusal? p entries page world s (.tooManyEntries _)).trans
        Protocol.refusal?_eq_tooManyEntries_iff
    · obtain ⟨error, same⟩ := Protocol.exists_refusal_of refused
      simp only [events, run, Protocol.play_exchange_of_refusal same, Program.run]
      exact ⟨rfl, trivial⟩
    · rintro ⟨nonempty, few⟩
      exact (Protocol.exchangeRun_of_run p entries page world s).exits_ne_nil
        (List.length_pos_iff.mpr nonempty) few
    · exact fun error => Protocol.not_refusesOrder_of_run p entries page world s

/-- An order for so many pages that their size is zero in a 64-bit word. -/
def takeWrapping : Order where
  start := ⟨⟨0x7000, by decide⟩, by decide⟩
  pageCount := 0x10000000000000
  assignment := .guestOnly
  useLarge := true

/-- The order is refused all the same, and so is one entry too many. -/
theorem refused_iff_takeWrapping :
    let order := ((tryChange takeWrapping).play [.zero]).run onePage 0 #[]
    (order.1.1 = .error (.failed (.invalidRange ⟨0x7000, by decide⟩ 0x10000000000000)) ∧
      order.1.2 = [.zero] ∧ order.2.2.toList = []) ∧
    (((fiveExits.exchange (List.replicate 254 .zero)).play .zero).run still () #[]).1 =
      (.error (.failed (.tooManyEntries 254)), .zero) := by
  intro order
  constructor
  · obtain ⟨exact, quiet, -⟩ := refused_iff.1 takeWrapping [.zero] Nat onePage 0
    obtain ⟨none, same, -⟩ := quiet (.inr (by decide))
    have honest : Change.Honest order.2.2.toList := by
      rw [none]
      exact fun _ _ mem => absurd mem List.not_mem_nil
    exact ⟨((exact honest).2 _ _).mpr ⟨⟨List.cons_ne_nil _ _, by decide⟩, rfl, rfl⟩, same, none⟩
  · have length : (List.replicate 254 Entry.zero).length = 254 := List.length_replicate
    have many : 253 < (List.replicate 254 Entry.zero).length := by
      rw [length]
      decide
    obtain ⟨-, exact, quiet, -, -⟩ :=
      refused_iff.2 fiveExits (List.replicate 254 .zero) .zero Unit still ()
    obtain ⟨-, page⟩ := quiet (.inr many)
    exact Prod.ext ((exact 254).mpr ⟨many, length.symm⟩) page

end SnpMemory

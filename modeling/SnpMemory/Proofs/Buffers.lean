/-
# `SnpMemory.Proofs.Buffers` — the buffer does not matter

A change cuts its range into batches, as many as the buffer makes of it, and each batch
into requests.  As long as the exchanges succeed, nobody can tell from the rest of the
run.  Leave the exchanges out of it, and what remains is the run of a program that has
no buffer at all: `markAll` marks the whole tiling of the range, from the first entry to
the last or to the first failure.

    run of the order on a buffer, without exchanges  =  announcement ++ run of markAll

So any two buffers give the same result and the same PVALIDATE calls with the same
answers, even if the answers depend on all that was asked before
(`same_for_buffers`).  The batches differ, but put together they are the tiling, or a
first part of it when the run fails.
-/
import SnpMemory.Proofs.Coverage

namespace SnpMemory.Change

/-! ## A world in which exchanges succeed -/

/-- Something that answers PVALIDATE calls and may remember what it was asked. -/
abbrev Validator (σ : Type) : Type :=
  PhysAddr → PageSize → Validation → σ → Except PvalidateError Unit × σ

/-- The world of a validator in which every exchange succeeds. -/
def granting {σ : Type} (validator : Validator σ) : Program.World calls σ
  | .pvalidate address size v, s => validator address size v s
  | .exchange _, s => (.ok (), s)
  | .terminate, s => ((), s)
  | .log _, s => ((), s)

def Event.isExchange : Event → Bool
  | ⟨.exchange _, _⟩ => true
  | _ => false

/-- The events that are no exchanges: PVALIDATE calls with their answers, and log lines. -/
def withoutExchanges (events : List Event) : List Event :=
  events.filter fun ev => !Event.isExchange ev

/-- If the event is an exchange, it has succeeded. -/
def Event.Granted : Event → Prop
  | ⟨.exchange _, answer⟩ => (answer : Except Stop Unit) = .ok ()
  | _ => True

section

variable {events more : List Event}

@[simp] theorem withoutExchanges_append :
    withoutExchanges (events ++ more) = withoutExchanges events ++ withoutExchanges more :=
  List.filter_append _ _

theorem withoutExchanges_of_marking {v : Validation}
    (h : ∀ ev ∈ events, ∃ b, Marking v b ev) : withoutExchanges events = events := by
  refine List.filter_eq_self.mpr fun ev mem => ?_
  obtain ⟨b, marking⟩ := h ev mem
  cases marking with
  | log => rfl
  | call => rfl

variable {σ : Type} {validator : Validator σ} {s s' : σ}

/-- Exchanges leave no trace in the memory of the world. -/
theorem follows_withoutExchanges (follows : Program.Follows (granting validator) s events s') :
    Program.Follows (granting validator) s (withoutExchanges events) s' := by
  induction events generalizing s with
  | nil => exact follows
  | cons ev rest ih =>
      obtain ⟨call, answer⟩ := ev
      obtain ⟨same, later⟩ := follows
      cases call with
      | exchange entries => exact ih later
      | pvalidate => exact ⟨same, ih later⟩
      | terminate => exact ⟨same, ih later⟩
      | log => exact ⟨same, ih later⟩

theorem granted_of_follows (follows : Program.Follows (granting validator) s events s') :
    ∀ ev ∈ events, Event.Granted ev := by
  induction events generalizing s with
  | nil => exact List.forall_mem_nil _
  | cons ev rest ih =>
      obtain ⟨call, answer⟩ := ev
      obtain ⟨same, later⟩ := follows
      refine List.forall_mem_cons.mpr ⟨?_, ih later⟩
      cases call with
      | exchange entries => exact same
      | pvalidate => trivial
      | terminate => trivial
      | log => trivial

end

/-! ## Batches put together -/

variable {entries : List Entry} {events : List Event} {result : Except Stop Unit}

/-- The pages of two lists of entries, one after the other. -/
theorem EntriesRun.append {more : List Entry} {events' : List Event} {outcome : Except Stop Unit}
    (h : EntriesRun entries events outcome) (ended : outcome = .ok ())
    (h' : EntriesRun more events' result) :
    EntriesRun (entries ++ more) (events ++ events') result := by
  induction h with
  | done => exact h'
  | invalid => cases ended
  | stopped => cases ended
  | next wanted block _ ih =>
      rw [List.append_assoc]
      exact .next wanted block (ih ended)

/-- A run that stops does not see the entries that would have come later. -/
theorem EntriesRun.append_stopped {stop : Stop} (h : EntriesRun entries events result)
    (ended : result = .error stop) (more : List Entry) :
    EntriesRun (entries ++ more) events (.error stop) := by
  induction h with
  | done => cases ended
  | invalid wanted =>
      cases ended
      exact .invalid wanted
  | stopped wanted block =>
      cases ended
      exact .stopped wanted block
  | next wanted block _ ih => exact .next wanted block (ih ended)

theorem EntriesRun.withoutExchanges_eq (run : EntriesRun entries events result) :
    withoutExchanges events = events := by
  induction run with
  | done => rfl
  | invalid => rfl
  | stopped _ block => exact withoutExchanges_of_marking fun ev mem => ⟨_, block.marking ev mem⟩
  | next _ block _ ih =>
      rw [withoutExchanges_append, ih,
        withoutExchanges_of_marking fun ev mem => ⟨_, block.marking ev mem⟩]

theorem RequestsRun.eq_ok_of_granted {requests : List (List Entry)}
    (run : RequestsRun requests events result) (granted : ∀ ev ∈ events, Event.Granted ev) :
    result = .ok () ∧ withoutExchanges events = [] := by
  induction run with
  | done => exact ⟨rfl, rfl⟩
  | failed =>
      have refused := List.forall_mem_singleton.mp granted
      cases refused
  | next _ ih => exact ih (List.forall_mem_cons.mp granted).2

theorem BatchRun.entriesRun {assignment : Assignment}
    (run : BatchRun entries assignment events result)
    (granted : ∀ ev ∈ events, Event.Granted ev) :
    EntriesRun entries (withoutExchanges events) result := by
  cases assignment with
  | shared =>
      cases run with
      | stopped h =>
          rw [h.withoutExchanges_eq]
          exact h
      | through h h' =>
          obtain ⟨rfl, none⟩ := h'.eq_ok_of_granted (List.forall_mem_append.mp granted).2
          rw [withoutExchanges_append, h.withoutExchanges_eq, none, List.append_nil]
          exact h
  | guestOnly =>
      cases run with
      | stopped h =>
          obtain ⟨refused, -⟩ := h.eq_ok_of_granted granted
          cases refused
      | through h h' =>
          obtain ⟨-, none⟩ := h.eq_ok_of_granted (List.forall_mem_append.mp granted).1
          rw [withoutExchanges_append, none, h'.withoutExchanges_eq]
          exact h'

/-- Whatever the batches are, the tiling is marked from the first entry on. -/
theorem RangeRun.entriesRun {goal : Goal} {capacity address : Nat}
    (run : RangeRun goal capacity address events result) (memory : goal.InMemory)
    (granted : ∀ ev ∈ events, Event.Granted ev) :
    EntriesRun (goal.tiling address) (withoutExchanges events) result := by
  induction run with
  | done none =>
      rw [Goal.tiling_of_le none]
      exact .done
  | @limited address _ _ _ walked =>
      obtain ⟨_, _, walked'⟩ := Goal.exists_walk_eq memory capacity address
      cases walked.symm.trans walked'
  | stopped _ walked batch =>
      rw [Goal.tiling_eq_append walked]
      exact (batch.entriesRun granted).append_stopped rfl _
  | next _ walked batch _ ih =>
      obtain ⟨granted, granted'⟩ := List.forall_mem_append.mp granted
      rw [Goal.tiling_eq_append walked, withoutExchanges_append]
      exact (batch.entriesRun granted).append rfl (ih granted')

theorem OrderRun.exists_entriesRun {order : Order} {capacity : Nat}
    (run : OrderRun order capacity events result) (room : 0 < capacity)
    (within : order.stop ≤ physicalLimit) (granted : ∀ ev ∈ events, Event.Granted ev) :
    ∃ rest, EntriesRun (order.goal.tiling order.start.start.val) rest result ∧
      withoutExchanges events =
        Event.log (.changing order.pageCount order.start.start order.assignment order.useLarge)
          :: rest := by
  obtain ⟨rest, rfl, rangeRun⟩ := run.exists_rangeRun room within
  obtain ⟨-, granted⟩ := List.forall_mem_cons.mp granted
  exact ⟨_, rangeRun.entriesRun (Order.goal_inMemory within) granted, rfl⟩

/-! ## Two buffers -/

/-- A program without a buffer: the whole tiling of the range is marked. -/
def markAll (order : Order) : OnBuffer Unit :=
  validateEntries (order.goal.tiling order.start.start.val)

variable {σ : Type} {validator : Validator σ}

/-- Without the exchanges, a run on a buffer is the run that marks the whole tiling. -/
theorem run_eq_markAll (order : Order) (within : order.stop ≤ physicalLimit)
    (validator : Validator σ) (s : σ) {buffer : List Entry} (room : 0 < buffer.length) :
    let run := ((tryChange order).play buffer).run (granting validator) s #[]
    let whole := ((markAll order).play []).run (granting validator) s #[]
    run.1.1 = whole.1.1 ∧
      withoutExchanges run.2.2.toList =
        Event.log (.changing order.pageCount order.start.start order.assignment order.useLarge)
          :: whole.2.2.toList := by
  intro run whole
  obtain ⟨events, reaches, follows, trace⟩ :=
    Program.exists_follows_of_run (granting validator) ((tryChange order).play buffer) s #[]
  have orderRun := exists_ends_tryChange_iff.mp ⟨_, reaches⟩
  obtain ⟨rest, marks, kept⟩ :=
    orderRun.exists_entriesRun room within (granted_of_follows follows)
  have follows' := follows_withoutExchanges follows
  rw [kept] at follows'
  have ends : (markAll order).Ends [] rest run.1.1 [] := ends_validateEntries.mpr ⟨marks, rfl⟩
  have same : whole = ((run.1.1, []), _, #[] ++ rest.toArray) :=
    Program.run_eq_of_follows ends follows'.2 #[]
  constructor
  · rw [same]
  · have whole' : run.2.2.toList = events := trace
    rw [same, whole', kept, Array.empty_append, List.toList_toArray]

theorem exchanged_of_run (order : Order) (validator : Validator σ) (s : σ) (buffer : List Entry) :
    let run := ((tryChange order).play buffer).run (granting validator) s #[]
    exchanged run.2.2.toList <+: order.goal.tiling order.start.start.val ∧
      (run.1.1 = .ok () →
        exchanged run.2.2.toList = order.goal.tiling order.start.start.val) := by
  intro run
  have orderRun : OrderRun order buffer.length run.2.2.toList run.1.1 :=
    orderRun_of_run order buffer (granting validator) s
  refine ⟨orderRun.exchanged_isPrefix, fun ok => ?_⟩
  have ended : OrderRun order buffer.length run.2.2.toList (.ok ()) := ok ▸ orderRun
  exact ended.exchanged_eq

/-- **The buffer does not matter.**  Take an order that is not refused, a validator whose
answers may depend on everything it was asked, and exchanges that succeed.  Then two
buffers with room for an entry, of any lengths and with anything in them, give the same
result and the same PVALIDATE calls with the same answers.  What is handed over is the same
if the order ends well, and a first part of the tiling of the range in any case. -/
theorem same_for_buffers (order : Order) (within : order.stop ≤ physicalLimit)
    (validator : Validator σ) (s : σ) {buffer other : List Entry} (room : 0 < buffer.length)
    (room' : 0 < other.length) :
    let run := ((tryChange order).play buffer).run (granting validator) s #[]
    let run' := ((tryChange order).play other).run (granting validator) s #[]
    let tiles := order.goal.tiling order.start.start.val
    run.1.1 = run'.1.1 ∧
    withoutExchanges run.2.2.toList = withoutExchanges run'.2.2.toList ∧
    (run.1.1 = .ok () → exchanged run.2.2.toList = exchanged run'.2.2.toList) ∧
    order.goal.Tiles order.start.start.val tiles ∧ exchanged run.2.2.toList <+: tiles := by
  intro run run' tiles
  obtain ⟨result, marks⟩ := run_eq_markAll order within validator s room
  obtain ⟨result', marks'⟩ := run_eq_markAll order within validator s room'
  obtain ⟨first, all⟩ := exchanged_of_run order validator s buffer
  obtain ⟨-, all'⟩ := exchanged_of_run order validator s other
  have same : run.1.1 = run'.1.1 := result.trans result'.symm
  refine ⟨same, marks.trans marks'.symm, fun ok => ?_, Order.tiles within, first⟩
  exact (all ok).trans (all' (same ▸ ok)).symm

/-- A validator that lets two calls pass and refuses all others. -/
def twice : Validator Nat
  | _, _, _, 0 => (.ok (), 1)
  | _, _, _, 1 => (.ok (), 2)
  | _, _, _, n + 2 => (.error .notUpdated, n + 2)

/-- Four slots make one batch of the order, and the page after the block is refused.  One
slot makes three batches, and the same page is refused. -/
theorem same_for_buffers_takeBlock :
    let run := ((tryChange takeBlock).play [.zero]).run (granting twice) 0 #[]
    let after : PhysAddr := ⟨0x400000, by decide⟩
    run.1.1 = .error (.failed (.pvalidate after .small .validated .notUpdated)) ∧
      (withoutExchanges run.2.2.toList).getLast? =
        some (Event.pvalidate after .small .validated (.error .notUpdated)) := by
  intro run after
  let first := takeBlockEntry ⟨0x1ff000, by decide⟩ .small
  let block := takeBlockEntry ⟨0x200000, by decide⟩ .large
  let last := takeBlockEntry after .small
  let slots : List Entry := [⟨7⟩, .zero, ⟨7⟩, .zero]
  let run' := ((tryChange takeBlock).play slots).run (granting twice) 0 #[]
  let refusal : Stop := .failed (.pvalidate after .small .validated .notUpdated)
  have asks : ∀ address size, (takeBlockEntry address size).assignment? = some .guestOnly :=
    fun _ _ => Entry.assignment?_ofPage _ _ _
  have place : last.address = after := by decide
  have size : last.size = .small := Entry.size_ofPage _ _ _
  have refused : BlockRun last.address .validated last.size
      [.pvalidate after .small .validated (.error .notUpdated)] (.error refusal) := by
    rw [place, size]
    exact .failed (by decide)
  have handed : RequestsRun (requests [first, block, last])
      [.exchange [first, block, last] (.ok ())] (.ok ()) := by
    rw [requests_of_length_le (by decide)]
    exact .granted [[first, block, last]]
  have batch : BatchRun [first, block, last] .guestOnly _ (.error refusal) :=
    .through handed (.next (asks _ _) (.whole _) (.next (asks _ _) (.whole _)
      (.stopped (asks _ _) refused)))
  have orderRun : OrderRun takeBlock slots.length _ (.error refusal) :=
    .accepted (by decide) (by decide) (.stopped (by decide) rfl batch)
  obtain ⟨slots', ends⟩ := exists_ends_tryChange_iff.mpr orderRun
  have other : run' = ((.error refusal, slots'), 2, _) :=
    Program.run_eq_of_follows ends ⟨rfl, rfl, rfl, rfl, rfl, rfl⟩ #[]
  have room : 0 < [Entry.zero].length := by decide
  have room' : 0 < slots.length := by decide
  obtain ⟨result, marks, -⟩ := same_for_buffers takeBlock (by decide) twice 0 room room'
  refine ⟨result.trans (congrArg (fun x => x.1.1) other), ?_⟩
  rw [marks, congrArg (fun x => x.2.2.toList) other]
  rfl

end SnpMemory.Change

/-
# `SnpMemory.Proofs.ChangeRuns` — the runs of a change of memory

A change of memory asks for PVALIDATE, exchanges and log lines, and any answer
can come back.  Here each part of a change has a relation beside it that lists
the ways in which the part can go, as events and a result:

    PagesRun     4KiB pages of a block, one by one
    BlockRun     the page of one entry, whole or split
    EntriesRun   the pages of a list of entries
    RequestsRun  the requests that a list of entries is cut into
    BatchRun     one batch, in the order its assignment demands
    RangeRun     batch after batch, from an address to the end of a range
    OrderRun     an order, from the checks to the last batch

Each relation is exactly what the program does (`ends_validateSmallPages` and so
on, up to `exists_ends_tryChange_iff`).  From here on the theory speaks about the
relations, and the programs are not opened again.
-/
import SnpMemory.Change
import SnpMemory.Proofs.Ends

namespace SnpMemory.Change

/-! ## Events -/

/-- A PVALIDATE call and its answer. -/
abbrev Event.pvalidate (address : PhysAddr) (size : PageSize) (validation : Validation)
    (answer : Except PvalidateError Unit) : Event :=
  ⟨.pvalidate address size validation, answer⟩

/-- An exchange with the hypervisor and its answer. -/
abbrev Event.exchange (entries : List Entry) (answer : Except Stop Unit) : Event :=
  ⟨.exchange entries, answer⟩

abbrev Event.log (line : LogLine) : Event := ⟨.log line, ()⟩

/-! ## The ways to go -/

/-- The 4KiB pages with the given numbers after a first page get a mark: all of them, or
those before one that memory does not reach or whose call fails. -/
inductive PagesRun (first : PhysAddr) (v : Validation) :
    List Nat → List Event → Except Stop Unit → Prop
  | done : PagesRun first v [] [] (.ok ())
  | beyond {n : Nat} {rest : List Nat} :
      first.add? (n * PageSize.small.bytes) = none →
      PagesRun first v (n :: rest) [] (.error (.fault .beyondMemory))
  | failed {n : Nat} {rest : List Nat} {address : PhysAddr} (error : PvalidateError) :
      first.add? (n * PageSize.small.bytes) = some address →
      PagesRun first v (n :: rest) [.pvalidate address .small v (.error error)]
        (.error (.failed (.pvalidate address .small v error)))
  | next {n : Nat} {rest : List Nat} {address : PhysAddr} {events : List Event}
      {result : Except Stop Unit} :
      first.add? (n * PageSize.small.bytes) = some address →
      PagesRun first v rest events result →
      PagesRun first v (n :: rest) (.pvalidate address .small v (.ok ()) :: events) result

/-- A block gets a mark by one call, or page by page when it is large and found split. -/
inductive BlockRun (address : PhysAddr) (v : Validation) :
    PageSize → List Event → Except Stop Unit → Prop
  | whole (size : PageSize) :
      BlockRun address v size [.pvalidate address size v (.ok ())] (.ok ())
  | failed {size : PageSize} {error : PvalidateError} :
      ¬ (error = .sizeMismatch ∧ size = .large) →
      BlockRun address v size [.pvalidate address size v (.error error)]
        (.error (.failed (.pvalidate address size v error)))
  | split {events : List Event} {result : Except Stop Unit} :
      PagesRun address v (List.range smallPagesPerLarge) events result →
      BlockRun address v .large
        (.pvalidate address .large v (.error .sizeMismatch) :: .log (.splitting address) :: events)
        result

/-- The pages of entries get the marks that their assignments demand, in order. -/
inductive EntriesRun : List Entry → List Event → Except Stop Unit → Prop
  | done : EntriesRun [] [] (.ok ())
  | invalid {e : Entry} {rest : List Entry} :
      e.assignment? = none →
      EntriesRun (e :: rest) [] (.error (.failed (.invalidEntry e.raw.toNat)))
  | stopped {e : Entry} {rest : List Entry} {assignment : Assignment} {events : List Event}
      {stop : Stop} :
      e.assignment? = some assignment →
      BlockRun e.address assignment.validation e.size events (.error stop) →
      EntriesRun (e :: rest) events (.error stop)
  | next {e : Entry} {rest : List Entry} {assignment : Assignment} {events more : List Event}
      {result : Except Stop Unit} :
      e.assignment? = some assignment →
      BlockRun e.address assignment.validation e.size events (.ok ()) →
      EntriesRun rest more result →
      EntriesRun (e :: rest) (events ++ more) result

/-- Requests are exchanged in order until one fails. -/
inductive RequestsRun : List (List Entry) → List Event → Except Stop Unit → Prop
  | done : RequestsRun [] [] (.ok ())
  | failed {request : List Entry} {rest : List (List Entry)} (stop : Stop) :
      RequestsRun (request :: rest) [.exchange request (.error stop)] (.error stop)
  | next {request : List Entry} {rest : List (List Entry)} {events : List Event}
      {result : Except Stop Unit} :
      RequestsRun rest events result →
      RequestsRun (request :: rest) (.exchange request (.ok ()) :: events) result

/-- One part stops, or it ends and the other part goes on. -/
inductive InTurn (first second : List Event → Except Stop Unit → Prop) :
    List Event → Except Stop Unit → Prop
  | stopped {events : List Event} {stop : Stop} :
      first events (.error stop) → InTurn first second events (.error stop)
  | through {events more : List Event} {result : Except Stop Unit} :
      first events (.ok ()) → second more result →
      InTurn first second (events ++ more) result

/-- A batch loses its marks before the exchange, or gets them after it. -/
def BatchRun (entries : List Entry) : Assignment → List Event → Except Stop Unit → Prop
  | .shared => InTurn (EntriesRun entries) (RequestsRun (requests entries))
  | .guestOnly => InTurn (RequestsRun (requests entries)) (EntriesRun entries)

/-- A range is changed from an address on, on a buffer with so many slots. -/
inductive RangeRun (goal : Goal) (capacity : Nat) :
    (address : Nat) → List Event → Except Stop Unit → Prop
  | done {address : Nat} : goal.stop ≤ address → RangeRun goal capacity address [] (.ok ())
  | limited {address : Nat} {entries : List Entry} {limit : Fault} :
      address < goal.stop → goal.walk capacity address = (entries, .error limit) →
      RangeRun goal capacity address [] (.error (.fault limit))
  | stopped {address next : Nat} {entries : List Entry} {events : List Event} {stop : Stop} :
      address < goal.stop → goal.walk capacity address = (entries, .ok next) →
      BatchRun entries goal.assignment events (.error stop) →
      RangeRun goal capacity address events (.error stop)
  | next {address next : Nat} {entries : List Entry} {events more : List Event}
      {result : Except Stop Unit} :
      address < goal.stop → goal.walk capacity address = (entries, .ok next) →
      BatchRun entries goal.assignment events (.ok ()) →
      RangeRun goal capacity next more result →
      RangeRun goal capacity address (events ++ more) result

/-- An order is refused, or announced and carried out. -/
inductive OrderRun (order : Order) (capacity : Nat) : List Event → Except Stop Unit → Prop
  | noRoom : capacity = 0 → OrderRun order capacity [] (.error (.failed .emptyBuffer))
  | noRange : 0 < capacity → physicalLimit < order.stop →
      OrderRun order capacity []
        (.error (.failed (.invalidRange order.start.start order.pageCount)))
  | accepted {events : List Event} {result : Except Stop Unit} :
      0 < capacity → order.stop ≤ physicalLimit →
      RangeRun order.goal capacity order.start.start.val events result →
      OrderRun order capacity
        (.log (.changing order.pageCount order.start.start order.assignment order.useLarge)
          :: events) result

/-- An order is not refused if there is room and the range lies in memory. -/
theorem OrderRun.exists_rangeRun {order : Order} {capacity : Nat} {events : List Event}
    {result : Except Stop Unit} (run : OrderRun order capacity events result)
    (room : 0 < capacity) (within : order.stop ≤ physicalLimit) :
    ∃ rest,
      events = Event.log (.changing order.pageCount order.start.start order.assignment
        order.useLarge) :: rest ∧
      RangeRun order.goal capacity order.start.start.val rest result := by
  cases run with
  | noRoom empty => exact absurd room (Nat.not_lt.mpr (Nat.le_of_eq empty))
  | noRange _ beyond => exact absurd within (Nat.not_le.mpr beyond)
  | accepted _ _ run => exact ⟨_, rfl, run⟩

/-! ## They are the ways of the programs

The proofs follow the programs: a request is answered in some way
(`ends_pvalidate_bind`), the answer picks the branch, and the branch is one
constructor of the relation. -/

section

variable {s s' : List Entry} {events : List Event} {result : Except Stop Unit}

theorem ends_pvalidate_bind {address : PhysAddr} {size : PageSize} {v : Validation}
    {f : Except PvalidateError Unit → OnBuffer Unit} :
    (Guest.perform (Validating.pvalidate (I := calls) address size v) >>= f).Ends s events result
        s' ↔
      ∃ answer rest, (f answer).Ends s rest result s' ∧
        events = Event.pvalidate address size v answer :: rest :=
  Guest.ends_request_bind

theorem ends_log_bind {line : LogLine} {f : Unit → OnBuffer Unit} :
    (Guest.perform (Validating.log (I := calls) line) >>= f).Ends s events result s' ↔
      ∃ rest, (f ()).Ends s rest result s' ∧ events = Event.log line :: rest := by
  constructor
  · intro h
    obtain ⟨answer, rest, h', rfl⟩ := Guest.ends_request_bind.mp h
    exact ⟨rest, h', rfl⟩
  · rintro ⟨rest, h', rfl⟩
    exact Guest.ends_request_bind.mpr ⟨(), rest, h', rfl⟩

theorem ends_validatePage {address : PhysAddr} {size : PageSize} {v : Validation} :
    (validatePage address size v : OnBuffer Unit).Ends s events result s' ↔
      ∃ answer, events = [.pvalidate address size v answer] ∧ s' = s ∧
        result = answer.mapError fun error => .failed (.pvalidate address size v error) := by
  unfold validatePage
  rw [ends_pvalidate_bind]
  constructor
  · rintro ⟨answer, rest, h, rfl⟩
    cases answer with
    | ok u =>
        obtain ⟨rfl, rfl, rfl⟩ := Guest.ends_pure.mp h
        exact ⟨.ok u, rfl, rfl, rfl⟩
    | error error =>
        obtain ⟨rfl, rfl, rfl⟩ := Guest.ends_fail.mp h
        exact ⟨.error error, rfl, rfl, rfl⟩
  · rintro ⟨answer, rfl, rfl, rfl⟩
    refine ⟨answer, [], ?_, rfl⟩
    cases answer with
    | ok u => exact Guest.ends_pure.mpr ⟨rfl, rfl, rfl⟩
    | error error => exact Guest.ends_fail.mpr ⟨rfl, rfl, rfl⟩

theorem ends_validateSmallPages {first : PhysAddr} {v : Validation} {ns : List Nat} :
    (validateSmallPages first v ns : OnBuffer Unit).Ends s events result s' ↔
      PagesRun first v ns events result ∧ s' = s := by
  induction ns generalizing s events with
  | nil =>
      rw [validateSmallPages, Guest.ends_pure]
      constructor
      · rintro ⟨rfl, rfl, rfl⟩
        exact ⟨.done, rfl⟩
      · rintro ⟨h, rfl⟩
        cases h
        exact ⟨rfl, rfl, rfl⟩
  | cons n rest ih =>
      rw [validateSmallPages]
      cases place : first.add? (n * PageSize.small.bytes) with
      | none =>
          constructor
          · intro h
            obtain ⟨rfl, rfl, rfl⟩ := Guest.ends_fault.mp h
            exact ⟨.beyond place, rfl⟩
          · rintro ⟨h, rfl⟩
            cases h with
            | beyond => exact Guest.ends_fault.mpr ⟨rfl, rfl, rfl⟩
            | failed _ place' => cases place.symm.trans place'
            | next place' => cases place.symm.trans place'
      | some address =>
          simp only [Guest.ends_bind, ends_validatePage]
          constructor
          · rintro (⟨stop, ⟨answer, rfl, rfl, same⟩, rfl⟩ |
              ⟨u, _, mid, last, ⟨answer, rfl, rfl, same⟩, h, rfl⟩)
            · cases answer with
              | ok u => cases same
              | error error =>
                  cases same
                  exact ⟨.failed error place, rfl⟩
            · cases answer with
              | error error => cases same
              | ok u =>
                  obtain ⟨h', rfl⟩ := ih.mp h
                  exact ⟨.next place h', rfl⟩
          · rintro ⟨h, rfl⟩
            cases h with
            | beyond place' => cases place.symm.trans place'
            | failed error place' =>
                cases place.symm.trans place'
                exact Or.inl ⟨_, ⟨.error error, rfl, rfl, rfl⟩, rfl⟩
            | next place' h' =>
                cases place.symm.trans place'
                exact Or.inr ⟨(), _, s', _, ⟨.ok (), rfl, rfl, rfl⟩, ih.mpr ⟨h', rfl⟩, rfl⟩

theorem ends_validateBlock {address : PhysAddr} {size : PageSize} {v : Validation} :
    (validateBlock address size v : OnBuffer Unit).Ends s events result s' ↔
      BlockRun address v size events result ∧ s' = s := by
  unfold validateBlock
  rw [ends_pvalidate_bind]
  constructor
  · rintro ⟨answer, rest, h, rfl⟩
    cases answer with
    | ok u =>
        obtain ⟨rfl, rfl, rfl⟩ := Guest.ends_pure.mp h
        exact ⟨.whole size, rfl⟩
    | error error =>
        by_cases mismatch : error = .sizeMismatch ∧ size = .large
        · obtain ⟨rfl, rfl⟩ := mismatch
          obtain ⟨rest', h', rfl⟩ := ends_log_bind.mp h
          obtain ⟨pages, rfl⟩ := ends_validateSmallPages.mp h'
          exact ⟨.split pages, rfl⟩
        · simp only [if_neg mismatch] at h
          obtain ⟨rfl, rfl, rfl⟩ := Guest.ends_fail.mp h
          exact ⟨.failed mismatch, rfl⟩
  · rintro ⟨h, rfl⟩
    cases h with
    | whole => exact ⟨.ok (), [], Guest.ends_pure.mpr ⟨rfl, rfl, rfl⟩, rfl⟩
    | @failed _ error mismatch =>
        refine ⟨.error error, [], ?_, rfl⟩
        simp only [if_neg mismatch]
        exact Guest.ends_fail.mpr ⟨rfl, rfl, rfl⟩
    | split pages =>
        exact ⟨.error .sizeMismatch, _,
          ends_log_bind.mpr ⟨_, ends_validateSmallPages.mpr ⟨pages, rfl⟩, rfl⟩, rfl⟩

theorem ends_validateEntries {entries : List Entry} :
    (validateEntries entries : OnBuffer Unit).Ends s events result s' ↔
      EntriesRun entries events result ∧ s' = s := by
  induction entries generalizing s events with
  | nil =>
      rw [validateEntries, Guest.ends_pure]
      constructor
      · rintro ⟨rfl, rfl, rfl⟩
        exact ⟨.done, rfl⟩
      · rintro ⟨h, rfl⟩
        cases h
        exact ⟨rfl, rfl, rfl⟩
  | cons e rest ih =>
      rw [validateEntries, validateEntry]
      cases wanted : e.assignment? with
      | none =>
          simp only [Guest.ends_bind, Guest.ends_fail]
          constructor
          · rintro (⟨stop, ⟨rfl, same, rfl⟩, rfl⟩ | ⟨u, _, mid, last, ⟨_, same, _⟩, -, -⟩)
            · cases same
              exact ⟨.invalid wanted, rfl⟩
            · cases same
          · rintro ⟨h, rfl⟩
            cases h with
            | invalid => exact Or.inl ⟨_, ⟨rfl, rfl, rfl⟩, rfl⟩
            | stopped wanted' => cases wanted.symm.trans wanted'
            | next wanted' => cases wanted.symm.trans wanted'
      | some assignment =>
          simp only [Guest.ends_bind, ends_validateBlock]
          constructor
          · rintro (⟨stop, ⟨block, rfl⟩, rfl⟩ | ⟨u, first, mid, last, ⟨block, rfl⟩, h, rfl⟩)
            · exact ⟨.stopped wanted block, rfl⟩
            · obtain ⟨h', rfl⟩ := ih.mp h
              exact ⟨.next wanted block h', rfl⟩
          · rintro ⟨h, rfl⟩
            cases h with
            | invalid wanted' => cases wanted.symm.trans wanted'
            | stopped wanted' block =>
                cases wanted.symm.trans wanted'
                exact Or.inl ⟨_, ⟨block, rfl⟩, rfl⟩
            | next wanted' block h' =>
                cases wanted.symm.trans wanted'
                exact Or.inr ⟨(), _, s', _, ⟨block, rfl⟩, ih.mpr ⟨h', rfl⟩, rfl⟩

theorem ends_exchangeAll {requests : List (List Entry)} :
    (exchangeAll requests).Ends s events result s' ↔
      RequestsRun requests events result ∧ s' = s := by
  induction requests generalizing s events with
  | nil =>
      rw [exchangeAll, Guest.ends_pure]
      constructor
      · rintro ⟨rfl, rfl, rfl⟩
        exact ⟨.done, rfl⟩
      · rintro ⟨h, rfl⟩
        cases h
        exact ⟨rfl, rfl, rfl⟩
  | cons request rest ih =>
      rw [exchangeAll, exchange]
      simp only [bind_assoc]
      rw [show (Guest.ask (I := calls) (.exchange request) : OnBuffer _)
        = Guest.perform (.request (I := calls) (.exchange request)) from rfl,
        Guest.ends_request_bind]
      constructor
      · rintro ⟨answer, last, h, rfl⟩
        cases answer with
        | ok u =>
            obtain ⟨h', rfl⟩ := ih.mp (by simpa using h)
            exact ⟨.next h', rfl⟩
        | error stop =>
            obtain ⟨rfl, rfl, rfl⟩ := Guest.ends_throw.mp (by simpa using h)
            exact ⟨.failed stop, rfl⟩
      · rintro ⟨h, rfl⟩
        cases h with
        | failed stop =>
            exact ⟨.error stop, [], by simp, rfl⟩
        | next h' => exact ⟨.ok (), _, by simpa using ih.mpr ⟨h', rfl⟩, rfl⟩

/-- Two programs that leave the buffer alone, one after the other. -/
theorem ends_inTurn {g g' : OnBuffer Unit}
    {course course' : List Event → Except Stop Unit → Prop}
    (first : ∀ {events result mid}, g.Ends s events result mid ↔ course events result ∧ mid = s)
    (second : ∀ {events result}, g'.Ends s events result s' ↔ course' events result ∧ s' = s) :
    (g >>= fun _ => g').Ends s events result s' ↔
      InTurn course course' events result ∧ s' = s := by
  simp only [Guest.ends_bind, first]
  constructor
  · rintro (⟨stop, ⟨h, rfl⟩, rfl⟩ | ⟨u, _, mid, last, ⟨h, rfl⟩, h', rfl⟩)
    · exact ⟨.stopped h, rfl⟩
    · exact ⟨.through h (second.mp h').1, (second.mp h').2⟩
  · rintro ⟨h, rfl⟩
    cases h with
    | stopped h => exact Or.inl ⟨_, ⟨h, rfl⟩, rfl⟩
    | through h h' => exact Or.inr ⟨(), _, s', _, ⟨h, rfl⟩, second.mpr ⟨h', rfl⟩, rfl⟩

theorem ends_changeBatch {entries : List Entry} {assignment : Assignment} :
    (changeBatch entries assignment).Ends s events result s' ↔
      BatchRun entries assignment events result ∧ s' = s := by
  cases assignment with
  | guestOnly => exact ends_inTurn ends_exchangeAll ends_validateEntries
  | shared => exact ends_inTurn ends_validateEntries ends_exchangeAll

/-- The walk of a batch, apart from the buffer that it is written to. -/
theorem walk_of_fill {batch batch' : Batch} {goal : Goal} {address : Nat}
    {reached : Except Fault Nat} (h : batch.fill goal address = (batch', reached)) :
    goal.walk batch.capacity address = (batch'.entries, reached) := by
  have entries := batch.entries_fill goal address
  have reached' := batch.fill_snd goal address
  rw [h] at entries reached'
  exact Prod.ext entries.symm reached'.symm

/-- What a change of a range does depends on the size of the buffer and on nothing else
in it. -/
theorem exists_ends_changeFrom_iff {goal : Goal} {capacity address : Nat} {batch : Batch}
    {room : 0 < batch.capacity} (full : batch.capacity = capacity) :
    (∃ s', (changeFrom goal batch room address).Ends s events result s') ↔
      RangeRun goal capacity address events result := by
  -- the recursion of the program: what is left of the range after a batch
  induction left : goal.stop - address using Nat.strongRecOn
    generalizing batch address s events with
  | ind _ ih =>
      subst left
      rw [changeFrom]
      by_cases more : address < goal.stop
      · simp only [dif_pos more]
        split
        · next batch' limit filled =>
            have walked := full ▸ walk_of_fill filled
            simp only [Guest.ends_put_bind, Guest.ends_fault]
            constructor
            · rintro ⟨s', rfl, rfl, rfl⟩
              exact .limited more walked
            · intro h
              cases h with
              | done none => exact absurd more (Nat.not_lt.mpr none)
              | limited _ walked' =>
                  cases walked.symm.trans walked'
                  exact ⟨_, rfl, rfl, rfl⟩
              | stopped _ walked' => cases walked.symm.trans walked'
              | next _ walked' => cases walked.symm.trans walked'
        · next batch' next filled =>
            have walked := full ▸ walk_of_fill filled
            have onward := Goal.lt_of_walk (full ▸ room) more (congrArg Prod.snd walked)
            have full' := (Batch.capacity_of_fill filled).trans full
            simp only [Guest.ends_put_bind]
            simp only [Guest.ends_bind, ends_changeBatch]
            constructor
            · rintro ⟨s', ⟨stop, ⟨h, rfl⟩, rfl⟩ | ⟨u, first, mid, last, ⟨h, rfl⟩, h', rfl⟩⟩
              · exact .stopped more walked h
              · exact .next more walked h ((ih _ (by omega) full' rfl).mp ⟨s', h'⟩)
            · intro h
              cases h with
              | done none => exact absurd more (Nat.not_lt.mpr none)
              | limited _ walked' => cases walked.symm.trans walked'
              | stopped _ walked' h =>
                  cases walked.symm.trans walked'
                  exact ⟨_, Or.inl ⟨_, ⟨h, rfl⟩, rfl⟩⟩
              | next _ walked' h h' =>
                  cases walked.symm.trans walked'
                  obtain ⟨s', h''⟩ := (ih _ (by omega) full' rfl).mpr h'
                  exact ⟨s', Or.inr ⟨(), _, _, _, ⟨h, rfl⟩, h'', rfl⟩⟩
      · simp only [dif_neg more, Guest.ends_pure]
        constructor
        · rintro ⟨s', rfl, rfl, rfl⟩
          exact .done (Nat.not_lt.mp more)
        · intro h
          cases h with
          | done => exact ⟨s, rfl, rfl, rfl⟩
          | limited more' => exact absurd more' more
          | stopped more' => exact absurd more' more
          | next more' => exact absurd more' more

/-- The runs of an order, from a buffer on. -/
theorem exists_ends_tryChange_iff {order : Order} {buffer : List Entry} :
    (∃ s', (tryChange order).Ends buffer events result s') ↔
      OrderRun order buffer.length events result := by
  unfold tryChange
  simp only [Guest.ends_look_bind]
  by_cases room : 0 < (Batch.ofBuffer buffer).capacity
  · simp only [dif_pos room]
    cases found : order.stop? with
    | none =>
        have beyond := Order.stop?_eq_none_iff.mp found
        simp only [Guest.ends_fail]
        constructor
        · rintro ⟨s', rfl, rfl, rfl⟩
          exact .noRange room beyond
        · intro h
          cases h with
          | noRoom empty => exact absurd room (Nat.not_lt.mpr (Nat.le_of_eq empty))
          | noRange => exact ⟨buffer, rfl, rfl, rfl⟩
          | accepted _ within => exact absurd beyond (Nat.not_lt.mpr within)
    | some stop =>
        obtain ⟨rfl, within⟩ := Order.stop?_eq_some_iff.mp found
        constructor
        · rintro ⟨s', h⟩
          obtain ⟨u, rest, h', rfl⟩ := Guest.ends_request_bind.mp h
          exact .accepted room within ((exists_ends_changeFrom_iff rfl).mp ⟨s', h'⟩)
        · intro h
          cases h with
          | noRoom empty => exact absurd room (Nat.not_lt.mpr (Nat.le_of_eq empty))
          | noRange _ beyond => exact absurd beyond (Nat.not_lt.mpr within)
          | accepted _ _ h =>
              have rest : ∃ s', (changeFrom order.goal (.ofBuffer buffer) room
                  order.start.start.val).Ends buffer _ result s' :=
                (exists_ends_changeFrom_iff rfl).mpr h
              obtain ⟨s', h'⟩ := rest
              exact ⟨s', Guest.ends_request_bind.mpr ⟨(), _, h', rfl⟩⟩
  · simp only [dif_neg room, Guest.ends_fail]
    constructor
    · rintro ⟨s', rfl, rfl, rfl⟩
      exact .noRoom (Nat.eq_zero_of_not_pos room)
    · intro h
      cases h with
      | noRoom => exact ⟨buffer, rfl, rfl, rfl⟩
      | noRange room' => exact absurd room' room
      | accepted room' => exact absurd room' room

end

/-- The run of an order in a world. -/
theorem orderRun_of_run {σ : Type} (order : Order) (buffer : List Entry)
    (world : Program.World calls σ) (s : σ) :
    let run := ((tryChange order).play buffer).run world s #[]
    OrderRun order buffer.length run.2.2.toList run.1.1 := by
  intro run
  obtain ⟨reaches, -⟩ := Program.reaches_of_run world ((tryChange order).play buffer) s
  exact exists_ends_tryChange_iff.mp ⟨run.1.2, reaches⟩

end SnpMemory.Change

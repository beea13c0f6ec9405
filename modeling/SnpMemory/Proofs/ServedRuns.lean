/-
# `SnpMemory.Proofs.ServedRuns` — the runs of a change over the protocol

A change of memory does not know how its requests are carried out.  Over the protocol
each of its exchanges is a run of exits between the masking and the unmasking of
interrupts, and everything else is passed on.  So an event of the change stands for
some events of the protocol, and the page goes from one state to another meanwhile:

    Serves p g ev es g'        the answer in `ev` came about by the events `es`
    ServesAll p g evs es g'    the same for all events of a run, in order

A run over the protocol is a run of the change together with the way in which its
events were served (`reaches_playChange_iff`).  Hence what holds of every run of a
change holds over the protocol as well, and what the protocol adds is said of one
exchange at a time.
-/
import SnpMemory.Proofs.ChangeRuns
import SnpMemory.Proofs.ExchangeRuns

namespace SnpMemory.Protocol

/-- A PVALIDATE call and its answer. -/
abbrev Event.pvalidate (address : PhysAddr) (size : PageSize) (v : Validation)
    (answer : Except PvalidateError Unit) : Event :=
  ⟨.pvalidate address size v, answer⟩

/-- One event of a change, the events that it stands for, and the page before and after. -/
inductive Serves (p : Protocol) (g : Ghcb) : Change.Event → List Event → Ghcb → Prop
  | pvalidate (address : PhysAddr) (size : PageSize) (v : Validation)
      (answer : Except PvalidateError Unit) :
      Serves p g (.pvalidate address size v answer) [.pvalidate address size v answer] g
  | exchange {entries : List Entry} {answer : Except Stop Unit} {events : List Event}
      {g' : Ghcb} :
      ExchangeRun p entries g events answer g' → Serves p g (.exchange entries answer) events g'
  | terminate : Serves p g ⟨.terminate, ()⟩ [⟨.terminate, ()⟩] g
  | log (line : LogLine) : Serves p g (.log line) [.log line] g

/-- The events of a change are served one after the other. -/
inductive ServesAll (p : Protocol) : Ghcb → List Change.Event → List Event → Ghcb → Prop
  | nil (g : Ghcb) : ServesAll p g [] [] g
  | cons {g mid g' : Ghcb} {ev : Change.Event} {rest : List Change.Event}
      {events more : List Event} :
      Serves p g ev events mid → ServesAll p mid rest more g' →
      ServesAll p g (ev :: rest) (events ++ more) g'

variable {p : Protocol} {g g' : Ghcb} {events : List Event}

/-! ## They are the ways of the programs -/

/-- A request that is passed on leaves the page alone. -/
theorem reaches_lift_request {r : Call} {answer : r.Answer} :
    ((StateT.lift (Program.request (I := calls) r) : StateT Ghcb (Program calls) _).run g).Reaches
        events (.done (answer, g')) ↔ events = [⟨r, answer⟩] ∧ g' = g := by
  constructor
  · intro h
    obtain ⟨answer', rest, tail, rfl⟩ := Program.reaches_ask_done.mp h
    obtain ⟨rfl, same⟩ := Program.reaches_done_done.mp tail
    obtain ⟨rfl, rfl⟩ := Prod.mk.inj same
    exact ⟨rfl, rfl⟩
  · rintro ⟨rfl, rfl⟩
    exact Program.reaches_ask_done.mpr ⟨answer, [], .here _, rfl⟩

theorem reaches_serve_iff {r : Change.Call} {answer : r.Answer} :
    ((p.serve r).run g).Reaches events (.done (answer, g')) ↔
      Serves p g ⟨r, answer⟩ events g' := by
  cases r with
  | pvalidate address size v =>
      constructor
      · intro h
        obtain ⟨rfl, rfl⟩ := reaches_lift_request.mp h
        exact .pvalidate address size v answer
      · intro h
        cases h
        exact reaches_lift_request.mpr ⟨rfl, rfl⟩
  | exchange entries =>
      constructor
      · intro h
        exact .exchange (exchangeRun_of_ends h)
      · intro h
        cases h with
        | exchange run => exact ends_of_exchangeRun run
  | terminate =>
      constructor
      · intro h
        obtain ⟨rfl, rfl⟩ := reaches_lift_request.mp h
        exact .terminate
      · intro h
        cases h
        exact reaches_lift_request.mpr ⟨rfl, rfl⟩
  | log line =>
      constructor
      · intro h
        obtain ⟨rfl, rfl⟩ := reaches_lift_request.mp h
        exact .log line
      · intro h
        cases h
        exact reaches_lift_request.mpr ⟨rfl, rfl⟩

theorem reaches_interpret_iff {α : Type} {program : Program Change.calls α} {a : α} :
    ((program.interpret (I := Change.calls) p.serve).run g).Reaches events (.done (a, g')) ↔
      ∃ above, program.Reaches above (.done a) ∧ ServesAll p g above events g' := by
  induction program generalizing g events with
  | done b =>
      constructor
      · intro h
        obtain ⟨rfl, same⟩ := Program.reaches_done_done.mp h
        obtain ⟨rfl, rfl⟩ := Prod.mk.inj same
        exact ⟨[], .here _, .nil _⟩
      · rintro ⟨above, h, served⟩
        obtain ⟨rfl, rfl⟩ := Program.reaches_done_done.mp h
        cases served
        exact .here _
  | ask r k ih =>
      rw [Program.interpret, StateT.run_bind, Program.reaches_bind_done]
      constructor
      · rintro ⟨⟨answer, mid⟩, first, last, h, h', rfl⟩
        obtain ⟨above, reaches, served⟩ := (ih answer).mp h'
        exact ⟨⟨r, answer⟩ :: above, .step answer reaches,
          .cons (reaches_serve_iff.mp h) served⟩
      · rintro ⟨above, h, served⟩
        obtain ⟨answer, rest, tail, rfl⟩ := Program.reaches_ask_done.mp h
        cases served with
        | cons first later =>
            exact ⟨(answer, _), _, _, reaches_serve_iff.mpr first,
              (ih answer).mpr ⟨rest, tail, later⟩, rfl⟩

/-- The runs of a change over the protocol, from a buffer and a page on. -/
theorem reaches_playChange_iff {α : Type} {change : Change.OnBuffer α}
    {buffer buffer' : List Entry} {result : Except Stop α} :
    (p.playChange change buffer g).Reaches events (.done ((result, buffer'), g')) ↔
      ∃ above, change.Ends buffer above result buffer' ∧ ServesAll p g above events g' :=
  reaches_interpret_iff

/-- The events of two runs in a row are served in two parts. -/
theorem ServesAll.exists_append {above more : List Change.Event}
    (h : ServesAll p g (above ++ more) events g') :
    ∃ first mid last, ServesAll p g above first mid ∧ ServesAll p mid more last g' ∧
      events = first ++ last := by
  induction above generalizing g events with
  | nil => exact ⟨[], g, events, .nil g, h, rfl⟩
  | cons ev rest ih =>
      cases h with
      | cons serves later =>
          obtain ⟨first, mid, last, h₁, h₂, rfl⟩ := ih later
          exact ⟨_, mid, last, .cons serves h₁, h₂, (List.append_assoc _ _ _).symm⟩

end SnpMemory.Protocol

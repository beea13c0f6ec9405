/-
# `SnpMemory.Proofs.Sessions` — operations on one protocol, one after the other

A guest keeps one protocol and one page, and asks for this and that: an exchange of
entries, the change of a single frame, of a range, with or without the end of the guest
if that fails, and the end of the guest.  A session is a list of such operations.  Each
goes on with the page that the one before it left, whatever its result was.

As seen from above, every operation is a program of `SnpMemory.Change`: an exchange of
entries is the program with just that request.  So the run of an operation is a run of
its program with the way in which its requests were served (`exists_above`), and what is
said about the service holds for every operation.

    op.program.Ends op.buffer above result buffer'     what is asked for, from above
    ServesAll p g above events g'                      how it is carried out
-/
import SnpMemory.Proofs.ServedRuns

namespace SnpMemory

open Change (Order)

/-! ## Operations -/

/-- What a guest can ask of its protocol. -/
inductive Operation where
  | exchange (entries : List Entry)
  | changeFrame {size : PageSize} (frame : Frame size) (assignment : Assignment)
  | tryChange (order : Order) (buffer : List Entry)
  | change (order : Order) (buffer : List Entry)
  | terminate

namespace Operation

/-- How an operation has ended, and its buffer afterwards. -/
abbrev Outcome : Type := Except Stop Unit × List Entry

/-- The operation as seen from above. -/
def program : Operation → Change.OnBuffer Unit
  | exchange entries => Change.exchange entries
  | @changeFrame size frame assignment =>
    Change.exchange [.ofPage frame.start size assignment]
  | tryChange order _ => Change.tryChange order
  | change order _ => Change.change order
  | terminate => Change.terminate

def buffer : Operation → List Entry
  | tryChange _ buffer => buffer
  | change _ buffer => buffer
  | _ => []

end Operation

namespace Protocol

/-- The end of an operation that has no buffer. -/
def withoutBuffer (program : Program calls (Except Stop Unit × Ghcb)) :
    Program calls (Operation.Outcome × Ghcb) :=
  program >>= fun (result, page) => .done ((result, []), page)

/-- Carries out an operation. -/
def perform (p : Protocol) (page : Ghcb) : Operation → Program calls (Operation.Outcome × Ghcb)
  | .exchange entries => withoutBuffer ((p.exchange entries).play page)
  | .changeFrame frame assignment => withoutBuffer ((p.changeFrame frame assignment).play page)
  | .tryChange order buffer => p.playChange (Change.tryChange order) buffer page
  | .change order buffer => p.playChange (Change.change order) buffer page
  | .terminate => withoutBuffer (terminate.play page)

/-- Carries out operations, one after the other. -/
def session (p : Protocol) :
    List Operation → Ghcb → Program calls (List Operation.Outcome × Ghcb)
  | [], page => .done ([], page)
  | op :: rest, page => do
    let (outcome, page) ← p.perform page op
    let (outcomes, page) ← p.session rest page
    return (outcome :: outcomes, page)

end Protocol

/-! ## From above -/

namespace Change

variable {s s' : List Entry} {events : List Event} {result : Except Stop Unit}

theorem ends_exchange {entries : List Entry} :
    (exchange entries).Ends s events result s' ↔
      events = [.exchange entries result] ∧ s' = s := by
  unfold exchange
  rw [show (Guest.ask (I := calls) (.exchange entries) : OnBuffer _)
    = Guest.perform (.request (I := calls) (.exchange entries)) from rfl,
    Guest.ends_request_bind]
  constructor
  · rintro ⟨answer, rest, h, rfl⟩
    obtain stop | u : Except Stop Unit := answer
    · obtain ⟨rfl, rfl, rfl⟩ := Guest.ends_throw.mp h
      exact ⟨rfl, rfl⟩
    · obtain ⟨rfl, rfl, rfl⟩ := Guest.ends_pure.mp h
      exact ⟨rfl, rfl⟩
  · rintro ⟨rfl, rfl⟩
    refine ⟨result, [], ?_, rfl⟩
    cases result with
    | error stop => exact Guest.ends_throw.mpr ⟨rfl, rfl, rfl⟩
    | ok u => exact Guest.ends_pure.mpr ⟨rfl, rfl, rfl⟩

theorem ends_terminate :
    terminate.Ends s events result s' ↔
      events = [⟨.terminate, ()⟩] ∧ result = .error .terminated ∧ s' = s := by
  unfold terminate
  rw [show (Guest.ask (I := calls) .terminate : OnBuffer _)
    = Guest.perform (.request (I := calls) .terminate) from rfl, Guest.ends_request_bind]
  constructor
  · rintro ⟨answer, rest, h, rfl⟩
    obtain ⟨rfl, rfl, rfl⟩ := Guest.ends_throw.mp h
    exact ⟨rfl, rfl, rfl⟩
  · rintro ⟨rfl, rfl, rfl⟩
    exact ⟨(), [], Guest.ends_throw.mpr ⟨rfl, rfl, rfl⟩, rfl⟩

/-- What comes after a change, by its result. -/
def conclude : Except Stop Unit → OnBuffer Unit
  | .ok () => pure ()
  | .error (.failed error) => do
    Guest.ask (I := calls) (.log (.failed error))
    terminate
  | .error stop => throw stop

theorem change_eq (order : Order) :
    change order = Guest.attempt (tryChange order) >>= conclude := rfl

theorem play_change (order : Order) (buffer : List Entry) :
    (change order).play buffer =
      (tryChange order).play buffer >>= fun x => (conclude x.1).play x.2 := by
  rw [change_eq, Guest.play_bind, Guest.play_attempt, bind_assoc]
  rfl

theorem play_conclude_of_failed (error : ChangeError) (buffer : List Entry) :
    (conclude (.error (.failed error))).play buffer =
      .ask (.log (.failed error)) fun _ => .ask .terminate fun _ =>
        .done (.error .terminated, buffer) := rfl

theorem play_conclude_of_other {result : Except Stop Unit}
    (other : ∀ error, result ≠ .error (.failed error)) (buffer : List Entry) :
    (conclude result).play buffer = .done (result, buffer) := by
  match result, other with
  | .ok (), _ => rfl
  | .error (.failed error), other => exact absurd rfl (other error)
  | .error (.fault limit), _ => rfl
  | .error .terminated, _ => rfl

/-- A change that failed is followed by a line about it and the end of the guest. -/
inductive Guarded (first : List Event) :
    Except Stop Unit → List Event → Except Stop Unit → Prop
  | done : Guarded first (.ok ()) first (.ok ())
  | ended (error : ChangeError) :
      Guarded first (.error (.failed error)) (first ++ [.log (.failed error), ⟨.terminate, ()⟩])
        (.error .terminated)
  | stopped {stop : Stop} : (∀ error, stop ≠ .failed error) →
      Guarded first (.error stop) first (.error stop)

theorem exists_guarded {order : Order} (h : (change order).Ends s events result s') :
    ∃ first outcome, (tryChange order).Ends s first outcome s' ∧
      Guarded first outcome events result := by
  unfold Guest.Ends at h
  rw [play_change] at h
  obtain ⟨⟨outcome, mid⟩, first, last, ends, after, rfl⟩ := Program.reaches_bind_done.mp h
  by_cases other : ∀ error, outcome ≠ .error (.failed error)
  · rw [play_conclude_of_other other] at after
    obtain ⟨rfl, same⟩ := Program.reaches_done_done.mp after
    obtain ⟨rfl, rfl⟩ := Prod.mk.inj same
    rw [List.append_nil]
    refine ⟨first, result, ends, ?_⟩
    cases result with
    | ok u => exact .done
    | error stop => exact .stopped fun error same => other error (congrArg Except.error same)
  · obtain ⟨error, rfl⟩ := Classical.not_forall_not.mp other
    rw [play_conclude_of_failed] at after
    obtain ⟨u, said, tail, rfl⟩ := Program.reaches_ask_done.mp after
    obtain ⟨u', rest, tail', rfl⟩ := Program.reaches_ask_done.mp tail
    obtain ⟨rfl, same⟩ := Program.reaches_done_done.mp tail'
    obtain ⟨rfl, rfl⟩ := Prod.mk.inj same
    exact ⟨first, _, ends, .ended error⟩

end Change

namespace Protocol

variable {p : Protocol} {g g' : Ghcb} {events : List Event} {outcome : Operation.Outcome}

/-- The runs of operations on one protocol, each from the page that the one before it left. -/
inductive SessionRun (p : Protocol) :
    List Operation → Ghcb → List Event → List Operation.Outcome → Ghcb → Prop
  | nil (g : Ghcb) : SessionRun p [] g [] [] g
  | cons {op : Operation} {rest : List Operation} {g mid g' : Ghcb} {above : List Change.Event}
      {events more : List Event} {outcome : Operation.Outcome}
      {outcomes : List Operation.Outcome} :
      op.program.Ends op.buffer above outcome.1 outcome.2 → ServesAll p g above events mid →
      SessionRun p rest mid more outcomes g' →
      SessionRun p (op :: rest) g (events ++ more) (outcome :: outcomes) g'

end Protocol

end SnpMemory

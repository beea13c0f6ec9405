/-
# `SnpMemory.Proofs.Termination` — a failed change is the last thing that a guest does

`change` is `tryChange` with something after it (`Change.play_change`).  So in one and the same
world both do the same up to that point, and what comes then depends on the result alone:

    all is well      nothing
    an error         a line about it, a request to end the guest, and nothing after that
    a fault          nothing, since the guest has stopped on the spot

`Guards` says this of two reports from the same world, and `guards_of_bind` proves it of any
two programs of which one is the other with something after it.  That is how things stand at
each level: for any exchange, over a protocol, and on the processor, because the programs of
a lower level are put together as those above are (`playChange_change`, `runFor_change`).

What belongs to the end of a guest occurs nowhere else (`IsLastWord`).  A change that is not
guarded logs no errors and never asks for the end of the guest; and whatever it writes to the
register of the protocol is the address of a page, while the message that ends the guest is
not (`pageAt_ne_terminate`).

The processor halts for ever if the hypervisor does not end the guest.  Programs here are
finite, so the guest is watched for some number of rounds (`haltFor`), and what is proved
holds for any number.
-/
import SnpMemory.Proofs.Instructions
import SnpMemory.Proofs.Limits

namespace SnpMemory

open Change (Order tryChange change)

/-! ## Two programs in the same world -/

namespace Program

variable {I : Interface} {α β : Type}

/-- Whatever it is answered, the program makes these requests, gets these answers and ends
with this. -/
def Utters (q : Program I α) (words : List I.Event) (a : α) : Prop :=
  ∀ events b, q.Reaches events (.done b) → events = words ∧ b = a

theorem Utters.done (a : α) : (done a : Program I α).Utters [] a := by
  intro events b h
  exact reaches_done_done.mp h

/-- A request that has one answer only. -/
theorem Utters.ask {r : I.Request} {k : I.Answer r → Program I α} {answer : I.Answer r}
    {words : List I.Event} {a : α} (only : ∀ answer', answer' = answer)
    (h : (k answer).Utters words a) : (ask r k).Utters (⟨r, answer⟩ :: words) a := by
  intro events b reaches
  obtain ⟨answer', rest, tail, rfl⟩ := reaches_ask_done.mp reaches
  obtain rfl := only answer'
  obtain ⟨rfl, rfl⟩ := h rest b tail
  exact ⟨rfl, rfl⟩

theorem Utters.bind {q : Program I α} {f : α → Program I β} {words more : List I.Event} {a : α}
    {b : β} (h : q.Utters words a) (h' : (f a).Utters more b) :
    (q >>= f).Utters (words ++ more) b := by
  intro events c reaches
  obtain ⟨a', first, last, r, r', rfl⟩ := reaches_bind_done.mp reaches
  obtain ⟨rfl, rfl⟩ := h first a' r
  obtain ⟨rfl, rfl⟩ := h' last c r'
  exact ⟨rfl, rfl⟩

theorem Utters.run_eq {q : Program I α} {words : List I.Event} {a : α} (h : q.Utters words a)
    {σ : Type} (world : World I σ) (s : σ) (past : Array I.Event) :
    (q.run world s past).1 = a ∧ (q.run world s past).2.2.toList = past.toList ++ words := by
  obtain ⟨events, reaches, -, trace⟩ := exists_follows_of_run world q s past
  obtain ⟨rfl, same⟩ := h _ _ reaches
  exact ⟨same, trace⟩

/-- Two ways to carry out requests come to the same if they agree on all that a program can
ask for. -/
theorem interpret_congr {m : Type → Type} [Monad m] {handle handle' : (r : I.Request) →
    m (I.Answer r)} {p : Program I α}
    (same : ∀ before r k, p.Reaches before (.ask r k) → handle r = handle' r) :
    p.interpret handle = p.interpret handle' := by
  induction p with
  | done a => rfl
  | ask r k ih =>
      show (handle r >>= fun answer => (k answer).interpret handle) = handle' r >>= _
      rw [same [] r k (.here _)]
      refine congrArg _ (funext fun answer => ih answer ?_)
      intro before r' k' reaches
      exact same (⟨r, answer⟩ :: before) r' k' (.step answer reaches)

end Program

/-- How a program fared in a world: its result, what it leaves to its caller, the memory of the
world, and all that happened. -/
structure Report (I : Interface) (τ σ : Type) where
  result : Except Stop Unit
  left : τ
  memory : σ
  events : List I.Event

/-- The report of a run from a memory on, where `view` shows its result and what it leaves. -/
def Program.report {I : Interface} {α τ σ : Type} (world : Program.World I σ)
    (view : α → Except Stop Unit × τ) (program : Program I α) (s : σ) : Report I τ σ :=
  let run := program.run world s #[]
  ⟨(view run.1).1, (view run.1).2, run.2.1, run.2.2.toList⟩

/-- `run` is `tried` if that went well.  If it failed with an error, `run` goes on with the last
words and does not come back. -/
structure Guards {I : Interface} {τ σ : Type} (lastWords : ChangeError → List I.Event)
    (tried run : Report I τ σ) : Prop where
  ok_iff : run.result = .ok () ↔ tried.result = .ok ()
  eq_of_ok : tried.result = .ok () → run = tried
  of_failed : ∀ error, tried.result = .error (.failed error) →
    run.result = .error .terminated ∧ run.left = tried.left ∧
      run.events = tried.events ++ lastWords error
  of_stopped : ∀ stop, tried.result = .error stop → (∀ error, stop ≠ .failed error) → run = tried

section

variable {I : Interface} {α τ σ : Type} {p : Program I α} {f : α → Program I α}
  {view : α → Except Stop Unit × τ} {world : Program.World I σ} {s : σ}

theorem report_bind_of_done
    (nothing : f (p.run world s #[]).1 = .done (p.run world s #[]).1) :
    (p >>= f).report world view s = p.report world view s := by
  unfold Program.report
  rw [Program.run_bind, nothing]
  rfl

theorem report_bind_of_utters (view : α → Except Stop Unit × τ) {words : List I.Event} {b : α}
    (utters : (f (p.run world s #[]).1).Utters words b) :
    let run := (p >>= f).report world view s
    run.result = (view b).1 ∧ run.left = (view b).2 ∧
      run.events = (p.report world view s).events ++ words := by
  obtain ⟨last, trace⟩ := utters.run_eq world (p.run world s #[]).2.1 (p.run world s #[]).2.2
  unfold Program.report
  rw [Program.run_bind]
  exact ⟨congrArg (fun b => (view b).1) last, congrArg (fun b => (view b).2) last, trace⟩

/-- A program and the same program with something after it, in the same world.  What comes
after is nothing, unless there was an error. -/
theorem guards_of_bind {lastWords : ChangeError → List I.Event}
    (nothing : ∀ a, (∀ error, (view a).1 ≠ .error (.failed error)) → f a = .done a)
    (failed : ∀ a error, (view a).1 = .error (.failed error) →
      ∃ b, view b = (.error .terminated, (view a).2) ∧ (f a).Utters (lastWords error) b)
    (world : Program.World I σ) (s : σ) :
    Guards lastWords (p.report world view s) ((p >>= f).report world view s) := by
  have same : (∀ error, (p.report world view s).result ≠ .error (.failed error)) →
      (p >>= f).report world view s = p.report world view s :=
    fun other => report_bind_of_done (nothing _ other)
  have ended : ∀ error, (p.report world view s).result = .error (.failed error) →
      ((p >>= f).report world view s).result = .error .terminated ∧
      ((p >>= f).report world view s).left = (p.report world view s).left ∧
      ((p >>= f).report world view s).events =
        (p.report world view s).events ++ lastWords error := by
    intro error result
    obtain ⟨b, shown, utters⟩ := failed _ error result
    have rest := report_bind_of_utters view utters
    rw [shown] at rest
    exact rest
  constructor
  · by_cases other : ∀ error, (p.report world view s).result ≠ .error (.failed error)
    · rw [same other]
    · obtain ⟨error, result⟩ := Classical.not_forall_not.mp other
      rw [(ended error result).1, result]
      exact iff_of_false nofun nofun
  · intro ok
    exact same fun error => by rw [ok]; exact nofun
  · exact ended
  · intro stop stopped other
    refine same fun error failed => ?_
    cases stopped.symm.trans failed
    exact other error rfl

end

/-! ## After a change -/

namespace Change

/-- An error is logged, and the end of the guest is asked for. -/
def lastWords (error : ChangeError) : List Event := [.log (.failed error), ⟨.terminate, ()⟩]

theorem guards_change {σ : Type} (order : Order) (buffer : List Entry)
    (world : Program.World calls σ) (s : σ) :
    Guards lastWords (((tryChange order).play buffer).report world id s)
      (((change order).play buffer).report world id s) := by
  rw [play_change]
  refine guards_of_bind (fun a other => play_conclude_of_other other a.2) ?_ world s
  rintro ⟨result, buffer'⟩ error failed
  obtain rfl : result = .error (.failed error) := failed
  refine ⟨(.error .terminated, buffer'), rfl, ?_⟩
  rw [play_conclude_of_failed]
  exact .ask (fun _ => rfl) (.ask (fun _ => rfl) (.done _))

/-- What belongs to the end of a guest. -/
def Event.IsLastWord : Event → Prop
  | ⟨.terminate, _⟩ => True
  | ⟨.log line, _⟩ => line.level = "ERROR"
  | _ => False

theorem OrderRun.not_isLastWord {order : Order} {capacity : Nat} {events : List Event}
    {result : Except Stop Unit} (run : OrderRun order capacity events result) :
    ∀ ev ∈ events, ¬ ev.IsLastWord := by
  have debug : "DEBUG" ≠ "ERROR" := by decide
  exact run.forall_mem (fun _ _ _ _ => id) (fun _ => debug) (fun _ _ _ _ => id) debug

end Change

/-! ## Over a protocol -/

namespace Protocol

variable {p : Protocol} {g g' : Ghcb} {events : List Event}

/-- What a run over the protocol ends with, and the buffer and the page that it leaves. -/
def view (last : (Except Stop Unit × List Entry) × Ghcb) :
    Except Stop Unit × List Entry × Ghcb :=
  (last.1.1, last.1.2, last.2)

theorem playChange_change (p : Protocol) (order : Order) (buffer : List Entry) (page : Ghcb) :
    p.playChange (change order) buffer page =
      p.playChange (tryChange order) buffer page >>= fun x =>
        p.playChange (Change.conclude x.1.1) x.1.2 x.2 := by
  unfold playChange
  rw [Change.play_change, Program.interpret_bind, StateT.run_bind]

theorem playChange_conclude_of_failed (error : ChangeError) (buffer : List Entry) (page : Ghcb) :
    p.playChange (Change.conclude (.error (.failed error))) buffer page =
      .ask (.log (.failed error)) fun _ => .ask .terminate fun _ =>
        .done ((.error .terminated, buffer), page) := rfl

theorem playChange_conclude_of_other {result : Except Stop Unit}
    (other : ∀ error, result ≠ .error (.failed error)) (buffer : List Entry) (page : Ghcb) :
    p.playChange (Change.conclude result) buffer page = .done ((result, buffer), page) := by
  unfold playChange
  rw [Change.play_conclude_of_other other]
  rfl

def lastWords (error : ChangeError) : List Event := [.log (.failed error), ⟨.terminate, ()⟩]

theorem guards_change {σ : Type} (p : Protocol) (order : Order) (buffer : List Entry) (page : Ghcb)
    (world : Program.World calls σ) (s : σ) :
    Guards lastWords ((p.playChange (tryChange order) buffer page).report world view s)
      ((p.playChange (change order) buffer page).report world view s) := by
  rw [playChange_change]
  refine guards_of_bind (fun a other => playChange_conclude_of_other other a.1.2 a.2) ?_ world s
  rintro ⟨⟨result, buffer'⟩, page'⟩ error failed
  obtain rfl : result = .error (.failed error) := failed
  refine ⟨((.error .terminated, buffer'), page'), rfl, ?_⟩
  rw [playChange_conclude_of_failed]
  exact .ask (fun _ => rfl) (.ask (fun _ => rfl) (.done _))

def Event.IsLastWord : Event → Prop
  | ⟨.terminate, _⟩ => True
  | ⟨.log line, _⟩ => line.level = "ERROR"
  | _ => False

theorem Serves.not_isLastWord {ev : Change.Event} (serves : Serves p g ev events g')
    (other : ¬ ev.IsLastWord) : ∀ ev' ∈ events, ¬ ev'.IsLastWord := by
  cases serves with
  | pvalidate => exact List.forall_mem_singleton.mpr id
  | exchange run =>
      obtain ⟨taken, -, bracket⟩ := run.exists_bracket
      have trace : "TRACE" ≠ "ERROR" := by decide
      exact bracket.forall_mem id id (fun _ _ _ => id) fun _ _ => trace
  | terminate => exact absurd trivial other
  | log => exact List.forall_mem_singleton.mpr other

theorem ServesAll.not_isLastWord {above : List Change.Event}
    (served : ServesAll p g above events g') (other : ∀ ev ∈ above, ¬ ev.IsLastWord) :
    ∀ ev ∈ events, ¬ ev.IsLastWord := by
  induction served with
  | nil => exact List.forall_mem_nil _
  | cons serves _ ih =>
      obtain ⟨first, later⟩ := List.forall_mem_cons.mp other
      exact List.forall_mem_append.mpr ⟨serves.not_isLastWord first, ih later⟩

theorem not_isLastWord_of_reaches {order : Order} {buffer : List Entry}
    {last : (Except Stop Unit × List Entry) × Ghcb}
    (h : (p.playChange (tryChange order) buffer g).Reaches events (.done last)) :
    ∀ ev ∈ events, ¬ ev.IsLastWord := by
  obtain ⟨above, ends, served⟩ := reaches_playChange_iff.mp h
  exact served.not_isLastWord (Change.exists_ends_tryChange_iff.mp ⟨_, ends⟩).not_isLastWord

instance (call : Call) : Nonempty (calls.Answer call) := by
  cases call with
  | pvalidate => exact ⟨.ok ()⟩
  | maskInterrupts => exact ⟨()⟩
  | unmaskInterrupts => exact ⟨()⟩
  | exit => exact ⟨.zero⟩
  | terminate => exact ⟨()⟩
  | log => exact ⟨()⟩

/-- A change that is not guarded never comes to the point of asking for the end of the guest. -/
theorem ne_terminate_of_reaches {order : Order} {buffer : List Entry} {call : Call}
    {k : calls.Answer call → Program calls ((Except Stop Unit × List Entry) × Ghcb)}
    (h : (p.playChange (tryChange order) buffer g).Reaches events (.ask call k)) :
    call ≠ .terminate := by
  rintro rfl
  obtain ⟨answer, after, last, reaches⟩ := h.exists_answered
  exact not_isLastWord_of_reaches reaches _ (List.mem_append_right _ List.mem_cons_self) trivial

end Protocol

/-! ## On the processor -/

namespace Processor

/-- Halts again and again, for as long as the guest is watched. -/
def haltFor : (rounds : Nat) → Code Unit
  | 0 => pure ()
  | rounds + 1 => do
    execute .hlt
    haltFor rounds

/-- Ends the guest, which is watched for so many rounds of halting. -/
def terminateFor (rounds : Nat) : Code Unit := do
  send (.terminate .general)
  haltFor rounds

/-- `serve`, with the guest watched for so many rounds after its end. -/
def serveFor (interrupts : Bool) (rounds : Nat) : (call : Protocol.Call) → Code call.Answer
  | .terminate => terminateFor rounds
  | call => serve interrupts call

/-- `run`, with the guest watched for so many rounds after its end. -/
def runFor {α : Type} (interrupts : Bool) (rounds : Nat) (program : Program Protocol.calls α) :
    Code α :=
  program.interpret (I := Protocol.calls) (serveFor interrupts rounds)

variable {interrupts : Bool}

theorem serveFor_of_ne {rounds : Nat} {call : Protocol.Call} (other : call ≠ .terminate) :
    serveFor interrupts rounds call = serve interrupts call := by
  cases call with
  | terminate => exact absurd rfl other
  | _ => rfl

theorem serveFor_one : serveFor interrupts 1 = serve interrupts := by
  funext call
  cases call with
  | terminate => rfl
  | _ => rfl

/-- One round is what `run` has. -/
theorem runFor_one {α : Type} (program : Program Protocol.calls α) :
    runFor interrupts 1 program = run interrupts program := by
  unfold runFor
  rw [serveFor_one]
  rfl

section

variable (rounds : Nat) (p : Protocol) (order : Order) (buffer : List Entry) (page : Ghcb)

theorem runFor_tryChange :
    runFor interrupts rounds (p.playChange (tryChange order) buffer page) =
      run interrupts (p.playChange (tryChange order) buffer page) :=
  Program.interpret_congr fun _ _ _ reaches =>
    serveFor_of_ne (Protocol.ne_terminate_of_reaches reaches)

theorem runFor_change :
    runFor interrupts rounds (p.playChange (change order) buffer page) =
      run interrupts (p.playChange (tryChange order) buffer page) >>= fun x =>
        runFor interrupts rounds (p.playChange (Change.conclude x.1.1) x.1.2 x.2) := by
  rw [← runFor_tryChange rounds]
  unfold runFor
  rw [Protocol.playChange_change, Program.interpret_bind]

end

/-- What the processor does at the end of a guest. -/
def lastWords (rounds : Nat) (error : ChangeError) : List Event :=
  [⟨.log (.failed error), ()⟩, ⟨.wrmsr 0xC0010130 0x100, ()⟩, ⟨.vmgexit, ()⟩] ++
    List.replicate rounds ⟨.hlt, ()⟩

theorem utters_haltFor (rounds : Nat) :
    (haltFor rounds).Utters (List.replicate rounds ⟨.hlt, ()⟩) () := by
  induction rounds with
  | zero => exact .done ()
  | succ rounds ih => exact .ask (fun _ => rfl) ih

theorem utters_runFor {α : Type} (rounds : Nat) (error : ChangeError) (a : α) :
    (runFor interrupts rounds
      (.ask (.log (.failed error)) fun _ => .ask .terminate fun _ => .done a)).Utters
      (lastWords rounds error) a := by
  have ended : (terminateFor rounds >>= fun _ => Program.done a).Utters
      ((⟨.wrmsr 0xC0010130 0x100, ()⟩ :: ⟨.vmgexit, ()⟩ :: List.replicate rounds ⟨.hlt, ()⟩) ++ [])
      a :=
    .bind (.ask (fun _ => rfl) (.ask (fun _ => rfl) (utters_haltFor rounds))) (.done a)
  rw [List.append_nil] at ended
  exact .ask (fun _ => rfl) ended

theorem guards_change {σ : Type} (rounds : Nat) (p : Protocol) (order : Order)
    (buffer : List Entry) (page : Ghcb) (world : Program.World calls σ) (s : σ) :
    Guards (lastWords rounds)
      ((run interrupts (p.playChange (tryChange order) buffer page)).report world
        Protocol.view s)
      ((runFor interrupts rounds (p.playChange (change order) buffer page)).report world
        Protocol.view s) := by
  rw [runFor_change]
  refine guards_of_bind (fun a other => ?_) ?_ world s
  · have conclude := Protocol.playChange_conclude_of_other (p := p) other a.1.2 a.2
    exact congrArg (runFor interrupts rounds) conclude
  · rintro ⟨⟨result, buffer'⟩, page'⟩ error failed
    obtain rfl : result = .error (.failed error) := failed
    refine ⟨((.error .terminated, buffer'), page'), rfl, ?_⟩
    rw [Protocol.playChange_conclude_of_failed]
    exact utters_runFor rounds error _

def Event.IsLastWord : Event → Prop
  | ⟨.vmgexit, _⟩ => True
  | ⟨.hlt, _⟩ => True
  | ⟨.wrmsr _ value, _⟩ => value = (Msr.Message.terminate .general).value
  | ⟨.log line, _⟩ => line.level = "ERROR"
  | _ => False

/-- The address of a page is not the message that ends the guest. -/
theorem pageAt_ne_terminate (gpa : Frame .small) :
    (Msr.Message.pageAt gpa).value ≠ (Msr.Message.terminate .general).value := by
  intro same
  have address := toNat_pageAt_mod gpa
  rw [same] at address
  exact absurd address (by decide)

theorem Carries.not_isLastWord {ev : Protocol.Event} {events : List Event}
    (carries : Carries interrupts ev events) (other : ¬ ev.IsLastWord) :
    ∀ ev' ∈ events, ¬ ev'.IsLastWord := by
  cases carries with
  | pvalidate => exact List.forall_mem_singleton.mpr id
  | mask => exact List.forall_mem_singleton.mpr id
  | unmask => exact List.forall_mem_singleton.mpr id
  | off => exact List.forall_mem_nil _
  | stillOff => exact List.forall_mem_nil _
  | exit gpa =>
      exact List.forall_mem_cons.mpr ⟨pageAt_ne_terminate gpa, List.forall_mem_singleton.mpr id⟩
  | terminate => exact absurd trivial other
  | log => exact List.forall_mem_singleton.mpr other

theorem CarriesAll.not_isLastWord {events : List Protocol.Event} {low : List Event}
    (carries : CarriesAll interrupts events low) (other : ∀ ev ∈ events, ¬ ev.IsLastWord) :
    ∀ ev ∈ low, ¬ ev.IsLastWord := by
  induction carries with
  | nil => exact List.forall_mem_nil _
  | cons first _ ih =>
      obtain ⟨here, later⟩ := List.forall_mem_cons.mp other
      exact List.forall_mem_append.mpr ⟨first.not_isLastWord here, ih later⟩

/-- The page is given to the hypervisor. -/
def Event.isHandover : Event → Bool
  | ⟨.vmgexitWith _, _⟩ => true
  | _ => false

theorem CarriesAll.countP_isHandover {events : List Protocol.Event} {low : List Event}
    (carries : CarriesAll interrupts events low) :
    low.countP Event.isHandover = (Protocol.exits events).length := by
  induction carries with
  | nil => rfl
  | cons first _ ih =>
      rw [List.countP_append, ih]
      cases first with
      | exit => exact Nat.add_comm _ _
      | _ => exact Nat.zero_add _

/-! ### The register -/

/-- What the register of the protocol holds after an instruction, if it is known. -/
def Event.register (held : Option UInt64) : Event → Option UInt64
  | ⟨.wrmsr register value, _⟩ => if register = Msr.register then some value else held
  | _ => held

/-- The instruction leaves to the hypervisor. -/
def Event.leaves : Event → Bool
  | ⟨.vmgexit, _⟩ => true
  | ⟨.vmgexitWith _, _⟩ => true
  | _ => false

/-- What the register holds each time that the hypervisor is left to. -/
def leavings (held : Option UInt64) : List Event → List (Option UInt64)
  | [] => []
  | ev :: rest => (if ev.leaves then [held] else []) ++ leavings (ev.register held) rest

theorem leavings_append (held : Option UInt64) (events more : List Event) :
    leavings held (events ++ more) =
      leavings held events ++ leavings (events.foldl Event.register held) more := by
  induction events generalizing held with
  | nil => rfl
  | cons ev rest ih => rw [List.cons_append, leavings, leavings, ih, List.append_assoc]; rfl

theorem leavings_halting (held : Option UInt64) (rounds : Nat) :
    leavings held (List.replicate rounds ⟨.hlt, ()⟩) = [] := by
  induction rounds with
  | zero => rfl
  | succ rounds ih => exact ih

/-- Among the last words the hypervisor is left to once, with the message in the register. -/
theorem leavings_append_lastWords (events : List Event) (rounds : Nat) (error : ChangeError) :
    leavings none (events ++ lastWords rounds error) = leavings none events ++ [some 0x100] := by
  have once (held : Option UInt64) : leavings held (lastWords rounds error) = [some 0x100] :=
    congrArg (some 0x100 :: ·) (leavings_halting (some 0x100) rounds)
  rw [leavings_append, once]

end Processor

/-! ## Every order, at every level -/

/-- **A failed change is the last thing that a guest does.**  Give any order and any buffer, and
carry the order out twice in the same world from the same start: guarded, and as it is.  The
guarded run ends well if and only if the other one does, and then they are the same run, with
the same events, the same memory of the world and the same buffer.  If the other run ends with
an error, the guarded run has the same events, then a line of level ERROR with the text of the
error, then a request to end the guest, and that is all; it never returns.  There are no such
lines and requests before.  The only other way to end is with an exchange that did not return.

Over any protocol the same is true, with the same page, and an exchange returns unless 2⁶⁴ exits
have used up its counter.  On the processor, with interrupts on or off, the request is a write
of `0x100` to the register `0xC0010130`, a VMGEXIT and then HLT for as long as one watches.
The register does not hold the address of any page at that VMGEXIT, so that the hypervisor is
given a message and no page. -/
theorem failed_change_is_last (order : Order) (buffer : List Entry) :
    (∀ (σ : Type) (world : Program.World Change.calls σ) (s : σ),
      let tried := ((tryChange order).play buffer).report world id s
      let run := ((change order).play buffer).report world id s
      Guards (fun error => [Change.Event.log (.failed error), ⟨.terminate, ()⟩]) tried run ∧
      (∀ ev ∈ tried.events, ¬ Change.Event.IsLastWord ev) ∧
      ∀ stop, tried.result = .error stop → (∃ error, stop = .failed error) ∨
        ∃ entries, Change.Event.exchange entries (.error stop) ∈ tried.events) ∧
    (∀ (p : Protocol) (page : Ghcb) (σ : Type) (world : Program.World Protocol.calls σ) (s : σ),
      let tried := (p.playChange (tryChange order) buffer page).report world Protocol.view s
      let run := (p.playChange (change order) buffer page).report world Protocol.view s
      Guards (fun error => [Protocol.Event.log (.failed error), ⟨.terminate, ()⟩]) tried run ∧
      (∀ ev ∈ tried.events, ¬ Protocol.Event.IsLastWord ev) ∧
      ∀ stop, tried.result = .error stop → (∃ error, stop = .failed error) ∨
        stop = .fault .wordOverflow ∧ p.counterRange ≤ (Protocol.exits tried.events).length) ∧
    (∀ (p : Protocol) (page : Ghcb) (σ : Type) (world : Program.World Processor.calls σ) (s : σ)
      (interrupts : Bool) (rounds : Nat),
      let tried := (Processor.run interrupts (p.playChange (tryChange order) buffer page)).report
        world Protocol.view s
      let run := (Processor.runFor interrupts rounds
        (p.playChange (change order) buffer page)).report world Protocol.view s
      Guards (fun error => [⟨.log (.failed error), ()⟩, ⟨.wrmsr 0xC0010130 0x100, ()⟩,
        ⟨.vmgexit, ()⟩] ++ List.replicate rounds ⟨.hlt, ()⟩) tried run ∧
      Processor.runFor interrupts 1 (p.playChange (change order) buffer page) =
        Processor.run interrupts (p.playChange (change order) buffer page) ∧
      (∀ ev ∈ tried.events, ¬ Processor.Event.IsLastWord ev) ∧
      (∀ stop, tried.result = .error stop → (∃ error, stop = .failed error) ∨
        stop = .fault .wordOverflow ∧
          p.counterRange ≤ tried.events.countP Processor.Event.isHandover) ∧
      ∀ error, tried.result = .error (.failed error) →
        Processor.leavings none run.events =
          Processor.leavings none tried.events ++ [some 0x100]) ∧
    (∀ gpa : Frame .small, (Msr.Message.pageAt gpa).value ≠ 0x100) ∧
    ∀ error : ChangeError, (LogLine.failed error).render =
      "ERROR page state change failed: " ++ error.message := by
  refine ⟨?_, ?_, ?_, Processor.pageAt_ne_terminate, ?_⟩
  · intro σ world s tried run
    have orderRun : Change.OrderRun order buffer.length tried.events tried.result :=
      Change.orderRun_of_run order buffer world s
    refine ⟨Change.guards_change order buffer world s, orderRun.not_isLastWord, ?_⟩
    intro stop ended
    exact (ended ▸ orderRun).failed_or_exchange
  · intro p page σ world s tried run
    obtain ⟨events, reaches, -, trace⟩ :=
      Program.exists_follows_of_run world (p.playChange (tryChange order) buffer page) s #[]
    have whole : tried.events = events := trace
    rw [whole]
    refine ⟨Protocol.guards_change p order buffer page world s,
      Protocol.not_isLastWord_of_reaches reaches, ?_⟩
    intro stop ended
    have reaches' : (p.playChange (tryChange order) buffer page).Reaches events
        (.done ((tried.result, tried.left.1), tried.left.2)) := reaches
    rw [ended] at reaches'
    exact Protocol.failed_or_overflow_of_reaches reaches'
  · intro p page σ world s interrupts rounds tried run
    obtain ⟨low, reachesLow, -, trace⟩ := Program.exists_follows_of_run world
      (Processor.run interrupts (p.playChange (tryChange order) buffer page)) s #[]
    obtain ⟨events, reaches, carries⟩ := Processor.reaches_run_iff.mp reachesLow
    have whole : tried.events = low := trace
    have guards : Guards (Processor.lastWords rounds) tried run :=
      Processor.guards_change rounds p order buffer page world s
    refine ⟨guards, Processor.runFor_one _, ?_, ?_, ?_⟩
    · rw [whole]
      exact carries.not_isLastWord (Protocol.not_isLastWord_of_reaches reaches)
    · intro stop ended
      have reaches' : (p.playChange (tryChange order) buffer page).Reaches events
          (.done ((tried.result, tried.left.1), tried.left.2)) := reaches
      rw [ended] at reaches'
      rw [whole, carries.countP_isHandover]
      exact Protocol.failed_or_overflow_of_reaches reaches'
    · intro error failed
      obtain ⟨-, -, trace'⟩ := guards.of_failed error failed
      rw [trace', Processor.leavings_append_lastWords]
  · intro error
    rfl

/-- A world in which every PVALIDATE call fails. -/
def refusing : Program.World Change.calls Unit
  | .pvalidate .., s => (.error .badInput, s)
  | .exchange _, s => (.ok (), s)
  | .terminate, s => ((), s)
  | .log _, s => ((), s)

/-- The first call for the block fails, a line says so, and the guest ends.  Without a buffer
the processor comes to the end of the guest at once; here it is watched for two rounds. -/
theorem failed_change_is_last_shareBlock :
    let first : PhysAddr := ⟨0x200000, by decide⟩
    let error : ChangeError := .pvalidate first .large .unvalidated .badInput
    let run := ((change Change.shareBlock).play [.zero]).report refusing id ()
    let onProcessor := (Processor.runFor true 2 (fiveExits.playChange (change Change.shareBlock) []
      .zero)).report (Processor.machine still) Protocol.view ⟨0, true, ()⟩
    (run.result = .error .terminated ∧
      run.events = [Change.Event.log (.changing 512 first .shared true),
        .pvalidate first .large .unvalidated (.error .badInput), .log (.failed error),
        ⟨.terminate, ()⟩]) ∧
    onProcessor.result = .error .terminated ∧
      onProcessor.events = [⟨.log (.failed .emptyBuffer), ()⟩, ⟨.wrmsr 0xC0010130 0x100, ()⟩,
        ⟨.vmgexit, ()⟩, ⟨.hlt, ()⟩, ⟨.hlt, ()⟩] := by
  intro first error run onProcessor
  let events : List Change.Event := [.log (.changing 512 first .shared true),
    .pvalidate first .large .unvalidated (.error .badInput)]
  have place : Change.shareBlockEntry.address = first := by decide
  have size : Change.shareBlockEntry.size = .large := Entry.size_ofPage _ _ _
  have block : Change.BlockRun Change.shareBlockEntry.address .unvalidated
      Change.shareBlockEntry.size (events.drop 1) (.error (.failed error)) := by
    rw [place, size]
    exact .failed (by decide)
  have orderRun : Change.OrderRun Change.shareBlock [Entry.zero].length events
      (.error (.failed error)) :=
    .accepted (by decide) (by decide) (.stopped (by decide) rfl
      (.stopped (.stopped (Entry.assignment?_ofPage _ _ _) block)))
  obtain ⟨buffer', ends⟩ := Change.exists_ends_tryChange_iff.mpr orderRun
  have follows : Program.Follows refusing () events () := ⟨rfl, rfl, rfl⟩
  have whole := Program.run_eq_of_follows ends follows #[]
  obtain ⟨guards, -, -⟩ :=
    (failed_change_is_last Change.shareBlock [.zero]).1 Unit refusing ()
  obtain ⟨result, -, trace⟩ := guards.of_failed error (congrArg (fun run => run.1.1) whole)
  have tried := congrArg (fun run => run.2.2.toList) whole
  refine ⟨⟨result, trace.trans (congrArg (· ++ _) tried)⟩, ?_⟩
  obtain ⟨-, -, processor, -, -⟩ := failed_change_is_last Change.shareBlock []
  obtain ⟨guards', -, -, -, -⟩ := processor fiveExits .zero _ (Processor.machine still)
    ⟨0, true, ()⟩ true 2
  obtain ⟨result', -, trace'⟩ := guards'.of_failed .emptyBuffer rfl
  exact ⟨result', trace'⟩

end SnpMemory

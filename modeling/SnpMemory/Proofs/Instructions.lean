/-
# `SnpMemory.Proofs.Instructions` — the protocol on the bare processor

On the processor every request of the protocol is carried out by instructions, and what
the instructions leave behind is read as the answer:

    PVALIDATE         one instruction, whose registers stand for the result
    mask, unmask      CLI, STI; nothing if interrupts are off anyway
    exit              WRMSR of the address of the page, then VMGEXIT
    terminate         WRMSR of a message, VMGEXIT, HLT

`Carries` says this of one event and `CarriesAll` of a run, whatever the registers hold.
A run of the instructions is a run of the protocol together with the instructions that
carried it out (`reaches_run_iff`).

For every world of the protocol there is a machine that behaves like it: it keeps the
protocol register and the interrupt flag, hands the page over when the register says where
it is, and leaves in EAX and the carry flag what stands for the answer (`Machine`).  On it,
the instructions do what the protocol does in the world (`same_on_processor`).  That is
shown for one request at a time, and holds of whole runs wherever it does (`Realizes`).
Two things make it so for the machine.  The registers are read back as the answer that they
stand for (`pvalidateResult_inRegisters`), and the address of a page is no message, since
its low bits are zero (`toNat_pageAt_mod`).
-/
import SnpMemory.Processor
import SnpMemory.Proofs.Messages
import SnpMemory.Proofs.Sessions

namespace SnpMemory.Processor

/-! ## The instructions of an event -/

abbrev Event.wrmsr (message : Msr.Message) : Event := ⟨.wrmsr Msr.register message.value, ()⟩

/-- An event of the protocol, and the instructions that carried it out.  `interrupts` says
whether interrupts are on outside of what is masked. -/
inductive Carries (interrupts : Bool) : Protocol.Event → List Event → Prop
  | pvalidate (address : PhysAddr) (size : PageSize) (v : Validation) (eax : UInt32)
      (carry : Bool) :
      Carries interrupts (.pvalidate address size v (pvalidateResult eax carry))
        [⟨.pvalidate address.val size.code v.code, (eax, carry)⟩]
  | mask : interrupts = true → Carries interrupts .mask [⟨.cli, ()⟩]
  | unmask : interrupts = true → Carries interrupts .unmask [⟨.sti, ()⟩]
  /-- There is nothing to mask. -/
  | off : interrupts = false → Carries interrupts .mask []
  /-- Interrupts stay off. -/
  | stillOff : interrupts = false → Carries interrupts .unmask []
  | exit (gpa : Frame .small) (page back : Ghcb) :
      Carries interrupts (.exit gpa page back)
        [.wrmsr (.pageAt gpa), ⟨.vmgexitWith page, back⟩]
  | terminate :
      Carries interrupts ⟨.terminate, ()⟩
        [.wrmsr (.terminate .general), ⟨.vmgexit, ()⟩, ⟨.hlt, ()⟩]
  | log (line : LogLine) : Carries interrupts (.log line) [⟨.log line, ()⟩]

/-- The events of a run are carried out one after the other. -/
inductive CarriesAll (interrupts : Bool) : List Protocol.Event → List Event → Prop
  | nil : CarriesAll interrupts [] []
  | cons {ev : Protocol.Event} {rest : List Protocol.Event} {events more : List Event} :
      Carries interrupts ev events → CarriesAll interrupts rest more →
      CarriesAll interrupts (ev :: rest) (events ++ more)

variable {α : Type} {interrupts : Bool}

theorem CarriesAll.of_singleton {ev : Protocol.Event} {low : List Event}
    (carries : CarriesAll interrupts [ev] low) : Carries interrupts ev low := by
  cases carries with
  | cons first rest =>
      cases rest
      rw [List.append_nil]
      exact first

theorem CarriesAll.exists_append {events more : List Protocol.Event} {low : List Event}
    (carries : CarriesAll interrupts (events ++ more) low) : ∃ first last,
      CarriesAll interrupts events first ∧ CarriesAll interrupts more last ∧
        low = first ++ last := by
  induction events generalizing low with
  | nil => exact ⟨[], low, .nil, carries, rfl⟩
  | cons ev rest ih =>
      cases carries with
      | @cons _ _ here _ carried later =>
          obtain ⟨first, last, h, h', rfl⟩ := ih later
          exact ⟨here ++ first, last, .cons carried h, h', (List.append_assoc _ _ _).symm⟩

theorem reaches_execute_done {call : Call} {answer : call.Answer} {events : List Event} :
    (execute call).Reaches events (.done answer) ↔ events = [⟨call, answer⟩] := by
  unfold execute Program.request
  rw [Program.reaches_ask_done]
  constructor
  · rintro ⟨answer', rest, tail, rfl⟩
    obtain ⟨rfl, rfl⟩ := Program.reaches_done_done.mp tail
    rfl
  · rintro rfl
    exact ⟨answer, [], .here _, rfl⟩

theorem reaches_execute_bind {call : Call} {f : call.Answer → Code α} {a : α}
    {events : List Event} :
    (execute call >>= f).Reaches events (.done a) ↔
      ∃ answer rest, (f answer).Reaches rest (.done a) ∧ events = ⟨call, answer⟩ :: rest :=
  Program.reaches_ask_done

theorem reaches_serve_iff {call : Protocol.Call} {answer : call.Answer} {events : List Event} :
    (serve interrupts call).Reaches events (.done answer) ↔
      Carries interrupts ⟨call, answer⟩ events := by
  constructor
  · intro h
    cases call with
    | pvalidate address size v =>
        obtain ⟨⟨eax, carry⟩, rest, h', rfl⟩ := reaches_execute_bind.mp h
        obtain ⟨rfl, rfl⟩ := Program.reaches_done_done.mp h'
        exact .pvalidate address size v eax carry
    | maskInterrupts =>
        cases interrupts with
        | true =>
            cases reaches_execute_done.mp h
            exact .mask rfl
        | false =>
            obtain ⟨rfl, -⟩ := Program.reaches_done_done.mp h
            exact .off rfl
    | unmaskInterrupts =>
        cases interrupts with
        | true =>
            cases reaches_execute_done.mp h
            exact .unmask rfl
        | false =>
            obtain ⟨rfl, -⟩ := Program.reaches_done_done.mp h
            exact .stillOff rfl
    | exit gpa page =>
        obtain ⟨u, rest, h', rfl⟩ := reaches_execute_bind.mp h
        cases reaches_execute_done.mp h'
        exact .exit gpa page answer
    | terminate =>
        obtain ⟨u, first, rest, h', h'', rfl⟩ := Program.reaches_bind_done.mp h
        obtain ⟨u', last, sent, rfl⟩ := reaches_execute_bind.mp h'
        cases reaches_execute_done.mp sent
        cases reaches_execute_done.mp h''
        exact .terminate
    | log line =>
        cases reaches_execute_done.mp h
        exact .log line
  · intro h
    cases h with
    | pvalidate address size v eax carry =>
        exact reaches_execute_bind.mpr ⟨(eax, carry), [], .here _, rfl⟩
    | mask on =>
        subst on
        exact reaches_execute_done.mpr rfl
    | unmask on =>
        subst on
        exact reaches_execute_done.mpr rfl
    | off off =>
        subst off
        exact .here _
    | stillOff off =>
        subst off
        exact .here _
    | exit gpa page =>
        exact reaches_execute_bind.mpr ⟨(), _, reaches_execute_done.mpr rfl, rfl⟩
    | terminate =>
        have sent : (send (.terminate .general)).Reaches
            [Event.wrmsr (.terminate .general), ⟨.vmgexit, ()⟩] (.done ()) :=
          reaches_execute_bind.mpr ⟨(), _, reaches_execute_done.mpr rfl, rfl⟩
        exact Program.reaches_bind_done.mpr ⟨(), _, _, sent, reaches_execute_done.mpr rfl, rfl⟩
    | log line => exact reaches_execute_done.mpr rfl

/-- The runs of a program of the protocol on the processor. -/
theorem reaches_run_iff {program : Program Protocol.calls α} {a : α} {low : List Event} :
    (run interrupts program).Reaches low (.done a) ↔
      ∃ events, program.Reaches events (.done a) ∧ CarriesAll interrupts events low := by
  unfold run
  induction program generalizing low with
  | done b =>
      constructor
      · intro h
        obtain ⟨rfl, rfl⟩ := Program.reaches_done_done.mp h
        exact ⟨[], .here _, .nil⟩
      · rintro ⟨events, h, carries⟩
        obtain ⟨rfl, rfl⟩ := Program.reaches_done_done.mp h
        cases carries
        exact .here _
  | ask r k ih =>
      rw [Program.interpret, Program.reaches_bind_done]
      constructor
      · rintro ⟨answer, first, last, h, h', rfl⟩
        obtain ⟨events, reaches, carries⟩ := (ih answer).mp h'
        exact ⟨⟨r, answer⟩ :: events, .step answer reaches, .cons (reaches_serve_iff.mp h) carries⟩
      · rintro ⟨events, h, carries⟩
        obtain ⟨answer, rest, tail, rfl⟩ := Program.reaches_ask_done.mp h
        cases carries with
        | cons first later =>
            exact ⟨answer, _, _, reaches_serve_iff.mpr first,
              (ih answer).mpr ⟨rest, tail, later⟩, rfl⟩

/-! ## The interrupt flag -/

/-- The interrupt flag after an instruction.  Only CLI and STI have a say in it. -/
def Event.flag (on : Bool) : Event → Bool
  | ⟨.cli, _⟩ => false
  | ⟨.sti, _⟩ => true
  | _ => on

/-- How an instruction should find interrupts, which are on outside of what is masked if `first`
says so.  They are off where the hypervisor is told of the page and given it.  CLI is only for
interrupts that are on, and STI for those that a CLI has turned off.  Anything else is
outside. -/
def Event.Finds (first on : Bool) : Event → Prop
  | ⟨.cli, _⟩ => first = true ∧ on = true
  | ⟨.sti, _⟩ => first = true ∧ on = false
  | ⟨.wrmsr _ value, _⟩ => on = if value.toNat % 0x1000 = 0 then false else first
  | ⟨.vmgexitWith _, _⟩ => on = false
  | _ => on = first

/-- Each instruction finds interrupts as it should, and after the last of them they are on or
off as in `after`. -/
def Keeps (first : Bool) : (on : Bool) → List Event → (after : Bool) → Prop
  | on, [], after => after = on
  | on, ev :: rest, after => ev.Finds first on ∧ Keeps first (ev.flag on) rest after

section

variable {first on after : Bool} {events more low : List Event}

theorem keeps_append : Keeps first on (events ++ more) after ↔
    ∃ mid, Keeps first on events mid ∧ Keeps first mid more after := by
  induction events generalizing on with
  | nil =>
      constructor
      · intro h
        exact ⟨on, rfl, h⟩
      · rintro ⟨_, rfl, h⟩
        exact h
  | cons ev rest ih =>
      constructor
      · rintro ⟨here, later⟩
        obtain ⟨mid, h, h'⟩ := ih.mp later
        exact ⟨mid, ⟨here, h⟩, h'⟩
      · rintro ⟨mid, ⟨here, h⟩, h'⟩
        exact ⟨here, ih.mpr ⟨mid, h, h'⟩⟩

/-- The address of a page is not taken for a message. -/
theorem toNat_pageAt_mod (gpa : Frame .small) :
    (Msr.Message.pageAt gpa).value.toNat % 0x1000 = 0 := by
  rw [Msr.Message.toNat_pageAt]
  exact Nat.mod_eq_zero_of_dvd gpa.aligned

theorem Carries.keeps_mask (h : Carries interrupts .mask low) :
    Keeps interrupts interrupts low false := by
  cases h with
  | mask on => exact ⟨⟨on, on⟩, rfl⟩
  | off off => exact off.symm

theorem Carries.keeps_unmask (h : Carries interrupts .unmask low) :
    Keeps interrupts false low interrupts := by
  cases h with
  | unmask on => exact ⟨⟨on, rfl⟩, on⟩
  | stillOff off => exact off

theorem Carries.keeps_exit {gpa : Frame .small} {page back : Ghcb}
    (h : Carries interrupts (.exit gpa page back) low) : Keeps interrupts false low false := by
  cases h with
  | exit => exact ⟨(if_pos (toNat_pageAt_mod gpa)).symm, rfl, rfl⟩

theorem Carries.keeps_pvalidate {address : PhysAddr} {size : PageSize} {v : Validation}
    {answer : Except PvalidateError Unit}
    (h : Carries interrupts (.pvalidate address size v answer) low) :
    Keeps interrupts interrupts low interrupts := by
  cases h with
  | pvalidate => exact ⟨rfl, rfl⟩

theorem Carries.keeps_terminate (h : Carries interrupts ⟨.terminate, ()⟩ low) :
    Keeps interrupts interrupts low interrupts := by
  cases h with
  | terminate => exact ⟨rfl, rfl, rfl, rfl⟩

theorem Carries.keeps_log {line : LogLine} (h : Carries interrupts (.log line) low) :
    Keeps interrupts interrupts low interrupts := by
  cases h with
  | log => exact ⟨rfl, rfl⟩

end

/-! ## Answers in registers -/

/-- What PVALIDATE leaves in EAX and the carry flag to give an answer. -/
def inRegisters : Except PvalidateError Unit → UInt32 × Bool
  | .ok () => (0, false)
  | .error .notUpdated => (0, true)
  | .error error => (UInt32.ofNat error.code, false)

theorem pvalidateResult_inRegisters (answer : Except PvalidateError Unit) :
    pvalidateResult (inRegisters answer).1 (inRegisters answer).2 = answer := by
  obtain error | u := answer
  · cases error <;> rfl
  · rfl

/-- The instructions of an event when the registers are set in this way. -/
def instructions (interrupts : Bool) : Protocol.Event → List Event
  | ⟨.pvalidate address size v, answer⟩ =>
    [⟨.pvalidate address.val size.code v.code, inRegisters answer⟩]
  | ⟨.maskInterrupts, _⟩ => if interrupts then [⟨.cli, ()⟩] else []
  | ⟨.unmaskInterrupts, _⟩ => if interrupts then [⟨.sti, ()⟩] else []
  | ⟨.exit gpa page, back⟩ => [.wrmsr (.pageAt gpa), ⟨.vmgexitWith page, back⟩]
  | ⟨.terminate, _⟩ => [.wrmsr (.terminate .general), ⟨.vmgexit, ()⟩, ⟨.hlt, ()⟩]
  | ⟨.log line, _⟩ => [⟨.log line, ()⟩]

theorem carries_instructions (interrupts : Bool) (ev : Protocol.Event) :
    Carries interrupts ev (instructions interrupts ev) := by
  obtain ⟨call, answer⟩ := ev
  cases call with
  | pvalidate address size v =>
      have h : Carries interrupts (.pvalidate address size v (pvalidateResult
          (inRegisters answer).1 (inRegisters answer).2)) _ := .pvalidate address size v _ _
      rw [pvalidateResult_inRegisters] at h
      exact h
  | maskInterrupts =>
      cases interrupts with
      | true => exact .mask rfl
      | false => exact .off rfl
  | unmaskInterrupts =>
      cases interrupts with
      | true => exact .unmask rfl
      | false => exact .stillOff rfl
  | exit gpa page => exact .exit gpa page answer
  | terminate => exact .terminate
  | log line => exact .log line

theorem carriesAll_instructions (interrupts : Bool) (events : List Protocol.Event) :
    CarriesAll interrupts events (events.flatMap (instructions interrupts)) := by
  induction events with
  | nil => exact .nil
  | cons ev rest ih => exact .cons (carries_instructions interrupts ev) ih

/-! ## Doing what a world does -/

variable {σ τ : Type}

/-- What the processor does with the instructions of a request is what the world does with the
request, and after it their memories still belong together. -/
def Realizes (interrupts : Bool) (low : Program.World calls τ)
    (world : Program.World Protocol.calls σ) (R : τ → σ → Prop) : Prop :=
  ∀ (m : τ) (s : σ), R m s → ∀ call : Protocol.Call, ∃ m',
    Program.Follows low m (instructions interrupts ⟨call, (world call s).1⟩) m' ∧
      R m' (world call s).2

namespace Realizes

variable {low : Program.World calls τ} {world : Program.World Protocol.calls σ}
  {R : τ → σ → Prop} {m : τ} {s : σ}

theorem exists_follows (realizes : Realizes interrupts low world R) (related : R m s)
    {events : List Protocol.Event} {s' : σ} (follows : Program.Follows world s events s') :
    ∃ m', Program.Follows low m (events.flatMap (instructions interrupts)) m' ∧ R m' s' := by
  induction events generalizing m s with
  | nil =>
      obtain rfl : s' = s := follows
      exact ⟨m, rfl, related⟩
  | cons ev rest ih =>
      obtain ⟨call, answer⟩ := ev
      obtain ⟨rfl, later⟩ := follows
      obtain ⟨mid, here, related'⟩ := realizes m s related call
      obtain ⟨m', there, related''⟩ := ih related' later
      exact ⟨m', Program.follows_append.mpr ⟨mid, here, there⟩, related''⟩

/-- The run on the processor is the run in the world, in instructions. -/
theorem exists_run_eq (realizes : Realizes interrupts low world R) (related : R m s)
    (program : Program Protocol.calls α) :
    let inWorld := program.run world s #[]
    ∃ m', R m' inWorld.2.1 ∧ (run interrupts program).run low m #[] =
      (inWorld.1, m', (inWorld.2.2.toList.flatMap (instructions interrupts)).toArray) := by
  intro inWorld
  let events := inWorld.2.2.toList
  obtain ⟨reaches, follows⟩ := Program.reaches_of_run world program s
  have reaches' : (run interrupts program).Reaches (events.flatMap (instructions interrupts))
      (.done inWorld.1) :=
    reaches_run_iff.mpr ⟨events, reaches, carriesAll_instructions interrupts events⟩
  obtain ⟨m', follows', related'⟩ := realizes.exists_follows related follows
  refine ⟨m', related', ?_⟩
  rw [Program.run_eq_of_follows reaches' follows' #[], Array.empty_append]

end Realizes

/-! ## A machine for a world -/

/-- A processor with its protocol register and its interrupt flag, and what is outside of it. -/
structure Machine (σ : Type) where
  register : UInt64
  /-- Whether interrupts are on. -/
  interrupts : Bool
  outside : σ

/-- The machine whose outside is a world of the protocol.  VMGEXIT gives the page away if the
low bits of the register say that it holds an address. -/
def machine (world : Program.World Protocol.calls σ) : Program.World calls (Machine σ)
  | .pvalidate rax ecx edx, m =>
    match PageSize.ofCode? ecx, Validation.ofCode? edx with
    | some size, some v =>
      let (answer, outside) := world (.pvalidate (.truncate rax) size v) m.outside
      (inRegisters answer, { m with outside })
    | _, _ => (inRegisters (.error .badInput), m)
  | .cli, m =>
    ((), { m with interrupts := false, outside := (world .maskInterrupts m.outside).2 })
  | .sti, m =>
    ((), { m with interrupts := true, outside := (world .unmaskInterrupts m.outside).2 })
  | .wrmsr register value, m =>
    ((), if register = Msr.register then { m with register := value } else m)
  | .rdmsr _, m => (m.register, m)
  | .vmgexit, m =>
    if m.register = (Msr.Message.terminate .general).value then
      ((), { m with outside := (world .terminate m.outside).2 })
    else ((), m)
  | .vmgexitWith page, m =>
    if m.register.toNat % 0x1000 = 0 then
      let gpa := Frame.containing .small (.truncate m.register.toNat)
      let (back, outside) := world (.exit gpa page) m.outside
      (back, { m with outside })
    else (page, m)
  | .hlt, m => ((), m)
  | .log line, m => ((), { m with outside := (world (.log line) m.outside).2 })

/-- The world as a processor meets it whose interrupts are off anyway: it is not told where
they are to be masked, as there is no instruction to tell it. -/
def untold (world : Program.World Protocol.calls σ) : Program.World Protocol.calls σ
  | .maskInterrupts, s => ((), s)
  | .unmaskInterrupts, s => ((), s)
  | call, s => world call s

/-! ## What the instructions do on it -/

section

variable (world : Program.World Protocol.calls σ) (m : Machine σ)

theorem machine_pvalidate (address : PhysAddr) (size : PageSize) (v : Validation) :
    machine world (.pvalidate address.val size.code v.code) m =
      (inRegisters (world (.pvalidate address size v) m.outside).1,
        { m with outside := (world (.pvalidate address size v) m.outside).2 }) := by
  simp only [machine, PageSize.ofCode?_code, Validation.ofCode?_code]
  rw [PhysAddr.truncate_self]

theorem machine_wrmsr (message : Msr.Message) :
    machine world (.wrmsr Msr.register message.value) m =
      ((), { m with register := message.value }) := by
  simp only [machine, if_true]

/-- Once the register says where the page is, the page is given away. -/
theorem machine_vmgexitWith (gpa : Frame .small) (page : Ghcb)
    (announced : m.register = (Msr.Message.pageAt gpa).value) :
    machine world (.vmgexitWith page) m =
      ((world (.exit gpa page) m.outside).1,
        { m with outside := (world (.exit gpa page) m.outside).2 }) := by
  obtain ⟨register, flag, outside⟩ := m
  obtain rfl : register = (Msr.Message.pageAt gpa).value := announced
  simp only [machine, if_pos (toNat_pageAt_mod gpa)]
  rw [Msr.Message.toNat_pageAt, PhysAddr.truncate_self, Frame.containing_start]

theorem machine_vmgexit (sent : m.register = (Msr.Message.terminate .general).value) :
    machine world .vmgexit m = ((), { m with outside := (world .terminate m.outside).2 }) := by
  simp only [machine, sent, if_true]

/-- Apart from masking, the machine does what the world does, whatever is in its register. -/
theorem exists_follows_of_other {call : Protocol.Call} (other : call ≠ .maskInterrupts)
    (other' : call ≠ .unmaskInterrupts) : ∃ m',
      Program.Follows (machine world) m
        (instructions interrupts ⟨call, (world call m.outside).1⟩) m' ∧
      m'.outside = (world call m.outside).2 := by
  cases call with
  | pvalidate address size v =>
      refine ⟨_, ⟨?_, rfl⟩, ?_⟩
      · rw [machine_pvalidate]
      · rw [machine_pvalidate]
  | maskInterrupts => exact absurd rfl other
  | unmaskInterrupts => exact absurd rfl other'
  | exit gpa page =>
      refine ⟨_, ⟨rfl, ?_, rfl⟩, ?_⟩
      · rw [machine_wrmsr, machine_vmgexitWith _ _ gpa page rfl]
      · rw [machine_wrmsr, machine_vmgexitWith _ _ gpa page rfl]
  | terminate =>
      refine ⟨_, ⟨rfl, rfl, rfl, rfl⟩, ?_⟩
      rw [machine_wrmsr, machine_vmgexit _ _ rfl]
      rfl
  | log line => exact ⟨_, ⟨rfl, rfl⟩, rfl⟩

/-- With interrupts on, the machine for a world does what the world does. -/
theorem realizes_machine : Realizes true (machine world) world fun m s => m.outside = s := by
  rintro m _ rfl call
  cases call with
  | maskInterrupts => exact ⟨_, ⟨rfl, rfl⟩, rfl⟩
  | unmaskInterrupts => exact ⟨_, ⟨rfl, rfl⟩, rfl⟩
  | _ => exact exists_follows_of_other world m nofun nofun

/-- With interrupts off, it does what the world does when it is not told of masking. -/
theorem realizes_machine_untold :
    Realizes false (machine world) (untold world) fun m s => m.outside = s := by
  rintro m _ rfl call
  cases call with
  | maskInterrupts => exact ⟨_, rfl, rfl⟩
  | unmaskInterrupts => exact ⟨_, rfl, rfl⟩
  | _ => exact exists_follows_of_other world m nofun nofun

end

/-- **The processor does what the protocol does.**  Let any operations be carried out over any
protocol, from any page on and in any world, and again by instructions on the machine for
that world, whatever its register holds at first.  The results, the buffers and the page
are the same in the end, and so is the memory of the world.  The instructions are those of
the events, one event after the other: an exit is a write of the address of the page to
the register and a VMGEXIT with the same page, a PVALIDATE call has its operands and its
answer as numbers, and masking, unmasking and log lines are where they were.  If interrupts
are off on the machine at first, there is nothing to mask; all else is the same. -/
theorem same_on_processor (p : Protocol) (ops : List Operation) (page : Ghcb)
    (world : Program.World Protocol.calls σ) (s : σ) (register : UInt64) (interrupts : Bool) :
    let scripted := (p.session ops page).run (if interrupts then world else untold world) s #[]
    let onProcessor := (run interrupts (p.session ops page)).run (machine world)
      ⟨register, interrupts, s⟩ #[]
    onProcessor.1 = scripted.1 ∧ onProcessor.2.1.outside = scripted.2.1 ∧
      onProcessor.2.2.toList = scripted.2.2.toList.flatMap (instructions interrupts) := by
  intro scripted onProcessor
  have realizes : Realizes interrupts (machine world)
      (if interrupts then world else untold world) fun m s => m.outside = s := by
    cases interrupts with
    | true => exact realizes_machine world
    | false => exact realizes_machine_untold world
  obtain ⟨m, outside, same⟩ :=
    realizes.exists_run_eq (m := ⟨register, interrupts, s⟩) rfl (p.session ops page)
  rw [show onProcessor = _ from same]
  exact ⟨rfl, outside, rfl⟩

end SnpMemory.Processor

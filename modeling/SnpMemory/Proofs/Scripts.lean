/-
# `SnpMemory.Proofs.Scripts` — the same script for the protocol and for the processor

A script makes a world for the protocol and a world for the processor, and a program of the
protocol can be run in either of them.  It comes out the same (`runProtocol_alike`): the
result, what is left of the script, and in the transcript the log lines and the exits with
all that they show.

The script has to say what its PVALIDATE calls end with, since bare registers mean nothing
to the protocol (`Outcome.IsResult`).  A script stays like that as it is used
(`consult_isResult`), and what it says is put into the registers as the answer that it is
(`inRegisters_eq`).
-/
import SnpMemory.Proofs.Instructions
import SnpMemory.Simulation.Run

namespace SnpMemory.Simulation

/-! ## Scripts that name their results -/

/-- The outcome is a result, not just what is in the registers. -/
def Outcome.IsResult : Outcome → Prop
  | registers .. => False
  | _ => True

/-- Every rule of the script says what the calls end with. -/
def Script.NamesResults (script : Script) : Prop :=
  ∀ rule ∈ script.rules, rule.outcome.IsResult

theorem Outcome.inRegisters_eq {outcome : Outcome} (named : outcome.IsResult) :
    outcome.inRegisters = Processor.inRegisters outcome.result := by
  cases outcome with
  | succeed => rfl
  | fail error => cases error <;> rfl
  | registers eax carry => exact named.elim

/-- What is consulted has a result to give, and so it has for the calls to come. -/
theorem consult_isResult {rules : List Rule} (address : Nat) (size : PageSize) (v : Validation)
    (named : ∀ rule ∈ rules, rule.outcome.IsResult) :
    (consult address size v rules).1.IsResult ∧
      ∀ rule ∈ (consult address size v rules).2, rule.outcome.IsResult := by
  induction rules with
  | nil => exact ⟨trivial, named⟩
  | cons rule rest ih =>
      obtain ⟨first, others⟩ := List.forall_mem_cons.mp named
      unfold consult
      split
      · exact ⟨first, List.forall_mem_cons.mpr ⟨first, others⟩⟩
      · obtain ⟨here, later⟩ := ih others
        exact ⟨here, List.forall_mem_cons.mpr ⟨first, later⟩⟩

/-! ## The two worlds -/

/-- Two scripts that name the same results and differ in the register at most. -/
structure Alike (low script : Script) : Prop where
  named : script.NamesResults
  eq : ∃ register, low = { script with register }

theorem pageAnnounced_pageAt (script : Script) (gpa : Frame .small) :
    { script with register := (Msr.Message.pageAt gpa).value }.pageAnnounced = true :=
  beq_iff_eq.mpr (Processor.toNat_pageAt_mod gpa)

theorem pageAnnounced_terminate (script : Script) :
    { script with register := (Msr.Message.terminate .general).value }.pageAnnounced = false :=
  rfl

/-- The processor of a script does what the protocol does by the same script. -/
theorem realizes_processorWorld :
    Processor.Realizes true processorWorld protocolWorld Alike := by
  rintro _ script ⟨named, register, rfl⟩ call
  cases call with
  | pvalidate address size v =>
      obtain ⟨here, later⟩ := consult_isResult address.val size v named
      refine ⟨_, ⟨?_, rfl⟩, later, register, ?_⟩
      · simp only [processorWorld, PageSize.ofCode?_code, Validation.ofCode?_code]
        exact (Outcome.inRegisters_eq here).symm
      · simp only [processorWorld, PageSize.ofCode?_code, Validation.ofCode?_code]
        rfl
  | maskInterrupts => exact ⟨_, ⟨rfl, rfl⟩, named, register, rfl⟩
  | unmaskInterrupts => exact ⟨_, ⟨rfl, rfl⟩, named, register, rfl⟩
  | exit gpa page =>
      refine ⟨_, ⟨rfl, ?_, rfl⟩, named, (Msr.Message.pageAt gpa).value, ?_⟩
      · simp only [processorWorld, pageAnnounced_pageAt, if_true]
        rfl
      · simp only [processorWorld, pageAnnounced_pageAt, if_true]
        rfl
  | terminate =>
      refine ⟨_, ⟨rfl, rfl, rfl, rfl⟩, named, ?_⟩
      simp only [processorWorld, pageAnnounced_terminate]
      exact ⟨_, rfl⟩
  | log line => exact ⟨_, ⟨rfl, rfl⟩, named, register, rfl⟩

end SnpMemory.Simulation

/-! ## The two transcripts -/

namespace SnpMemory.Transcript

def Item.isExit : Item → Bool
  | exit .. => true
  | _ => false

/-- Two transcripts with the same log lines and the same exits. -/
structure Agree (low t : Transcript) : Prop where
  lines_eq : low.lines = t.lines
  exits_eq : low.items.filter Item.isExit = t.items.filter Item.isExit
  masked_eq : low.masked = t.masked
  page_eq : low.page = t.page

variable {low t : Transcript}

/-- A call changes the items only, and no exit. -/
theorem addCall_eq (t : Transcript) (address : Nat) (call : Validated) :
    ∃ items, t.addCall address call = { t with items } ∧
      items.filter Item.isExit = t.items.filter Item.isExit := by
  unfold addCall
  split
  · rename_i first previous count rest before
    split
    · refine ⟨_, rfl, ?_⟩
      rw [before]
      rfl
    · exact ⟨_, rfl, rfl⟩
  · exact ⟨_, rfl, rfl⟩

theorem Agree.addCall (agree : Agree low t) (address : Nat) (call call' : Validated) :
    Agree (low.addCall address call) (t.addCall address call') := by
  obtain ⟨items, eq, exits⟩ := addCall_eq low address call
  obtain ⟨items', eq', exits'⟩ := addCall_eq t address call'
  rw [eq, eq']
  exact ⟨agree.lines_eq, (exits.trans agree.exits_eq).trans exits'.symm, agree.masked_eq,
    agree.page_eq⟩

theorem Agree.addExit (agree : Agree low t) (gpa : Nat) (page : Ghcb) :
    Agree (low.addExit gpa page) (t.addExit gpa page) := by
  obtain ⟨lines, exits, masked, before⟩ := agree
  refine ⟨lines, ?_, masked, rfl⟩
  unfold Transcript.addExit add
  rw [List.filter_cons_of_pos rfl, List.filter_cons_of_pos rfl, exits, masked, before]

/-- The instructions of an event are written down like the event. -/
theorem Agree.addProtocol (agree : Agree low t) (ev : Protocol.Event) :
    Agree ((Processor.instructions true ev).foldl addInstruction low) (t.addProtocol ev) := by
  obtain ⟨call, answer⟩ := ev
  obtain ⟨lines, exits, masked, page⟩ := agree
  cases call with
  | pvalidate address size v => exact Agree.addCall ⟨lines, exits, masked, page⟩ _ _ _
  | maskInterrupts => exact ⟨lines, exits, rfl, page⟩
  | unmaskInterrupts => exact ⟨lines, exits, rfl, page⟩
  | exit gpa page' =>
      -- the register has been written just before, and says where the page is
      let value := (Msr.Message.pageAt gpa).value
      let announced : Transcript := { low.add (.wrmsr Msr.register value) with register := value }
      have left : Agree (announced.add .vmgexit) t := ⟨lines, exits, masked, page⟩
      show Agree (if value.toNat % 0x1000 = 0
        then (announced.add .vmgexit).addExit value.toNat page'
        else announced.add .vmgexit) (t.addExit gpa.start.val page')
      rw [if_pos (Processor.toNat_pageAt_mod gpa), Msr.Message.toNat_pageAt]
      exact left.addExit _ _
  | terminate => exact ⟨lines, exits, masked, page⟩
  | log line => exact ⟨congrArg (line :: ·) lines, exits, masked, page⟩

theorem Agree.foldl (agree : Agree low t) (events : List Protocol.Event) :
    Agree ((events.flatMap (Processor.instructions true)).foldl addInstruction low)
      (events.foldl Transcript.addProtocol t) := by
  induction events generalizing low t with
  | nil => exact agree
  | cons ev rest ih =>
      rw [List.flatMap_cons, List.foldl_append, List.foldl_cons]
      exact ih (agree.addProtocol ev)

end SnpMemory.Transcript

/-! ## The two runs -/

namespace SnpMemory.Simulation

theorem transcript_runIn {I : Interface} {α : Type} (world : Program.World I Script)
    (add : Transcript → I.Event → Transcript) (page : Ghcb) (script : Script)
    (program : Program I α) : (runIn world add page script program).transcript =
      (program.run world script #[]).2.2.toList.foldl add { page } :=
  (Array.foldl_toList add).symm

/-- **A program comes out the same in instructions.**  Run any program of the protocol by a
script whose rules say what calls end with, once as it is and once in instructions, from
the same page.  The results are the same, the scripts differ in the register at most, and
the transcripts have the same log lines and the same exits. -/
theorem runProtocol_alike {α : Type} (program : Program Protocol.calls α) (page : Ghcb)
    {script : Script} (named : script.NamesResults) :
    let low := runProtocol true page script program
    let run := runProtocol false page script program
    low.result = run.result ∧ Alike low.script run.script ∧
      low.transcript.Agree run.transcript := by
  intro low run
  obtain ⟨left, alike, same⟩ := realizes_processorWorld.exists_run_eq
    (m := script) ⟨named, script.register, rfl⟩ program
  have result : low.result = run.result := congrArg Prod.fst same
  have script' : low.script = left := congrArg (·.2.1) same
  refine ⟨result, script' ▸ alike, ?_⟩
  show (runIn ..).transcript.Agree (runIn ..).transcript
  rw [transcript_runIn, transcript_runIn, same, List.toList_toArray]
  exact Transcript.Agree.foldl ⟨rfl, rfl, rfl, rfl⟩ _

end SnpMemory.Simulation

/-
# `SnpMemory.Proofs.ResultCodes` — what PVALIDATE leaves in the registers, over whole runs

On the processor a PVALIDATE call leaves a code in EAX and the carry flag, and the guest
makes an answer of the two.  What the answer is can be told from the two alone:

    0, no carry         the page got its mark
    0, carry            the page had it already
    1, 2, 6             the errors of the instruction
    255                 the page had its mark already, whatever the carry says
    all other codes     an unknown error

The line for 255 is not what is meant.  All errors are numbered, the one for a carry too, and
a code is looked up among all the numbers.  So there is a code, and only one, that is taken
for a carry although it is not zero.

Marking the pages of entries is one program for all interfaces that have PVALIDATE and a
log.  On the processor it is the program of a change with each request carried out by an
instruction (`CarriesMarks.validateEntries`), so its runs are read as runs of the change
(`exists_entriesRun`), and a run goes on or ends as its codes say (`Steered`): after a
success with the next page, after a 2MiB call with code 6 with a log line and 4KiB calls,
and after any other call not at all.
-/
import Mathlib.Data.List.Forall2
import SnpMemory.Proofs.Entrywise
import SnpMemory.Proofs.Instructions

namespace SnpMemory

/-! ## One program over two interfaces -/

section

variable {I J : Interface} [Validating I] [Validating J] {σ τ α β : Type}

/-- Carried out by a handler, one program is the other, whatever states they begin with.  The
states are left out of the comparison. -/
def Renders (handle : (r : I.Request) → Program J (I.Answer r)) (g : Guest I σ α)
    (g' : Guest J τ α) : Prop :=
  ∀ s t, ((g.play s).interpret handle >>= fun ended => .done (ended.1, t)) = g'.play t

/-- A handler that carries out PVALIDATE calls and log lines as the other interface does. -/
structure CarriesMarks (handle : (r : I.Request) → Program J (I.Answer r)) : Prop where
  pvalidate : ∀ address size v,
    (Validating.pvalidate (I := I) address size v).interpret handle =
      Validating.pvalidate (I := J) address size v
  log : ∀ line, (Validating.log (I := I) line).interpret handle = Validating.log (I := J) line

variable {handle : (r : I.Request) → Program J (I.Answer r)}

namespace Renders

omit [Validating I] [Validating J]

theorem pure (a : α) : Renders handle (Pure.pure a : Guest I σ α) (Pure.pure a : Guest J τ α) :=
  fun _ _ => rfl

theorem throw (stop : Stop) :
    Renders handle (MonadExcept.throw stop : Guest I σ α) (MonadExcept.throw stop : Guest J τ α) :=
  fun _ _ => rfl

theorem perform (p : Program I α) :
    Renders handle (Guest.perform p : Guest I σ α)
      (Guest.perform (p.interpret handle) : Guest J τ α) := by
  intro s t
  rw [Guest.play_perform, Guest.play_perform, Program.interpret_bind, bind_assoc]
  rfl

theorem bind {g : Guest I σ α} {g' : Guest J τ α} {f : α → Guest I σ β} {f' : α → Guest J τ β}
    (first : Renders handle g g') (second : ∀ a, Renders handle (f a) (f' a)) :
    Renders handle (g >>= f) (g' >>= f') := by
  intro s t
  rw [Guest.play_bind, Guest.play_bind, Program.interpret_bind, bind_assoc, ← first s t, bind_assoc]
  refine bind_congr ?_
  rintro ⟨stop | a, s'⟩
  · rfl
  · exact second a s' t

end Renders

namespace CarriesMarks

variable (marks : CarriesMarks handle) {address : PhysAddr} {size : PageSize} {v : Validation}

include marks

theorem validatePage :
    Renders handle (SnpMemory.validatePage address size v : Guest I σ Unit)
      (SnpMemory.validatePage address size v : Guest J τ Unit) := by
  unfold SnpMemory.validatePage
  rw [← marks.pvalidate]
  refine .bind (.perform _) ?_
  rintro (error | ⟨⟩)
  · exact .throw _
  · exact .pure ()

theorem validateSmallPages {ns : List Nat} :
    Renders handle (SnpMemory.validateSmallPages address v ns : Guest I σ Unit)
      (SnpMemory.validateSmallPages address v ns : Guest J τ Unit) := by
  induction ns with
  | nil => exact .pure ()
  | cons n rest ih =>
      unfold SnpMemory.validateSmallPages
      cases address.add? (n * PageSize.small.bytes) with
      | none => exact .throw _
      | some page => exact .bind marks.validatePage fun _ => ih

theorem validateBlock :
    Renders handle (SnpMemory.validateBlock address size v : Guest I σ Unit)
      (SnpMemory.validateBlock address size v : Guest J τ Unit) := by
  unfold SnpMemory.validateBlock
  rw [← marks.pvalidate]
  refine .bind (.perform _) ?_
  rintro (error | ⟨⟩)
  · by_cases mismatch : error = .sizeMismatch ∧ size = .large
    · simp only [if_pos mismatch, ← marks.log]
      exact .bind (.perform _) fun _ => marks.validateSmallPages
    · simp only [if_neg mismatch]
      exact .throw _
  · exact .pure ()

/-- Marking the pages of entries is the same program over both interfaces. -/
theorem validateEntries {entries : List Entry} :
    Renders handle (SnpMemory.validateEntries entries : Guest I σ Unit)
      (SnpMemory.validateEntries entries : Guest J τ Unit) := by
  induction entries with
  | nil => exact .pure ()
  | cons e rest ih =>
      unfold SnpMemory.validateEntries
      refine .bind ?_ fun _ => ih
      unfold validateEntry
      cases e.assignment? with
      | none => exact .throw _
      | some assignment => exact marks.validateBlock

end CarriesMarks

end

/-! ## Codes -/

namespace PvalidateError

theorem ofCode?_eq_some_iff {n : Nat} {e : PvalidateError} : ofCode? n = some e ↔ n = e.code := by
  constructor
  · intro found
    unfold ofCode? at found
    split at found <;> cases found <;> rfl
  · rintro rfl
    exact ofCode?_code e

/-- Only the codes of the other errors are not read as unknown. -/
theorem getD_ofCode?_eq_unknownResult_iff {n : Nat} :
    (ofCode? n).getD .unknownResult = .unknownResult ↔ n ∉ [1, 2, 6, 255] := by
  constructor
  · intro unknown listed
    simp only [List.mem_cons, List.not_mem_nil, or_false] at listed
    rcases listed with rfl | rfl | rfl | rfl <;> cases unknown
  · intro other
    cases found : ofCode? n with
    | none => rfl
    | some e =>
        obtain rfl := ofCode?_eq_some_iff.mp found
        cases e with
        | unknownResult => rfl
        | badInput => exact absurd (by decide) other
        | noPermission => exact absurd (by decide) other
        | sizeMismatch => exact absurd (by decide) other
        | notUpdated => exact absurd (by decide) other

end PvalidateError

namespace Processor

section

variable {eax : UInt32} {carry : Bool}

theorem pvalidateResult_zero :
    pvalidateResult 0 carry = if carry then .error .notUpdated else .ok () := rfl

theorem pvalidateResult_of_ne (other : eax ≠ 0) :
    pvalidateResult eax carry = .error ((PvalidateError.ofCode? eax.toNat).getD .unknownResult) :=
  if_neg fun zero => other (UInt32.toNat_inj.mp zero)

/-- Apart from the unknown ones, an error is read from its own code. -/
theorem pvalidateResult_eq_error_iff {error : PvalidateError} (other : eax ≠ 0)
    (known : error ≠ .unknownResult) :
    pvalidateResult eax carry = .error error ↔ eax = UInt32.ofNat error.code := by
  have small : error.code < UInt32.size := by cases error <;> decide
  rw [pvalidateResult_of_ne other, Except.error.injEq, ← UInt32.toNat_inj,
    UInt32.toNat_ofNat_of_lt' small, ← PvalidateError.ofCode?_eq_some_iff]
  cases PvalidateError.ofCode? eax.toNat with
  | none => exact iff_of_false known.symm nofun
  | some e => exact Option.some_inj.symm

theorem pvalidateResult_eq_ok_iff :
    pvalidateResult eax carry = .ok () ↔ eax = 0 ∧ carry = false := by
  by_cases zero : eax = 0
  · subst zero
    cases carry <;> simp [pvalidateResult_zero]
  · rw [pvalidateResult_of_ne zero]
    exact iff_of_false nofun fun both => zero both.1

theorem pvalidateResult_eq_sizeMismatch_iff :
    pvalidateResult eax carry = .error .sizeMismatch ↔ eax = 6 := by
  by_cases zero : eax = 0
  · subst zero
    cases carry <;> simp [pvalidateResult_zero]
  · exact pvalidateResult_eq_error_iff zero (by decide)

theorem pvalidateResult_eq_notUpdated_iff :
    pvalidateResult eax carry = .error .notUpdated ↔ (eax = 0 ∧ carry = true) ∨ eax = 255 := by
  by_cases zero : eax = 0
  · subst zero
    cases carry <;> simp [pvalidateResult_zero]
  · rw [pvalidateResult_eq_error_iff zero (by decide)]
    exact (or_iff_right fun both => zero both.1).symm

theorem pvalidateResult_eq_unknownResult_iff :
    pvalidateResult eax carry = .error .unknownResult ↔ eax ∉ [0, 1, 2, 6, 255] := by
  by_cases zero : eax = 0
  · subst zero
    cases carry <;> simp [pvalidateResult_zero]
  · rw [pvalidateResult_of_ne zero, Except.error.injEq,
      PvalidateError.getD_ofCode?_eq_unknownResult_iff]
    simp [zero, ← UInt32.toNat_inj]

end

/-! ## Runs of instructions, read as runs of a change -/

/-- The requests of a change, carried out by instructions.  There is no page to exchange
anything over. -/
def perform : (call : Change.Call) → Code call.Answer
  | .pvalidate address size v => pvalidate address.val size v
  | .exchange _ => pure (.ok ())
  | .terminate => terminate
  | .log line => execute (.log line)

theorem carriesMarks_perform : CarriesMarks (I := Change.calls) (J := calls) perform where
  pvalidate _ _ _ := bind_pure _
  log _ := bind_pure _

/-- A PVALIDATE call with its operands, and what it left in EAX and the carry flag. -/
abbrev Event.pvalidate (rax ecx edx : Nat) (eax : UInt32) (carry : Bool) : Event :=
  ⟨.pvalidate rax ecx edx, (eax, carry)⟩

abbrev Event.log (line : LogLine) : Event := ⟨.log line, ()⟩

/-- What an instruction is for the change that it is part of. -/
inductive Reads : Event → Change.Event → Prop
  | call {address : PhysAddr} {size : PageSize} {v : Validation} {eax : UInt32} {carry : Bool}
      {answer : Except PvalidateError Unit} :
      pvalidateResult eax carry = answer →
      Reads (.pvalidate address.val size.code v.code eax carry) (.pvalidate address size v answer)
  | log (line : LogLine) : Reads (.log line) (.log line)

/-- The instructions of a program that asks for marks and log lines are read one by one. -/
theorem exists_forall₂_reads {α : Type} {program : Program Change.calls α} {a : α}
    {events : List Event}
    (h : (program.interpret (I := Change.calls) perform).Reaches events (.done a)) :
    ∃ above, program.Reaches above (.done a) ∧
      ((∀ ev ∈ above, ∃ low, Reads low ev) → List.Forall₂ Reads events above) := by
  induction program generalizing events with
  | done b =>
      obtain ⟨rfl, rfl⟩ := Program.reaches_done_done.mp h
      exact ⟨[], .here _, fun _ => .nil⟩
  | ask call k ih =>
      rw [Program.interpret, Program.reaches_bind_done] at h
      obtain ⟨answer, first, last, here, later, rfl⟩ := h
      obtain ⟨above, reaches, reads⟩ := ih answer later
      refine ⟨⟨call, answer⟩ :: above, .step answer reaches, fun marks => ?_⟩
      obtain ⟨⟨low, read⟩, marks'⟩ := List.forall_mem_cons.mp marks
      cases call with
      | pvalidate address size v =>
          obtain ⟨⟨eax, carry⟩, rest, decoded, rfl⟩ := reaches_execute_bind.mp here
          obtain ⟨rfl, same⟩ := Program.reaches_done_done.mp decoded
          exact .cons (.call same.symm) (reads marks')
      | log line =>
          obtain rfl := reaches_execute_done.mp here
          exact .cons (.log line) (reads marks')
      | exchange => cases read
      | terminate => cases read

/-- Marking the pages of entries on the processor. -/
def onProcessor (entries : List Entry) : Code (Except Stop Unit × Unit) :=
  (validateEntries entries : Guest calls Unit Unit).play ()

theorem exists_entriesRun {entries : List Entry} {events : List Event}
    {result : Except Stop Unit} (h : (onProcessor entries).Reaches events (.done (result, ()))) :
    ∃ above, List.Forall₂ Reads events above ∧ Change.EntriesRun entries above result := by
  have same : Renders perform (validateEntries entries : Change.OnBuffer Unit)
      (validateEntries entries : Guest calls Unit Unit) :=
    carriesMarks_perform.validateEntries
  unfold onProcessor at h
  rw [← same [] (), Program.reaches_bind_done] at h
  obtain ⟨⟨result', buffer⟩, first, last, reaches, ended, rfl⟩ := h
  obtain ⟨rfl, outcome⟩ := Program.reaches_done_done.mp ended
  obtain rfl : result = result' := congrArg Prod.fst outcome
  obtain ⟨above, reaches', reads⟩ := exists_forall₂_reads reaches
  obtain ⟨run, -⟩ := Change.ends_validateEntries.mp reaches'
  refine ⟨above, ?_, run⟩
  rw [List.append_nil]
  have call : ∀ address size v answer, ∃ low, Reads low (.pvalidate address size v answer) :=
    fun _ _ _ answer => ⟨_, .call (pvalidateResult_inRegisters answer)⟩
  exact reads (run.forall_mem call fun _ => ⟨_, .log _⟩)

/-! ## How a run goes on -/

/-- The registers say how a run goes on.  It ends with its last call if that neither succeeds nor
finds a 2MiB block in another size, and the result is the error of the call. -/
inductive Steered : List Event → Except Stop Unit → Prop
  | ended {result : Except Stop Unit} :
      (∀ address size v error, result ≠ .error (.failed (.pvalidate address size v error))) →
      Steered [] result
  | marked {address : PhysAddr} {size : PageSize} {v : Validation} {rest : List Event}
      {result : Except Stop Unit} :
      Steered rest result →
      Steered (.pvalidate address.val size.code v.code 0 false :: rest) result
  | split {address : PhysAddr} {v : Validation} {carry : Bool} {rest : List Event}
      {result : Except Stop Unit} :
      Steered rest result →
      Steered (.pvalidate address.val PageSize.large.code v.code 6 carry ::
        .log (.splitting address) :: rest) result
  | failed {address : PhysAddr} {size : PageSize} {v : Validation} {eax : UInt32} {carry : Bool}
      {error : PvalidateError} :
      pvalidateResult eax carry = .error error → ¬ (eax = 6 ∧ size = .large) →
      Steered [.pvalidate address.val size.code v.code eax carry]
        (.error (.failed (.pvalidate address size v error)))

/-- What the registers of a call mean for what comes after it.  ECX is the size asked for. -/
structure LeadsTo (ecx : Nat) (eax : UInt32) (carry : Bool) (after : List Event)
    (result : Except Stop Unit) : Prop where
  /-- The block is handled as 4KiB pages, and a line says so. -/
  split_iff : (∃ address more, after = .log (.splitting address) :: more) ↔
    eax = 6 ∧ ecx = PageSize.large.code
  /-- The run ends here, with an error of a call. -/
  failed_iff : (after = [] ∧ ∃ address size v error,
      result = .error (.failed (.pvalidate address size v error))) ↔
    ¬ (eax = 0 ∧ carry = false) ∧ ¬ (eax = 6 ∧ ecx = PageSize.large.code)

namespace Steered

variable {first last events : List Event} {result : Except Stop Unit}

theorem append (h : Steered first result) (through : result = .ok ()) {outcome : Except Stop Unit}
    (h' : Steered last outcome) : Steered (first ++ last) outcome := by
  induction h with
  | ended => exact h'
  | marked _ ih => exact .marked (ih through)
  | split _ ih => exact .split (ih through)
  | failed => cases through

/-- A run does not begin with a log line. -/
theorem ne_log_cons (h : Steered events result) (line : LogLine) (more : List Event) :
    events ≠ .log line :: more := by
  cases h with
  | ended => exact nofun
  | marked => exact nofun
  | split => exact nofun
  | failed => exact nofun

/-- The error of a PVALIDATE call is that of the last call. -/
theorem exists_last (h : Steered events result) {address : PhysAddr} {size : PageSize}
    {v : Validation} {error : PvalidateError}
    (stopped : result = .error (.failed (.pvalidate address size v error))) :
    ∃ before eax carry,
      events = before ++ [.pvalidate address.val size.code v.code eax carry] ∧
        pvalidateResult eax carry = .error error := by
  induction h with
  | ended other => exact absurd stopped (other _ _ _ _)
  | marked _ ih =>
      obtain ⟨before, eax, carry, rfl, failure⟩ := ih stopped
      exact ⟨_ :: before, eax, carry, rfl, failure⟩
  | split _ ih =>
      obtain ⟨before, eax, carry, rfl, failure⟩ := ih stopped
      exact ⟨_ :: _ :: before, eax, carry, rfl, failure⟩
  | failed failure =>
      cases stopped
      exact ⟨[], _, _, rfl, failure⟩

/-- From any of its calls on, a run is such a run again. -/
theorem of_append (h : Steered events result) {before after : List Event} {rax ecx edx : Nat}
    {eax : UInt32} {carry : Bool}
    (place : events = before ++ .pvalidate rax ecx edx eax carry :: after) :
    Steered (.pvalidate rax ecx edx eax carry :: after) result := by
  induction h generalizing before with
  | ended => exact absurd place.symm (List.append_ne_nil_of_right_ne_nil _ nofun)
  | marked run ih =>
      rcases List.cons_eq_append_iff.mp place with ⟨rfl, here⟩ | ⟨before', rfl, later⟩
      · exact here ▸ .marked run
      · exact ih later
  | split run ih =>
      rcases List.cons_eq_append_iff.mp place with ⟨rfl, here⟩ | ⟨before', rfl, next⟩
      · exact here ▸ .split run
      · -- what comes next is the line, and no call
        rcases List.cons_eq_append_iff.mp next with ⟨-, line⟩ | ⟨before'', rfl, later⟩
        · cases line
        · exact ih later
  | failed failure other =>
      rcases List.cons_eq_append_iff.mp place with ⟨rfl, here⟩ | ⟨before', rfl, later⟩
      · exact here ▸ .failed failure other
      · exact absurd later.symm (List.append_ne_nil_of_right_ne_nil _ nofun)

theorem leadsTo {after : List Event} {rax ecx edx : Nat} {eax : UInt32} {carry : Bool}
    (h : Steered (.pvalidate rax ecx edx eax carry :: after) result) :
    LeadsTo ecx eax carry after result := by
  cases h with
  | marked run =>
      constructor
      · refine iff_of_false ?_ nofun
        rintro ⟨address, more, begins⟩
        exact run.ne_log_cons _ _ begins
      · refine iff_of_false ?_ fun neither => neither.1 ⟨rfl, rfl⟩
        rintro ⟨rfl, address, size, v, error, stopped⟩
        -- an error would be that of a call after this one
        obtain ⟨before, _, _, whole, -⟩ := run.exists_last stopped
        exact absurd whole.symm (List.append_ne_nil_of_right_ne_nil _ nofun)
  | split run =>
      constructor
      · exact iff_of_true ⟨_, _, rfl⟩ ⟨rfl, rfl⟩
      · exact iff_of_false (fun last => nomatch last.1) fun neither => neither.2 ⟨rfl, rfl⟩
  | @failed _ size _ _ _ _ failure other =>
      have large : size.code = PageSize.large.code ↔ size = .large := by cases size <;> decide
      rw [← large] at other
      constructor
      · exact iff_of_false nofun other
      · refine iff_of_true ⟨rfl, _, _, _, _, rfl⟩ ⟨fun clear => ?_, other⟩
        cases failure.symm.trans (pvalidateResult_eq_ok_iff.mpr clear)

end Steered

section

variable {above : List Change.Event} {events : List Event} {result : Except Stop Unit}

/-- A call that succeeds is read from two clear registers. -/
theorem Reads.eq_of_ok {ev : Event} {address : PhysAddr} {size : PageSize} {v : Validation}
    (read : Reads ev (.pvalidate address size v (.ok ()))) :
    ev = .pvalidate address.val size.code v.code 0 false := by
  cases read with
  | call success =>
      obtain ⟨rfl, rfl⟩ := pvalidateResult_eq_ok_iff.mp success
      rfl

theorem steered_of_pagesRun {first : PhysAddr} {v : Validation} {ns : List Nat}
    (run : Change.PagesRun first v ns above result) (reads : List.Forall₂ Reads events above) :
    Steered events result := by
  induction run generalizing events with
  | done =>
      cases reads
      exact .ended nofun
  | beyond =>
      cases reads
      exact .ended nofun
  | failed error =>
      obtain _ | ⟨read, ⟨⟩⟩ := reads
      cases read with
      | call failure => exact .failed failure nofun
  | next _ _ ih =>
      obtain _ | ⟨read, later⟩ := reads
      rw [read.eq_of_ok]
      exact .marked (ih later)

theorem steered_of_blockRun {address : PhysAddr} {v : Validation} {size : PageSize}
    (run : Change.BlockRun address v size above result) (reads : List.Forall₂ Reads events above) :
    Steered events result := by
  cases run with
  | whole =>
      obtain _ | ⟨read, ⟨⟩⟩ := reads
      rw [read.eq_of_ok]
      exact .marked (.ended nofun)
  | failed other =>
      obtain _ | ⟨read, ⟨⟩⟩ := reads
      cases read with
      | call failure =>
          refine .failed failure fun both => other ⟨?_, both.2⟩
          exact Except.error.inj
            (failure.symm.trans (pvalidateResult_eq_sizeMismatch_iff.mpr both.1))
  | split pages =>
      obtain _ | ⟨read, _ | ⟨line, later⟩⟩ := reads
      cases read with
      | call mismatch =>
          obtain rfl := pvalidateResult_eq_sizeMismatch_iff.mp mismatch
          cases line
          exact .split (steered_of_pagesRun pages later)

theorem steered_of_entriesRun {entries : List Entry}
    (run : Change.EntriesRun entries above result) (reads : List.Forall₂ Reads events above) :
    Steered events result := by
  induction run generalizing events with
  | done =>
      cases reads
      exact .ended nofun
  | invalid =>
      cases reads
      exact .ended nofun
  | stopped _ block => exact steered_of_blockRun block reads
  | @next _ _ _ above more _ _ block _ ih =>
      have first := steered_of_blockRun block (List.forall₂_take_append _ _ _ reads)
      have last := ih (List.forall₂_drop_append _ _ _ reads)
      rw [← List.take_append_drop above.length events]
      exact first.append rfl last

end

/-- **Result codes over a whole run.**  Take any list of words and any processor, which may
leave whatever it likes in the registers at each call.  The run that marks the pages of these
entries is read as one of the change, entry by entry, with the answer of each call made of its
registers.  A call is a success exactly if there is no code and no carry.  A block is handled
as 4KiB pages exactly after a 2MiB call with code 6, and the run fails at a call exactly if it
is neither of the two.  When it has failed so, the error says that the mark was there already
exactly if the last call left no code and a carry, or the code 255, and that the code is
unknown exactly if it is none of 0, 1, 2, 6 and 255.  The error tells a carry from a code, and
a known code from an unknown one, exactly if the last code is not 255. -/
theorem result_codes {σ : Type} (machine : Program.World calls σ) (m : σ) (entries : List Entry) :
    let run := (onProcessor entries).run machine m #[]
    let result := run.1.1
    let events : List Event := run.2.2.toList
    (∃ above, List.Forall₂ Reads events above ∧
      ((result = .ok () ∧ Change.AllHandled entries above) ∨
        ∃ stop, result = .error stop ∧ Change.HandledUntil entries above stop)) ∧
    (∀ eax carry, pvalidateResult eax carry = .ok () ↔ eax = 0 ∧ carry = false) ∧
    (∀ before after rax ecx edx eax carry,
      events = before ++ .pvalidate rax ecx edx eax carry :: after →
        LeadsTo ecx eax carry after result) ∧
    ∀ address size v error, result = .error (.failed (.pvalidate address size v error)) →
      ∃ before eax carry,
        events = before ++ [.pvalidate address.val size.code v.code eax carry] ∧
        (error = .notUpdated ↔ (eax = 0 ∧ carry = true) ∨ eax = 255) ∧
        (error = .unknownResult ↔ eax ∉ [0, 1, 2, 6, 255]) ∧
        (((error = .notUpdated ↔ eax = 0 ∧ carry = true) ∧
          (error = .unknownResult ↔ eax ∉ [0, 1, 2, 6])) ↔ eax ≠ 255) := by
  intro run result events
  obtain ⟨reaches, -⟩ := Program.reaches_of_run machine (onProcessor entries) m
  obtain ⟨above, reads, entriesRun⟩ := exists_entriesRun reaches
  have steered : Steered events result := steered_of_entriesRun entriesRun reads
  refine ⟨⟨above, reads, entriesRun.allHandled_or_until⟩, ?_, ?_, ?_⟩
  · intro eax carry
    exact pvalidateResult_eq_ok_iff
  · intro before after rax ecx edx eax carry place
    exact (steered.of_append place).leadsTo
  · intro address size v error stopped
    obtain ⟨before, eax, carry, whole, failure⟩ := steered.exists_last stopped
    have notUpdated : error = .notUpdated ↔ (eax = 0 ∧ carry = true) ∨ eax = 255 := by
      rw [← pvalidateResult_eq_notUpdated_iff, failure, Except.error.injEq]
    have unknown : error = .unknownResult ↔ eax ∉ [0, 1, 2, 6, 255] := by
      rw [← @pvalidateResult_eq_unknownResult_iff eax carry, failure, Except.error.injEq]
    refine ⟨before, eax, carry, whole, notUpdated, unknown, ?_, ?_⟩
    · rintro ⟨onlyCarry, -⟩ rfl
      obtain ⟨zero, -⟩ := onlyCarry.mp (notUpdated.mpr (.inr rfl))
      exact absurd zero (by decide)
    · intro other
      have same : eax ∉ [0, 1, 2, 6, 255] ↔ eax ∉ [0, 1, 2, 6] := by simp [other]
      exact ⟨notUpdated.trans (or_iff_left other), unknown.trans same⟩

/-- A processor that leaves the code 255 and no carry. -/
def strayCode : Program.World calls Unit
  | .pvalidate .., u => ((255, false), u)
  | .cli, u => ((), u)
  | .sti, u => ((), u)
  | .wrmsr .., u => ((), u)
  | .rdmsr _, u => (0, u)
  | .vmgexit, u => ((), u)
  | .vmgexitWith page, u => (page, u)
  | .hlt, u => ((), u)
  | .log _, u => ((), u)

/-- A code that nobody knows, and no carry, are taken for a carry. -/
theorem result_codes_strayCode :
    let run := (onProcessor [Change.claimEntry]).run strayCode () #[]
    ∃ eax carry error, run.2.2.toList = [Event.pvalidate 0x9000 0 1 eax carry] ∧
      run.1.1 = .error (.failed (.pvalidate ⟨0x9000, by decide⟩ .small .validated error)) ∧
      ¬ (error = .notUpdated ↔ eax = 0 ∧ carry = true) ∧
      ¬ (error = .unknownResult ↔ eax ∉ [0, 1, 2, 6]) :=
  ⟨255, false, .notUpdated, rfl, rfl, by decide, by decide⟩

end Processor

end SnpMemory

/-
# `SnpMemory.Proofs.Entrywise` — a list of entries, entry by entry

The run that marks the pages of a list of entries is read off its events here.  Each entry
accounts for a piece of them, in the order of the list:

    Swept          a successful call for each of so many 4KiB pages of a block
    Sweep          the 4KiB pages of a block up to the last one, or up to one in the way
    Handled        the piece of an entry: nothing, one call, or one call and a sweep
    AllHandled     pieces of entries that are all done
    HandledUntil   such pieces, and then one of an entry that stops the run

The pieces are all there is to know: a run ends well just when its events are those of
entries that are all done, and stops just when one of them stops it (`handled_in_order`).
This holds for words that nobody has checked, so an entry may ask for no assignment at all.

A sweep can come to a page that is not in memory, and that is the only fault that a list of
entries can bring about.  The pages before that one reach up to the end of memory, since
they begin at a multiple of their size (`RunsOut`).  It takes a 2MiB block that does not end
in memory, and none that begins at a multiple of its size is like that (`faults_iff`).
-/
import SnpMemory.Proofs.Blame
import SnpMemory.Proofs.Refilling

namespace SnpMemory

/-! ## What an entry asks for -/

/-- The mark that an entry asks for.  Operation 1 makes a page the guest's own, and operation 2
shares it. -/
inductive Entry.Demands (e : Entry) : Validation → Prop
  | own : e.operation = 1 → e.Demands .validated
  | shared : e.operation = 2 → e.Demands .unvalidated

theorem Entry.demands_iff {e : Entry} {v : Validation} :
    e.Demands v ↔ ∃ assignment, e.assignment? = some assignment ∧ assignment.validation = v := by
  constructor
  · rintro (own | shared)
    · exact ⟨.guestOnly, Assignment.ofCode?_eq_some_iff.mpr own, rfl⟩
    · exact ⟨.shared, Assignment.ofCode?_eq_some_iff.mpr shared, rfl⟩
  · rintro ⟨assignment, wanted, rfl⟩
    have code := Assignment.ofCode?_eq_some_iff.mp wanted
    cases assignment with
    | guestOnly => exact .own code
    | shared => exact .shared code

theorem Entry.assignment?_eq_none_iff {e : Entry} :
    e.assignment? = none ↔ ∀ v, ¬ e.Demands v := by
  constructor
  · intro nothing v demands
    obtain ⟨assignment, wanted, -⟩ := demands_iff.mp demands
    cases nothing.symm.trans wanted
  · intro none
    exact Option.eq_none_iff_forall_not_mem.mpr fun assignment wanted =>
      none _ (demands_iff.mpr ⟨assignment, wanted, rfl⟩)

namespace Change

/-! ## Pieces of a run -/

/-- A successful call for each of so many 4KiB pages, from the one at an address on. -/
inductive Swept (first : PhysAddr) (v : Validation) : Nat → List Event → Prop
  | none : Swept first v 0 []
  | next {n : Nat} {events : List Event} {page : PhysAddr} :
      Swept first v n events → page.val = first.val + n * 0x1000 →
      Swept first v (n + 1) (events ++ [.pvalidate page .small v (.ok ())])

/-- The 4KiB pages from an address on get a mark, so many in all, or those before one whose
call fails, for whatever reason, or which is not in memory. -/
inductive Sweep (first : PhysAddr) (v : Validation) (total : Nat) :
    List Event → Except Stop Unit → Prop
  | done {events : List Event} : Swept first v total events → Sweep first v total events (.ok ())
  | failed {n : Nat} {events : List Event} {page : PhysAddr} {error : PvalidateError} :
      n < total → Swept first v n events → page.val = first.val + n * 0x1000 →
      Sweep first v total (events ++ [.pvalidate page .small v (.error error)])
        (.error (.failed (.pvalidate page .small v error)))
  | beyond {n : Nat} {events : List Event} :
      n < total → Swept first v n events → physicalLimit ≤ first.val + n * 0x1000 →
      Sweep first v total events (.error (.fault .beyondMemory))

/-- The call for a 2MiB block finds it in another size, and a line says so. -/
abbrev foundSplit (address : PhysAddr) (v : Validation) : List Event :=
  [.pvalidate address .large v (.error .sizeMismatch), .log (.splitting address)]

/-- What one entry accounts for.  If it asks for a mark, there is a call for its page.  Just
when that call finds a 2MiB block in another size, the 512 pages of the block are swept. -/
inductive Handled (e : Entry) : List Event → Except Stop Unit → Prop
  | invalid : (∀ v, ¬ e.Demands v) → Handled e [] (.error (.failed (.invalidEntry e.raw.toNat)))
  | whole {v : Validation} :
      e.Demands v → Handled e [.pvalidate e.address e.size v (.ok ())] (.ok ())
  | failed {v : Validation} {error : PvalidateError} :
      e.Demands v → ¬ (error = .sizeMismatch ∧ e.size = .large) →
      Handled e [.pvalidate e.address e.size v (.error error)]
        (.error (.failed (.pvalidate e.address e.size v error)))
  | split {v : Validation} {pages : List Event} {result : Except Stop Unit} :
      e.Demands v → e.size = .large → Sweep e.address v 512 pages result →
      Handled e (foundSplit e.address v ++ pages) result

/-- A piece for each of the entries, in order, and all of them end well. -/
inductive AllHandled : List Entry → List Event → Prop
  | nil : AllHandled [] []
  | cons {e : Entry} {rest : List Entry} {events more : List Event} :
      Handled e events (.ok ()) → AllHandled rest more → AllHandled (e :: rest) (events ++ more)

/-- Pieces that end well for the entries before one of them, and a last piece for the one that
stops the run. -/
inductive HandledUntil : List Entry → List Event → Stop → Prop
  | at {front rest : List Entry} {e : Entry} {done last : List Event} {stop : Stop} :
      AllHandled front done → Handled e last (.error stop) →
      HandledUntil (front ++ e :: rest) (done ++ last) stop

/-! ## Sweeps -/

section

variable {first : PhysAddr} {v : Validation} {n k m : Nat} {ns : List Nat}
  {before events : List Event} {result : Except Stop Unit}

/-- Pages that are swept can be followed by others. -/
theorem Swept.pagesRun (swept : Swept first v n before) (run : PagesRun first v ns events result) :
    PagesRun first v (List.range n ++ ns) (before ++ events) result := by
  induction swept generalizing ns events with
  | none => exact run
  | @next n before page _ place ih =>
      have here : first.add? (n * PageSize.small.bytes) = some page :=
        PhysAddr.ofNat?_eq_some_iff.mpr place
      have later := ih (.next here run)
      rw [List.range_succ, List.append_assoc, List.append_assoc]
      exact later

/-- The numbers of the pages, cut at one of them. -/
theorem range_eq_append_cons (h : n < m) :
    List.range m = List.range n ++ n :: List.range' (n + 1) (m - (n + 1)) := by
  have whole : m = n + (m - (n + 1) + 1) := by omega
  rw [← List.range'_succ, List.range_eq_range', List.range_eq_range']
  exact (congrArg (List.range' 0) whole).trans (by rw [← List.range'_append_1, Nat.zero_add])

/-- The induction is on the run.  The pages before it are swept. -/
theorem PagesRun.sweep (run : PagesRun first v ns events result) (numbers : List.range' k m = ns)
    (swept : Swept first v k before) : Sweep first v (k + m) (before ++ events) result := by
  induction run generalizing k m before with
  | done =>
      obtain rfl := List.range'_eq_nil_iff.mp numbers
      rw [List.append_nil]
      exact .done swept
  | beyond place =>
      obtain ⟨rfl, more, -⟩ := List.range'_eq_cons_iff.mp numbers
      rw [List.append_nil]
      exact .beyond (Nat.lt_add_of_pos_right more) swept (PhysAddr.ofNat?_eq_none_iff.mp place)
  | failed error place =>
      obtain ⟨rfl, more, -⟩ := List.range'_eq_cons_iff.mp numbers
      exact .failed (Nat.lt_add_of_pos_right more) swept (val_of_add? place)
  | next place _ ih =>
      obtain ⟨rfl, more, rfl⟩ := List.range'_eq_cons_iff.mp numbers
      have later := ih rfl (swept.next (val_of_add? place))
      rw [List.append_assoc] at later
      have total : k + 1 + (m - 1) = k + m := by omega
      rwa [total] at later

/-- The run over the pages of a block is a sweep. -/
theorem pagesRun_range_iff {total : Nat} :
    PagesRun first v (List.range total) events result ↔ Sweep first v total events result := by
  constructor
  · intro run
    have sweep := run.sweep List.range_eq_range'.symm .none
    rwa [Nat.zero_add] at sweep
  · intro sweep
    cases sweep with
    | done swept =>
        have run := swept.pagesRun .done
        rwa [List.append_nil, List.append_nil] at run
    | failed more swept place =>
        rw [range_eq_append_cons more]
        exact swept.pagesRun (.failed _ (PhysAddr.ofNat?_eq_some_iff.mpr place))
    | beyond more swept place =>
        rw [range_eq_append_cons more, ← List.append_nil events]
        exact swept.pagesRun (.beyond (PhysAddr.ofNat?_eq_none_iff.mpr place))

end

/-! ## Entries -/

section

variable {e : Entry} {entries front rest : List Entry} {events done last : List Event}
  {result : Except Stop Unit} {stop : Stop}

theorem handled_of_blockRun {v : Validation} (demands : e.Demands v)
    (block : BlockRun e.address v e.size events result) : Handled e events result := by
  generalize size : e.size = size' at block
  cases block with
  | whole => exact size ▸ .whole demands
  | failed other =>
      subst size
      exact .failed demands other
  | split pages => exact .split demands size (pagesRun_range_iff.mp pages)

theorem Handled.blockRun_or_invalid (handled : Handled e events result) :
    (∃ v, e.Demands v ∧ BlockRun e.address v e.size events result) ∨
    (∀ v, ¬ e.Demands v) ∧ events = [] ∧
      result = .error (.failed (.invalidEntry e.raw.toNat)) := by
  cases handled with
  | invalid nothing => exact .inr ⟨nothing, rfl, rfl⟩
  | whole demands => exact .inl ⟨_, demands, .whole _⟩
  | failed demands other => exact .inl ⟨_, demands, .failed other⟩
  | split demands large sweep =>
      refine .inl ⟨_, demands, ?_⟩
      rw [large]
      exact .split (pagesRun_range_iff.mpr sweep)

theorem EntriesRun.allHandled_or_until (run : EntriesRun entries events result) :
    (result = .ok () ∧ AllHandled entries events) ∨
      ∃ stop, result = .error stop ∧ HandledUntil entries events stop := by
  induction run with
  | done => exact .inl ⟨rfl, .nil⟩
  | invalid nothing =>
      exact .inr ⟨_, rfl, .at .nil (.invalid (Entry.assignment?_eq_none_iff.mp nothing))⟩
  | stopped wanted block =>
      have demands := Entry.demands_iff.mpr ⟨_, wanted, rfl⟩
      exact .inr ⟨_, rfl, .at .nil (handled_of_blockRun demands block)⟩
  | next wanted block _ ih =>
      have demands := Entry.demands_iff.mpr ⟨_, wanted, rfl⟩
      have handled := handled_of_blockRun demands block
      rcases ih with ⟨ended, all⟩ | ⟨stop, ended, ⟨before, last⟩⟩
      · exact .inl ⟨ended, .cons handled all⟩
      · refine .inr ⟨stop, ended, ?_⟩
        rw [← List.append_assoc]
        exact .at (.cons handled before) last

/-- Entries that are handled can be followed by others. -/
theorem AllHandled.entriesRun (all : AllHandled front done)
    (run : EntriesRun entries events result) :
    EntriesRun (front ++ entries) (done ++ events) result := by
  induction all with
  | nil => exact run
  | cons handled _ ih =>
      rcases handled.blockRun_or_invalid with ⟨v, demands, block⟩ | ⟨-, -, failed⟩
      · obtain ⟨assignment, wanted, rfl⟩ := Entry.demands_iff.mp demands
        rw [List.append_assoc]
        exact .next wanted block ih
      · cases failed

theorem HandledUntil.entriesRun (until' : HandledUntil entries events stop) :
    EntriesRun entries events (.error stop) := by
  obtain ⟨before, handled⟩ := until'
  refine before.entriesRun ?_
  rcases handled.blockRun_or_invalid with ⟨v, demands, block⟩ | ⟨nothing, rfl, failed⟩
  · obtain ⟨assignment, wanted, rfl⟩ := Entry.demands_iff.mp demands
    exact .stopped wanted block
  · cases failed
    exact .invalid (Entry.assignment?_eq_none_iff.mpr nothing)

theorem entriesRun_ok_iff : EntriesRun entries events (.ok ()) ↔ AllHandled entries events := by
  constructor
  · intro run
    rcases run.allHandled_or_until with ⟨-, all⟩ | ⟨stop, other, -⟩
    · exact all
    · cases other
  · intro all
    have run := all.entriesRun .done
    rwa [List.append_nil, List.append_nil] at run

theorem entriesRun_error_iff :
    EntriesRun entries events (.error stop) ↔ HandledUntil entries events stop := by
  constructor
  · intro run
    rcases run.allHandled_or_until with ⟨other, -⟩ | ⟨stop', same, until'⟩
    · cases other
    · cases same
      exact until'
  · exact HandledUntil.entriesRun

/-! ## The last call -/

/-- A failed call is the last thing that its entry accounts for. -/
theorem Handled.getLast?_of_error (handled : Handled e events (.error stop)) :
    stop = .failed (.invalidEntry e.raw.toNat) ∧ events = [] ∧ (∀ v, ¬ e.Demands v) ∨
    stop = .fault .beyondMemory ∨
    ∃ address size v error, stop = .failed (.pvalidate address size v error) ∧
      events.getLast? = some (.pvalidate address size v (.error error)) := by
  cases handled with
  | invalid nothing => exact .inl ⟨rfl, rfl, nothing⟩
  | failed => exact .inr (.inr ⟨_, _, _, _, rfl, rfl⟩)
  | split _ _ sweep =>
      cases sweep with
      | failed =>
          refine .inr (.inr ⟨_, _, _, _, rfl, ?_⟩)
          rw [← List.append_assoc]
          exact List.getLast?_concat
      | beyond => exact .inr (.inl rfl)

theorem HandledUntil.getLast?_of_error (until' : HandledUntil entries events stop) :
    (∃ front e rest, entries = front ++ e :: rest ∧ AllHandled front events ∧
      (∀ v, ¬ e.Demands v) ∧ stop = .failed (.invalidEntry e.raw.toNat)) ∨
    stop = .fault .beyondMemory ∨
    ∃ address size v error, stop = .failed (.pvalidate address size v error) ∧
      events.getLast? = some (.pvalidate address size v (.error error)) := by
  obtain @⟨front, rest, e, done, last, _, before, handled⟩ := until'
  rcases handled.getLast?_of_error with
    ⟨failed, rfl, nothing⟩ | fault | ⟨address, size, v, error, failed, final⟩
  · rw [List.append_nil]
    exact .inl ⟨front, e, rest, rfl, before, nothing, failed⟩
  · exact .inr (.inl fault)
  · refine .inr (.inr ⟨address, size, v, error, failed, ?_⟩)
    rw [List.getLast?_append, final]
    rfl

end

/-! ## Runs in a world -/

section

variable {σ : Type} {world : Program.World calls σ} {s s' : σ} {entries buffer : List Entry}
  {events : List Event} {result : Except Stop Unit}

/-- Events that are the answers of a world belong to the run in that world. -/
theorem EntriesRun.run_eq (run : EntriesRun entries events result)
    (follows : Program.Follows world s events s') :
    ((validateEntries entries : OnBuffer Unit).play buffer).run world s #[] =
      ((result, buffer), s', events.toArray) := by
  have ends : (validateEntries entries : OnBuffer Unit).Ends buffer events result buffer :=
    ends_validateEntries.mpr ⟨run, rfl⟩
  have same := Program.run_eq_of_follows ends follows #[]
  rwa [Array.empty_append] at same

/-- What is done in a world for a list of entries. -/
theorem entriesRun_of_run (world : Program.World calls σ) (s : σ) (entries buffer : List Entry) :
    let run := ((validateEntries entries : OnBuffer Unit).play buffer).run world s #[]
    EntriesRun entries run.2.2.toList run.1.1 ∧
      Program.Follows world s run.2.2.toList run.2.1 := by
  intro run
  obtain ⟨reaches, follows⟩ :=
    Program.reaches_of_run world ((validateEntries entries : OnBuffer Unit).play buffer) s
  exact ⟨(ends_validateEntries.mp reaches).1, follows⟩

theorem result_eq_iff :
    let run := ((validateEntries entries : OnBuffer Unit).play buffer).run world s #[]
    run.1.1 = result ↔ EntriesRun entries run.2.2.toList result := by
  intro run
  obtain ⟨entriesRun, follows⟩ := entriesRun_of_run world s entries buffer
  constructor
  · rintro rfl
    exact entriesRun
  · intro run'
    exact congrArg (·.1.1) (run'.run_eq follows)

/-- **Entry by entry.**  Take any list of words, any world, and the run that marks the pages of
these entries.  The run ends well if and only if its events are those of entries that are all
done, in order; and it stops if and only if they are those of entries of which the last stops
it.  An entry is reported as invalid just when it is the first that asks for no mark, all before
it are done, and there are no other events.  Any other failure is that of the last call, with
the page, the mark and the error of that call. -/
theorem handled_in_order (world : Program.World calls σ) (s : σ) (entries buffer : List Entry) :
    let run := ((validateEntries entries : OnBuffer Unit).play buffer).run world s #[]
    let result := run.1.1
    let events : List Event := run.2.2.toList
    (result = .ok () ↔ AllHandled entries events) ∧
    (∀ stop, result = .error stop ↔ HandledUntil entries events stop) ∧
    (∀ raw, result = .error (.failed (.invalidEntry raw)) ↔
      ∃ front e rest, entries = front ++ e :: rest ∧ AllHandled front events ∧
        (∀ v, ¬ e.Demands v) ∧ raw = e.raw.toNat) ∧
    ∀ error, result = .error (.failed error) → (∀ raw, error ≠ .invalidEntry raw) →
      ∃ address size v code, error = .pvalidate address size v code ∧
        events.getLast? = some (.pvalidate address size v (.error code)) := by
  intro run result events
  have stops : ∀ stop, result = .error stop ↔ HandledUntil entries events stop :=
    fun stop => result_eq_iff.trans entriesRun_error_iff
  refine ⟨result_eq_iff.trans entriesRun_ok_iff, stops, ?_, ?_⟩
  · intro raw
    rw [stops]
    constructor
    · intro until'
      rcases until'.getLast?_of_error with
        ⟨front, e, rest, split, before, nothing, failed⟩ | fault | ⟨_, _, _, _, failed, -⟩
      · cases failed
        exact ⟨front, e, rest, split, before, nothing, rfl⟩
      · cases fault
      · cases failed
    · rintro ⟨front, e, rest, split, before, nothing, rfl⟩
      have until' : HandledUntil (front ++ e :: rest) (events ++ [])
          (.failed (.invalidEntry e.raw.toNat)) := .at before (.invalid nothing)
      rw [List.append_nil, ← split] at until'
      exact until'
  · intro error failed other
    rcases ((stops _).mp failed).getLast?_of_error with
      ⟨_, e, _, -, -, -, invalid⟩ | fault | ⟨address, size, v, code, same, final⟩
    · cases invalid
      exact absurd rfl (other _)
    · cases fault
    · cases same
      exact ⟨address, size, v, code, rfl, final⟩

end

/-- An entry for a single page, to be made the guest's own. -/
def claimEntry : Entry := .ofPage ⟨0x9000, by decide⟩ .small .guestOnly

/-- The one page that passes is that of the first entry.  The block is found split, and its
first page stops the run before the word without an operation is looked at. -/
theorem handled_in_order_onePage :
    let entries := [claimEntry, shareBlockEntry, .zero]
    let run := ((validateEntries entries : OnBuffer Unit).play []).run onePage 0 #[]
    let page := shareBlockEntry.address
    run.1.1 = .error (.failed (.pvalidate page .small .unvalidated .notUpdated)) ∧
      run.2.2.toList.getLast? =
        some (Event.pvalidate page .small .unvalidated (.error .notUpdated)) := by
  intro entries run page
  let done : List Event := [.pvalidate claimEntry.address .small .validated (.ok ())]
  let last : List Event := foundSplit page .unvalidated ++
    [.pvalidate page .small .unvalidated (.error .notUpdated)]
  let stop : Stop := .failed (.pvalidate page .small .unvalidated .notUpdated)
  have size : claimEntry.size = .small := Entry.size_ofPage _ _ _
  have first : Handled claimEntry done (.ok ()) := by
    have whole : Handled claimEntry _ (.ok ()) := .whole (.own (by decide))
    rwa [size] at whole
  have before : AllHandled [claimEntry] done := .cons first .nil
  have sweep : Sweep page .unvalidated 512
      [.pvalidate page .small .unvalidated (.error .notUpdated)] (.error stop) :=
    .failed (by decide) .none rfl
  have handled : Handled shareBlockEntry last (.error stop) :=
    .split (.shared (by decide)) (Entry.size_ofPage _ _ _) sweep
  have until' : HandledUntil ([claimEntry] ++ shareBlockEntry :: [.zero]) (done ++ last) stop :=
    .at before handled
  have follows : Program.Follows onePage 0 (done ++ last) 1 := ⟨rfl, rfl, rfl, rfl, rfl⟩
  have trace : run.2.2.toList = done ++ last :=
    congrArg (fun run => run.2.2.toList) (until'.entriesRun.run_eq follows)
  have named : ((validateEntries entries : OnBuffer Unit).play []).run onePage 0 #[] = run := rfl
  obtain ⟨-, stops, -, calls⟩ := handled_in_order onePage 0 entries []
  rw [named] at stops calls
  have result : run.1.1 = .error stop := by
    rw [stops, trace]
    exact until'
  obtain ⟨address, size, v, code, same, final⟩ := calls _ result (fun _ => nofun)
  cases same
  exact ⟨result, final⟩

/-! ## The one fault -/

/-- The piece of an entry that asks for a 2MiB block near the end of memory.  The call for the
block finds it split, and the 4KiB pages are swept up to the end of memory. -/
inductive RunsOut (e : Entry) : List Event → Prop
  | intro {v : Validation} {n : Nat} {pages : List Event} :
      e.Demands v → e.size = .large → physicalLimit - 0x200000 < e.address.val →
      Swept e.address v n pages → e.address.val + n * 0x1000 = physicalLimit →
      RunsOut e (foundSplit e.address v ++ pages)

section

variable {e : Entry} {entries : List Entry} {events : List Event}

/-- Pages that are swept are in memory, and so are their ends. -/
theorem Swept.le_physicalLimit {first : PhysAddr} {v : Validation} {n : Nat}
    (swept : Swept first v n events) (aligned : 0x1000 ∣ first.val) :
    first.val + n * 0x1000 ≤ physicalLimit := by
  unfold physicalLimit
  cases swept with
  | none =>
      rw [Nat.zero_mul]
      exact Nat.le_of_lt first.val_lt
  | @next n _ page _ place =>
      have within := page.val_lt
      omega

theorem handled_fault_iff :
    Handled e events (.error (.fault .beyondMemory)) ↔ RunsOut e events := by
  constructor
  · intro handled
    cases handled with
    | split demands large sweep =>
        cases sweep with
        | beyond more swept outside =>
            have last := Nat.le_antisymm (swept.le_physicalLimit e.dvd_address) outside
            have room : 0x200000 ≤ physicalLimit := by decide
            exact .intro demands large (by omega) swept last
  · intro runsOut
    cases runsOut with
    | intro demands large high swept last =>
        exact .split demands large (.beyond (by omega) swept (Nat.le_of_eq last.symm))

/-- No block that begins at a multiple of its size ends beyond memory. -/
theorem RunsOut.not_dvd (runsOut : RunsOut e events) : ¬ 0x200000 ∣ e.address.val := by
  intro aligned
  have within := e.address.val_lt
  cases runsOut with
  | intro _ _ high =>
      unfold physicalLimit at high
      omega

theorem handledUntil_fault_iff :
    HandledUntil entries events (.fault .beyondMemory) ↔
      ∃ front e rest done last, entries = front ++ e :: rest ∧ AllHandled front done ∧
        RunsOut e last ∧ events = done ++ last := by
  constructor
  · rintro ⟨before, handled⟩
    exact ⟨_, _, _, _, _, rfl, before, handled_fault_iff.mp handled, rfl⟩
  · rintro ⟨front, e, rest, done, last, rfl, before, runsOut, rfl⟩
    exact .at before (handled_fault_iff.mpr runsOut)

/-- The 2MiB pages of a buffer begin at multiples of 2MiB, also where the walk is beyond
memory, since memory ends at such a multiple. -/
theorem dvd_address_of_mem_fill {b : Batch} {goal : Goal} {start : Nat}
    (mem : e ∈ (b.fill goal start).1.entries) (large : e.size = .large) :
    0x200000 ∣ e.address.val := by
  rw [Batch.entries_fill] at mem
  obtain ⟨address, rfl⟩ := Goal.exists_entryAt_of_mem_walk mem
  rw [Goal.size_entryAt] at large
  obtain ⟨-, multiple, -⟩ := Goal.sizeAt_eq_large_iff.mp large
  have place : (goal.entryAt address).address.val =
      address % 0x10000000000000 / 0x1000 * 0x1000 := Entry.address_ofPage _ _ _
  rw [place]
  omega

end

/-- **The one fault.**  Take any list of words, any world, and the run that marks the pages of
these entries.  It ends in a fault if and only if it comes to a 2MiB block that begins less
than 2MiB before the end of memory, the call for the block finds it in another size, and the
calls for all 4KiB pages from there to the end of memory succeed.  In every other run there is
a result.  So there is one if each 2MiB block begins at a multiple of its size, as all those
in a buffer do. -/
theorem faults_iff {σ : Type} (world : Program.World calls σ) (s : σ)
    (entries buffer : List Entry) :
    let run := ((validateEntries entries : OnBuffer Unit).play buffer).run world s #[]
    let result := run.1.1
    (result = .error (.fault .beyondMemory) ↔
      ∃ front e rest done last, entries = front ++ e :: rest ∧ AllHandled front done ∧
        RunsOut e last ∧ done ++ last <+: run.2.2.toList) ∧
    (result ≠ .error (.fault .beyondMemory) →
      result = .ok () ∨ ∃ error, result = .error (.failed error)) ∧
    ((∀ e ∈ entries, e.size = .large → 0x200000 ∣ e.address.val) →
      result ≠ .error (.fault .beyondMemory)) ∧
    ∀ (b : Batch) (goal : Goal) (start : Nat), entries = (b.fill goal start).1.entries →
      result ≠ .error (.fault .beyondMemory) := by
  intro run result
  obtain ⟨entriesRun, follows⟩ := entriesRun_of_run world s entries buffer
  have fault_iff : result = .error (.fault .beyondMemory) ↔
      ∃ front e rest done last, entries = front ++ e :: rest ∧ AllHandled front done ∧
        RunsOut e last ∧ run.2.2.toList = done ++ last :=
    result_eq_iff.trans (entriesRun_error_iff.trans handledUntil_fault_iff)
  have aligned_ne : (∀ e ∈ entries, e.size = .large → 0x200000 ∣ e.address.val) →
      result ≠ .error (.fault .beyondMemory) := by
    intro aligned faults
    obtain ⟨front, e, rest, done, last, split, -, runsOut, -⟩ := fault_iff.mp faults
    have mem : e ∈ entries := split ▸ List.mem_append_right front List.mem_cons_self
    have large : e.size = .large := by
      cases runsOut with
      | intro _ large => exact large
    exact runsOut.not_dvd (aligned e mem large)
  refine ⟨?_, ?_, aligned_ne, ?_⟩
  · constructor
    · intro faults
      obtain ⟨front, e, rest, done, last, split, before, runsOut, whole⟩ := fault_iff.mp faults
      exact ⟨front, e, rest, done, last, split, before, runsOut, whole ▸ List.prefix_rfl⟩
    · rintro ⟨front, e, rest, done, last, split, before, runsOut, more, whole⟩
      -- the run cannot go on behind these events, since they are a whole run in this world
      have until' : HandledUntil entries (done ++ last) (.fault .beyondMemory) :=
        handledUntil_fault_iff.mpr ⟨front, e, rest, done, last, split, before, runsOut, rfl⟩
      rw [← whole] at follows
      obtain ⟨mid, follows', -⟩ := Program.follows_append.mp follows
      exact congrArg (·.1.1) (until'.entriesRun.run_eq follows')
  · intro other
    rcases entriesRun.allHandled_or_until with ⟨ended, -⟩ | ⟨stop, ended, until'⟩
    · exact .inl ended
    · rcases until'.getLast?_of_error with
        ⟨_, e, _, -, -, -, rfl⟩ | rfl | ⟨address, size, v, error, rfl, -⟩
      · exact .inr ⟨_, ended⟩
      · exact absurd ended other
      · exact .inr ⟨_, ended⟩
  · rintro b goal start rfl
    exact aligned_ne fun e mem large => dvd_address_of_mem_fill mem large

/-- An entry for a 2MiB block that has only its first page in memory. -/
def overhangingEntry : Entry := .ofPage ⟨0xffffffffff000, by decide⟩ .large .shared

/-- That page passes, and there is no second one.  For a block that begins at a multiple of its
size there always is. -/
theorem faults_iff_onePage :
    (((validateEntries [overhangingEntry] : OnBuffer Unit).play []).run onePage 0 #[]).1.1 =
        .error (.fault .beyondMemory) ∧
      ∀ s, (((validateEntries [shareBlockEntry] : OnBuffer Unit).play []).run onePage s #[]).1.1 ≠
        .error (.fault .beyondMemory) := by
  constructor
  · let page := overhangingEntry.address
    let events : List Event := foundSplit page .unvalidated ++
      [.pvalidate page .small .unvalidated (.ok ())]
    have swept : Swept page .unvalidated 1 [.pvalidate page .small .unvalidated (.ok ())] :=
      .next .none (by rw [Nat.zero_mul, Nat.add_zero])
    have place : page.val = 0xffffffffff000 := Entry.address_ofPage _ _ _
    have runsOut : RunsOut overhangingEntry events := by
      refine .intro (.shared (by decide)) (Entry.size_ofPage _ _ _) ?_ swept ?_
      · rw [place]
        decide
      · rw [place]
        decide
    have until' : HandledUntil [overhangingEntry] events (.fault .beyondMemory) :=
      handledUntil_fault_iff.mpr ⟨[], _, [], [], _, rfl, .nil, runsOut, rfl⟩
    have follows : Program.Follows onePage 0 events 1 := ⟨rfl, rfl, rfl, rfl⟩
    have trace :
        (((validateEntries [overhangingEntry] : OnBuffer Unit).play []).run onePage 0
          #[]).2.2.toList = events :=
      congrArg (fun run => run.2.2.toList) (until'.entriesRun.run_eq follows)
    obtain ⟨reached, -⟩ := faults_iff onePage 0 [overhangingEntry] []
    refine reached.mpr ⟨[], _, [], [], _, rfl, .nil, runsOut, ?_⟩
    rw [trace]
    exact List.prefix_rfl
  · intro s
    obtain ⟨-, -, aligned, -⟩ := faults_iff onePage s [shareBlockEntry] []
    refine aligned ?_
    intro e mem _
    obtain rfl := List.mem_singleton.mp mem
    decide

end Change

end SnpMemory

/-
# `SnpMemory.Proofs.Blame` — who is to blame when a change fails

A change that is not refused fails for one of two reasons: a PVALIDATE call failed, or
an exchange did.  The error says which, and says it unchanged.  The change adds no error
of its own.  In particular it never finds one of its entries invalid, and reports an
invalid entry only if an exchange did so first.

Over the protocol the exchanges do not fail by themselves either.  A change cuts its
entries into requests that the protocol permits (`Event.Permitted`), never empty and
never too long, so whatever goes wrong in an exchange goes wrong at an exit.
-/
import SnpMemory.Proofs.Exits
import SnpMemory.Proofs.FailStop
import SnpMemory.Proofs.Ordering
import SnpMemory.Proofs.ServedRuns

namespace SnpMemory

open Change (Order tryChange)

/-! ## The requests that a change makes -/

namespace Change

/-- An exchange is for as many entries as one request can hold, and for one at least. -/
def Event.Permitted : Event → Prop
  | ⟨.exchange entries, _⟩ => 0 < entries.length ∧ entries.length ≤ maxEntries
  | _ => True

theorem length_of_mem_requests {entries request : List Entry} (mem : request ∈ requests entries) :
    0 < request.length ∧ request.length ≤ maxEntries := by
  induction entries using requests.induct with
  | case1 =>
      rw [requests] at mem
      exact absurd mem List.not_mem_nil
  | case2 e rest ih =>
      rw [requests] at mem
      rcases List.mem_cons.mp mem with rfl | later
      · rw [List.length_take, List.length_cons]
        unfold maxEntries
        omega
      · exact ih later

variable {entries : List Entry} {events : List Event} {result : Except Stop Unit}

theorem InTurn.forall_mem {first second : List Event → Except Stop Unit → Prop}
    (run : InTurn first second events result) {P : Event → Prop}
    (h : ∀ {events result}, first events result → ∀ ev ∈ events, P ev)
    (h' : ∀ {events result}, second events result → ∀ ev ∈ events, P ev) :
    ∀ ev ∈ events, P ev := by
  cases run with
  | stopped run => exact h run
  | through run run' => exact List.forall_mem_append.mpr ⟨h run, h' run'⟩

section

variable {P : Event → Prop}
  (call : ∀ address size v answer, P (.pvalidate address size v answer))
  (split : ∀ address, P (.log (.splitting address)))

include call in
theorem PagesRun.forall_mem {first : PhysAddr} {v : Validation} {ns : List Nat}
    (run : PagesRun first v ns events result) : ∀ ev ∈ events, P ev := by
  induction run with
  | done => exact List.forall_mem_nil _
  | beyond => exact List.forall_mem_nil _
  | failed => exact List.forall_mem_singleton.mpr (call _ _ _ _)
  | next _ _ ih => exact List.forall_mem_cons.mpr ⟨call _ _ _ _, ih⟩

include call split

theorem BlockRun.forall_mem {address : PhysAddr} {v : Validation} {size : PageSize}
    (run : BlockRun address v size events result) : ∀ ev ∈ events, P ev := by
  cases run with
  | whole => exact List.forall_mem_singleton.mpr (call _ _ _ _)
  | failed => exact List.forall_mem_singleton.mpr (call _ _ _ _)
  | split pages =>
      exact List.forall_mem_cons.mpr ⟨call _ _ _ _,
        List.forall_mem_cons.mpr ⟨split _, pages.forall_mem call⟩⟩

theorem EntriesRun.forall_mem (run : EntriesRun entries events result) :
    ∀ ev ∈ events, P ev := by
  induction run with
  | done => exact List.forall_mem_nil _
  | invalid => exact List.forall_mem_nil _
  | stopped _ block => exact block.forall_mem call split
  | next _ block _ ih => exact List.forall_mem_append.mpr ⟨block.forall_mem call split, ih⟩

variable (exchange : ∀ entries answer, 0 < entries.length → entries.length ≤ maxEntries →
  P (.exchange entries answer))

include exchange

theorem BatchRun.forall_mem {assignment : Assignment}
    (run : BatchRun entries assignment events result) : ∀ ev ∈ events, P ev := by
  have handing : ∀ {events : List Event} {result : Except Stop Unit},
      RequestsRun (requests entries) events result → ∀ ev ∈ events, P ev := by
    intro events result run ev mem
    obtain ⟨request, mem', answer, rfl⟩ := run.exchange ev mem
    obtain ⟨nonempty, few⟩ := length_of_mem_requests mem'
    exact exchange request answer nonempty few
  cases assignment with
  | shared => exact InTurn.forall_mem run (fun h => h.forall_mem call split) handing
  | guestOnly => exact InTurn.forall_mem run handing fun h => h.forall_mem call split

theorem RangeRun.forall_mem {goal : Goal} {capacity address : Nat}
    (run : RangeRun goal capacity address events result) : ∀ ev ∈ events, P ev := by
  induction run with
  | done => exact List.forall_mem_nil _
  | limited => exact List.forall_mem_nil _
  | stopped _ _ batch => exact batch.forall_mem call split exchange
  | next _ _ batch _ ih =>
      exact List.forall_mem_append.mpr ⟨batch.forall_mem call split exchange, ih⟩

/-- What holds of PVALIDATE calls, of exchanges of a permitted length and of the lines that a
change logs holds of every event of an order. -/
theorem OrderRun.forall_mem {order : Order} {capacity : Nat}
    (announcement : P (.log (.changing order.pageCount order.start.start order.assignment
      order.useLarge)))
    (run : OrderRun order capacity events result) : ∀ ev ∈ events, P ev := by
  cases run with
  | noRoom => exact List.forall_mem_nil _
  | noRange => exact List.forall_mem_nil _
  | accepted _ _ run =>
      exact List.forall_mem_cons.mpr ⟨announcement, run.forall_mem call split exchange⟩

end

theorem OrderRun.permitted {order : Order} {capacity : Nat}
    (run : OrderRun order capacity events result) : ∀ ev ∈ events, ev.Permitted :=
  run.forall_mem (fun _ _ _ _ => trivial) (fun _ => trivial)
    (fun _ _ nonempty few => ⟨nonempty, few⟩) trivial

end Change

/-! ## The errors of a change -/

/-- A fatal answer is that of a PVALIDATE call or that of an exchange. -/
theorem Change.Event.exists_of_fatal {ev : Change.Event} {stop : Stop}
    (h : ev.fatal? = some stop) :
    (∃ address size v error, stop = .failed (.pvalidate address size v error)) ∨
      ∃ entries, ev = .exchange entries (.error stop) := by
  obtain ⟨call, answer⟩ := ev
  cases call with
  | pvalidate address size v =>
      obtain error | u : Except PvalidateError Unit := answer
      · by_cases split : error = .sizeMismatch ∧ size = .large
        · obtain ⟨rfl, rfl⟩ := split
          cases h
        · cases (fatal?_pvalidate_error split).symm.trans h
          exact .inl ⟨address, size, v, error, rfl⟩
      · cases h
  | exchange entries =>
      obtain stop' | u : Except Stop Unit := answer
      · cases h
        exact .inr ⟨entries, rfl⟩
      · cases h
  | terminate => cases h
  | log line => cases h

namespace Protocol

variable {p : Protocol} {g g' : Ghcb}

/-- An event of the change stands for a part of the run. -/
theorem ServesAll.exists_infix {above : List Change.Event} {events : List Event}
    (served : ServesAll p g above events g') {ev : Change.Event} (mem : ev ∈ above) :
    ∃ before part after, Serves p before ev part after ∧ part <:+: events := by
  induction served with
  | nil => exact absurd mem List.not_mem_nil
  | @cons g mid g' ev' rest part more first _ ih =>
      rcases List.mem_cons.mp mem with rfl | later
      · exact ⟨g, part, mid, first, (List.prefix_append _ _).isInfix⟩
      · obtain ⟨before, part', after, serves, inside⟩ := ih later
        exact ⟨before, part', after, serves, inside.trans (List.suffix_append _ _).isInfix⟩

/-- Over the protocol an order that is not refused fails at a PVALIDATE call or at an exit. -/
theorem pvalidate_or_atExit {order : Order} {buffer buffer' : List Entry} {events : List Event}
    {result : Except Stop Unit} (room : 0 < buffer.length) (within : order.stop ≤ physicalLimit)
    (h : (p.playChange (tryChange order) buffer g).Reaches events (.done ((result, buffer'), g')))
    {stop : Stop} (ended : result = .error stop) :
    (∃ address size v error, stop = .failed (.pvalidate address size v error)) ∨ AtExit stop := by
  obtain ⟨above, ends, served⟩ := reaches_playChange_iff.mp h
  have run := Change.exists_ends_tryChange_iff.mp ⟨buffer', ends⟩
  subst ended
  obtain ⟨ev, mem, fatal⟩ := (run.failStop room within).exists_fatal
  rcases Change.Event.exists_of_fatal fatal with call | ⟨entries, rfl⟩
  · exact .inl call
  · obtain ⟨_, _, _, serves, -⟩ := served.exists_infix mem
    obtain ⟨nonempty, few⟩ := run.permitted _ mem
    cases serves with
    | exchange exchange => exact .inr (exchange.atExit nonempty few)

end Protocol

/-! ## Every order, in every world -/

/-- **Fail-stop.**  Take an order that is not refused, and any world to carry it out in.
The order ends well if and only if no answer is fatal.  A fatal answer is the first of its
kind, nothing happens after it, and the order fails with the error that the answer stands
for.  So an invalid entry is reported only if an exchange has reported one; and when the
exchanges are those of a protocol, whatever the hypervisor does, none has, and no request
is refused for its length. -/
theorem fail_stop (order : Order) {buffer : List Entry} (room : 0 < buffer.length)
    (within : order.stop ≤ physicalLimit) :
    (∀ (σ : Type) (world : Program.World Change.calls σ) (s : σ),
      let run := ((tryChange order).play buffer).run world s #[]
      let result := run.1.1
      let events : List Change.Event := run.2.2.toList
      (result = .ok () ↔ ∀ ev ∈ events, ev.fatal? = none) ∧
      (∀ before (ev : Change.Event) after stop, events = before ++ ev :: after →
        ev.fatal? = some stop →
        (∀ ev' ∈ before, ev'.fatal? = none) ∧ after = [] ∧ result = .error stop) ∧
      ∀ entry, result = .error (.failed (.invalidEntry entry)) →
        ∃ entries,
          Change.Event.exchange entries (.error (.failed (.invalidEntry entry))) ∈ events) ∧
    ∀ (σ : Type) (p : Protocol) (page : Ghcb) (world : Program.World Protocol.calls σ) (s : σ),
      let result := ((p.playChange (tryChange order) buffer page).run world s #[]).1.1.1
      (∀ entry, result ≠ .error (.failed (.invalidEntry entry))) ∧
      result ≠ .error (.failed .noEntries) ∧
      ∀ count, result ≠ .error (.failed (.tooManyEntries count)) := by
  constructor
  · intro σ world s run result events
    obtain ⟨events', reaches, -, trace⟩ :=
      Program.exists_follows_of_run world ((tryChange order).play buffer) s #[]
    have same : events = events' := trace
    have orderRun := Change.exists_ends_tryChange_iff.mp ⟨run.1.2, reaches⟩
    have failStop : Change.FailStop events result := same ▸ orderRun.failStop room within
    refine ⟨failStop.eq_ok_iff, ?_, ?_⟩
    · intro before ev after stop split fatal
      rw [split] at failStop
      obtain ⟨rfl, none, ended⟩ := failStop.eq_of_fatal fatal
      exact ⟨none, rfl, ended⟩
    · intro entry ended
      rw [ended] at failStop
      obtain ⟨ev, mem, fatal⟩ := failStop.exists_fatal
      rcases Change.Event.exists_of_fatal fatal with ⟨_, _, _, _, same⟩ | ⟨entries, rfl⟩
      · cases same
      · exact ⟨entries, mem⟩
  · intro σ p page world s result
    obtain ⟨events, reaches, -, -⟩ :=
      Program.exists_follows_of_run world (p.playChange (tryChange order) buffer page) s #[]
    have never : ∀ stop,
        (∀ address size v error, stop ≠ .failed (.pvalidate address size v error)) →
        ¬ Protocol.AtExit stop → result ≠ .error stop := by
      intro stop other none ended
      rcases Protocol.pvalidate_or_atExit room within reaches ended with ⟨_, _, _, _, same⟩ | atExit
      · exact other _ _ _ _ same
      · exact none atExit
    exact ⟨fun entry => never _ nofun nofun, never _ nofun nofun, fun count => never _ nofun nofun⟩

/-- A world that holds each 2MiB block in 4KiB pages, and lets one of these pages pass. -/
def onePage : Program.World Change.calls Nat
  | .pvalidate _ .large _, n => (.error .sizeMismatch, n)
  | .pvalidate _ .small _, 0 => (.ok (), 1)
  | .pvalidate _ .small _, n + 1 => (.error .notUpdated, n + 1)
  | .exchange _, n => (.ok (), n)
  | .terminate, n => ((), n)
  | .log _, n => ((), n)

/-- The mismatch is not fatal, but the call for the second page of the block is.  The block
is never handed over. -/
theorem fail_stop_onePage :
    let run := ((tryChange Change.shareBlock).play [.zero]).run onePage 0 #[]
    let second : PhysAddr := ⟨0x201000, by decide⟩
    run.1.1 = .error (.failed (.pvalidate second .small .unvalidated .notUpdated)) ∧
      run.2.2.toList.getLast? =
        some (Change.Event.pvalidate second .small .unvalidated (.error .notUpdated)) := by
  intro run second
  let first : PhysAddr := ⟨0x200000, by decide⟩
  let stop : Stop := .failed (.pvalidate second .small .unvalidated .notUpdated)
  let before : List Change.Event :=
    [.log (.changing 512 first .shared true),
      .pvalidate first .large .unvalidated (.error .sizeMismatch), .log (.splitting first),
      .pvalidate first .small .unvalidated (.ok ())]
  let last := Change.Event.pvalidate second .small .unvalidated (.error .notUpdated)
  have place : Change.shareBlockEntry.address = first := by decide
  have size : Change.shareBlockEntry.size = .large := Entry.size_ofPage _ _ _
  have pages : Change.PagesRun first .unvalidated (List.range smallPagesPerLarge)
      (before.drop 3 ++ [last]) (.error stop) := by
    rw [smallPagesPerLarge, List.range_succ_eq_map, List.range_succ_eq_map, List.map_cons]
    exact .next (PhysAddr.ofNat?_eq_some_iff.mpr rfl)
      (.failed .notUpdated (PhysAddr.ofNat?_eq_some_iff.mpr rfl))
  have block : Change.BlockRun Change.shareBlockEntry.address .unvalidated
      Change.shareBlockEntry.size (before.drop 1 ++ [last]) (.error stop) := by
    rw [place, size]
    exact .split pages
  have orderRun : Change.OrderRun Change.shareBlock [Entry.zero].length (before ++ [last])
      (.error stop) :=
    .accepted (by decide) (by decide) (.stopped (by decide) rfl
      (.stopped (.stopped (Entry.assignment?_ofPage _ _ _) block)))
  obtain ⟨buffer', ends⟩ := Change.exists_ends_tryChange_iff.mpr orderRun
  have follows : Program.Follows onePage 0 (before ++ [last]) 1 :=
    ⟨rfl, rfl, rfl, rfl, rfl, rfl⟩
  have trace : run.2.2.toList = before ++ [last] :=
    congrArg (fun run => run.2.2.toList) (Program.run_eq_of_follows ends follows #[])
  have room : 0 < [Entry.zero].length := by decide
  obtain ⟨-, stops, -⟩ := (fail_stop Change.shareBlock room (by decide)).1 Nat onePage 0
  obtain ⟨-, -, result⟩ := stops before last [] stop trace rfl
  exact ⟨result, congrArg List.getLast? trace⟩

/-- A world in which every exchange reports an invalid entry. -/
def mistrusting : Program.World Change.calls Unit
  | .pvalidate .., s => (.ok (), s)
  | .exchange _, s => (.error (.failed (.invalidEntry 0)), s)
  | .terminate, s => ((), s)
  | .log _, s => ((), s)

/-- An order that is not refused can fail with an invalid entry all the same.  The one entry
that it makes is valid, but the exchange says otherwise, and that is passed on unchanged. -/
theorem fail_stop_invalidEntry :
    let run := ((tryChange Change.shareBlock).play [.zero]).run mistrusting () #[]
    0 < [Entry.zero].length ∧ Change.shareBlock.stop ≤ physicalLimit ∧
      Change.shareBlockEntry.assignment? = some .shared ∧
      run.2.2.toList.getLast? = some (Change.Event.exchange [Change.shareBlockEntry]
        (.error (.failed (.invalidEntry 0)))) ∧
      run.1.1 = .error (.failed (.invalidEntry 0)) := by
  intro run
  let stop : Stop := .failed (.invalidEntry 0)
  have asks : Change.shareBlockEntry.assignment? = some .shared := Entry.assignment?_ofPage _ _ _
  have handing : Change.RequestsRun (Change.requests [Change.shareBlockEntry])
      [.exchange [Change.shareBlockEntry] (.error stop)] (.error stop) := by
    rw [Change.requests_of_length_le (by decide)]
    exact .failed stop
  have orderRun : Change.OrderRun Change.shareBlock [Entry.zero].length _ (.error stop) :=
    .accepted (by decide) (by decide) (.stopped (by decide) rfl
      (.through (.next asks (.whole _) .done) handing))
  obtain ⟨buffer', ends⟩ := Change.exists_ends_tryChange_iff.mpr orderRun
  have whole : run = ((.error stop, buffer'), (), _) :=
    Program.run_eq_of_follows ends ⟨rfl, rfl, rfl, rfl⟩ #[]
  refine ⟨by decide, by decide, asks, ?_, congrArg (fun run => run.1.1) whole⟩
  rw [congrArg (fun run => run.2.2.toList) whole]
  rfl

end SnpMemory

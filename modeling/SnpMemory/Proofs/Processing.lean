/-
# `SnpMemory.Proofs.Processing` — what a patient hypervisor gets to process

A hypervisor that plays by the rules does little at an exit.  It moves the position in
the header on, by as much as it likes and at most past the last entry, and processes
the entries on the way, as it reads them from the page (`Exit.Advances`,
`Exit.processed`).  It may stay where it is, and it may stop in the middle of a request
and go on at the next exit.

However it divides its work, the entries that it processes, put together over all exits
of all requests, are the tiling of the range, each entry once and in order, when the
change ends well.  At any point of any run they are a first part of it
(`processed_of_reaches`).

The invariant of a request is that its entries are on the page, behind a header that
points to one of them or past the last (`InWork`).  An exit keeps it, and takes the
entries between two positions away from the front of what is left.
-/
import SnpMemory.Proofs.Blame
import SnpMemory.Proofs.Coverage

namespace SnpMemory

open Change (Order tryChange exchanged)

namespace Ghcb

/-! ## Reads of a request -/

/-- The fields of an exit lie outside the shared buffer. -/
theorem readWord_prepareExit {g : Ghcb} {address offset width : Nat} (low : 0x800 ≤ offset)
    (high : offset + width ≤ 0xff0) :
    (g.prepareExit address).readWord offset width = g.readWord offset width := by
  have apart : ∀ {f : Field}, f.offset + f.width ≤ 0x800 ∨ 0xff0 ≤ f.offset → ∀ (g : Ghcb) n,
      (g.write f n).readWord offset width = g.readWord offset width := by
    intro f outside g n
    exact readWord_writeWord_of_disjoint (by omega)
  unfold prepareExit
  rw [apart (by decide), apart (by decide), apart (by decide), apart (by decide),
    apart (by decide), apart (by decide)]

theorem cursor_prepareExit (g : Ghcb) (address : Nat) :
    (g.prepareExit address).cursor = g.cursor := by
  unfold cursor
  rw [readWord_prepareExit (by decide) (by decide), readWord_prepareExit (by decide) (by decide)]

/-- The hypervisor finds no information from the guest, and reports none unless it writes. -/
theorem exitInfo_prepareExit (g : Ghcb) (address : Nat) :
    (g.prepareExit address).read .exitInfo1 = 0 ∧ (g.prepareExit address).read .exitInfo2 = 0 := by
  unfold prepareExit
  constructor
  · rw [read_write_of_ne _ _ (by decide), read_write_of_ne _ _ (by decide),
      read_write_of_ne _ _ (by decide), read_write_of_ne _ _ (by decide), read_write]
    exact Nat.zero_mod _
  · rw [read_write_of_ne _ _ (by decide), read_write_of_ne _ _ (by decide),
      read_write_of_ne _ _ (by decide), read_write]
    exact Nat.zero_mod _

/-- The position lies in the shared buffer. -/
theorem read_writeWord_cursor {g : Ghcb} {f : Field} (other : f ≠ .sharedBuffer) (position : Nat) :
    (g.writeWord cursorOffset 2 position).read f = g.read f := by
  have apart := Field.disjoint other
  have size : 2 ≤ Field.sharedBuffer.width := by decide
  refine readWord_writeWord_of_disjoint ?_
  unfold cursorOffset
  omega

/-- What lies in the place of an entry is that entry. -/
theorem entryAt_writeBytes_entries (g : Ghcb) {front back : List Entry} {e : Entry}
    (few : (front ++ e :: back).length ≤ Change.maxEntries) :
    (g.writeBytes entriesOffset (entryBytes (front ++ e :: back))).entryAt front.length = e := by
  have place : entriesOffset + (entryBytes front).length =
      entriesOffset + entrySize * front.length := by
    rw [length_entryBytes, entrySize]
  have onPage : entriesOffset + entrySize * front.length + entrySize ≤ pageSize := by
    rw [List.length_append, List.length_cons] at few
    simp only [entriesOffset, cursorOffset, Field.offset, headerSize, entrySize, pageSize,
      Change.maxEntries] at few ⊢
    omega
  have parts : g.writeBytes entriesOffset (entryBytes (front ++ e :: back)) =
      ((g.writeBytes entriesOffset (entryBytes front)).writeWord
        (entriesOffset + entrySize * front.length) entrySize e.raw.toNat).writeBytes
          (entriesOffset + entrySize * front.length + entrySize) (entryBytes back) := by
    have bytes : entryBytes (front ++ e :: back) =
        entryBytes front ++ (LittleEndian.encode entrySize e.raw.toNat ++ entryBytes back) := by
      rw [entryBytes, List.flatMap_append, List.flatMap_cons]
      rfl
    rw [bytes, writeBytes_append, writeBytes_append, place, LittleEndian.length_encode]
    rfl
  rw [entryAt, parts, readWord, readBytes_writeBytes_of_disjoint (.inl (Nat.le_refl _)), ← readWord,
    readWord_writeWord onPage]
  have whole : e.raw.toNat % LittleEndian.range entrySize = e.raw.toNat :=
    Nat.mod_eq_of_lt e.raw.toNat_lt
  rw [whole, UInt64.ofNat_toNat]

end Ghcb

namespace Protocol

variable {p : Protocol} {entries : List Entry} {g g' : Ghcb} {events : List Event}

/-! ## Playing by the rules -/

/-- The hypervisor has moved the position on, at most past the last entry, and has left the
page alone otherwise. -/
def Exit.Advances (e : Exit) : Prop :=
  ∃ steps, e.left = e.shown.writeWord Ghcb.cursorOffset 2
    (min (e.shown.cursor.current + steps) (e.shown.cursor.last + 1))

/-- The entries that the hypervisor has processed at an exit, as it reads them from the page:
those from the old position on, up to the new one. -/
def Exit.processed (e : Exit) : List Entry :=
  (List.range' e.shown.cursor.current (e.left.cursor.current - e.shown.cursor.current)).map
    e.shown.entryAt

/-- The entries that are processed at the exits of a run, in order. -/
def processed (events : List Event) : List Entry := (exits events).flatMap Exit.processed

@[simp] theorem processed_nil : processed [] = [] := rfl

@[simp] theorem processed_append (events more : List Event) :
    processed (events ++ more) = processed events ++ processed more := by
  rw [processed, exits_append, List.flatMap_append]
  rfl

@[simp] theorem processed_exit (gpa : Frame .small) (page back : Ghcb) :
    processed (.exit gpa page back :: events) =
      Exit.processed ⟨gpa, page, back⟩ ++ processed events := rfl

/-! ## The page while a request is in work -/

/-- The entries are on the page, and the position in the header is that of one of them, or
past the last. -/
structure InWork (entries : List Entry) (g : Ghcb) : Prop where
  few : entries.length ≤ Change.maxEntries
  last_eq : g.cursor.last + 1 = entries.length
  current_le : g.cursor.current ≤ entries.length
  entryAt_eq : ∀ j (h : j < entries.length), g.entryAt j = entries[j]

theorem inWork_placed (nonempty : 0 < entries.length) (few : entries.length ≤ Change.maxEntries) :
    InWork entries (placed entries) where
  few := few
  last_eq := by
    rw [cursor_placed few]
    exact Nat.sub_add_cancel nonempty
  current_le := by
    rw [cursor_placed few]
    exact Nat.zero_le _
  entryAt_eq := by
    intro j within
    have split : entries = entries.take j ++ entries[j] :: entries.drop (j + 1) := by
      rw [← List.drop_eq_getElem_cons within, List.take_append_drop]
    have place : (entries.take j).length = j := List.length_take_of_le (Nat.le_of_lt within)
    have here := Ghcb.entryAt_writeBytes_entries (Ghcb.zero.putHeader ⟨0, entries.length - 1⟩)
      (split ▸ few)
    rw [place, ← split] at here
    exact here

/-- An exit is prepared outside the request. -/
theorem InWork.prepareExit (work : InWork entries g) (address : Nat) :
    InWork entries (g.prepareExit address) := by
  have few := work.few
  refine ⟨few, ?_, ?_, fun j within => ?_⟩
  · rw [Ghcb.cursor_prepareExit]
    exact work.last_eq
  · rw [Ghcb.cursor_prepareExit]
    exact work.current_le
  · rw [← work.entryAt_eq j within, Ghcb.entryAt, Ghcb.readWord_prepareExit]
    · rfl
    · exact Nat.le_trans (by decide) (Nat.le_add_right _ _)
    · simp only [Ghcb.entriesOffset, Ghcb.cursorOffset, Ghcb.Field.offset, Ghcb.headerSize,
        Ghcb.entrySize, Change.maxEntries] at few ⊢
      omega

/-- The position is the first word of the header, and nothing else is written with it. -/
theorem InWork.advance (work : InWork entries g) {position : Nat}
    (within : position ≤ entries.length) :
    InWork entries (g.writeWord Ghcb.cursorOffset 2 position) ∧
      (g.writeWord Ghcb.cursorOffset 2 position).cursor.current = position := by
  have few := work.few
  have current : (g.writeWord Ghcb.cursorOffset 2 position).cursor.current = position := by
    show (g.writeWord Ghcb.cursorOffset 2 position).readWord Ghcb.cursorOffset 2 = position
    rw [Ghcb.readWord_writeWord (by decide)]
    exact Nat.mod_eq_of_lt (Nat.lt_of_le_of_lt (Nat.le_trans within few) (by decide))
  refine ⟨⟨few, ?_, ?_, fun j h => ?_⟩, current⟩
  · show (g.writeWord Ghcb.cursorOffset 2 position).readWord (Ghcb.cursorOffset + 2) 2 + 1 = _
    rw [Ghcb.readWord_writeWord_of_disjoint (by decide)]
    exact work.last_eq
  · rw [current]
    exact within
  · rw [← work.entryAt_eq j h, Ghcb.entryAt, Ghcb.readWord_writeWord_of_disjoint]
    · rfl
    · exact .inr (Nat.le_trans (by decide) (Nat.le_add_right _ _))

/-- The entries between two positions are read as they were written. -/
theorem InWork.map_entryAt (work : InWork entries g) {first count : Nat}
    (within : first + count ≤ entries.length) :
    (List.range' first count).map g.entryAt = (entries.drop first).take count := by
  apply List.ext_getElem
  · simp only [List.length_map, List.length_range', List.length_take, List.length_drop]
    omega
  · intro i h _
    simp only [List.length_map, List.length_range'] at h
    simp only [List.getElem_map, List.getElem_range', List.getElem_take, List.getElem_drop,
      Nat.one_mul]
    exact work.entryAt_eq (first + i) (by omega)

/-- One exit: what is processed comes off the front of what was left, and the request stays
in work. -/
theorem InWork.exit (work : InWork entries g) {gpa : Frame .small} {address : Nat} {back : Ghcb}
    (advances : Exit.Advances ⟨gpa, g.prepareExit address, back⟩) :
    InWork entries back ∧
      Exit.processed ⟨gpa, g.prepareExit address, back⟩ ++ entries.drop back.cursor.current =
        entries.drop g.cursor.current := by
  have shown := work.prepareExit address
  obtain ⟨steps, left⟩ := advances
  simp only [Ghcb.cursor_prepareExit, work.last_eq] at left
  have low := work.current_le
  obtain ⟨work', moved⟩ := shown.advance (Nat.min_le_right (g.cursor.current + steps) _)
  rw [← left] at work' moved
  refine ⟨work', ?_⟩
  have between : g.cursor.current + (back.cursor.current - g.cursor.current) =
      back.cursor.current := by omega
  have taken : Exit.processed ⟨gpa, g.prepareExit address, back⟩ =
      (entries.drop g.cursor.current).take (back.cursor.current - g.cursor.current) := by
    rw [Exit.processed, Ghcb.cursor_prepareExit]
    refine shown.map_entryAt ?_
    rw [between]
    exact work'.current_le
  have left' : entries.drop back.cursor.current =
      (entries.drop g.cursor.current).drop (back.cursor.current - g.cursor.current) := by
    rw [List.drop_drop, between]
  rw [taken, left', List.take_append_drop]

/-- All exits of a request, from a position on.  The induction is on the exits; the request
stays in work from one to the next. -/
theorem ExitsRun.processed {room n : Nat} {result : Except Stop Nat}
    (run : ExitsRun p (entries.length - 1) room n g events result g') (work : InWork entries g)
    (rules : ∀ e ∈ exits events, e.Advances) :
    (Protocol.processed events ++ entries.drop g'.cursor.current =
      entries.drop g.cursor.current) ∧
    ∀ count, result = .ok count → entries.length ≤ g'.cursor.current := by
  induction run with
  | overflow =>
      obtain ⟨-, taken⟩ := work.exit (List.forall_mem_singleton.mp rules)
      refine ⟨?_, fun count ended => by cases ended⟩
      rw [processed_exit, processed_nil, List.append_nil, taken]
  | done judged =>
      obtain ⟨-, taken⟩ := work.exit (List.forall_mem_singleton.mp rules)
      refine ⟨?_, fun count _ => ?_⟩
      · rw [processed_exit, processed_nil, List.append_nil, taken]
      · exact Nat.le_of_pred_lt (lt_of_verdict_eq_ok judged)
  | failed =>
      obtain ⟨-, taken⟩ := work.exit (List.forall_mem_singleton.mp rules)
      refine ⟨?_, fun count ended => by cases ended⟩
      rw [processed_exit, processed_nil, List.append_nil, taken]
  | again _ _ ih =>
      obtain ⟨rule, rules⟩ := List.forall_mem_cons.mp rules
      obtain ⟨work', taken⟩ := work.exit rule
      obtain ⟨later, ended⟩ := ih work' rules
      refine ⟨?_, ended⟩
      rw [processed_exit, List.append_assoc, later, taken]

theorem ExchangeRun.processed {result : Except Stop Unit}
    (run : ExchangeRun p entries g events result g') (nonempty : 0 < entries.length)
    (few : entries.length ≤ Change.maxEntries) (rules : ∀ e ∈ exits events, e.Advances) :
    Protocol.processed events <+: entries ∧
      (result = .ok () → Protocol.processed events = entries) := by
  obtain ⟨during, outcome, exitsRun, same, rfl⟩ := run.exists_exitsRun nonempty few
  have work := inWork_placed nonempty few
  obtain ⟨taken, ended⟩ := exitsRun.processed work (same ▸ rules)
  have all : Protocol.processed events ++ entries.drop g'.cursor.current = entries := by
    rw [cursor_placed few] at taken
    rw [Protocol.processed, same]
    exact taken
  refine ⟨⟨_, all⟩, fun ok => ?_⟩
  cases outcome with
  | error stop => cases ok
  | ok count =>
      rw [List.drop_eq_nil_of_le (ended count rfl), List.append_nil] at all
      exact all

/-! ## Over a whole run -/

/-- The entries of an exchange are processed, up to the point where it fails. -/
theorem Serves.processed {ev : Change.Event} (serves : Serves p g ev events g')
    (permitted : ev.Permitted) (rules : ∀ e ∈ exits events, e.Advances) :
    Protocol.processed events <+: ev.entries ∧
      (ev.fatal? = none → Protocol.processed events = ev.entries) := by
  cases serves with
  | pvalidate => exact ⟨List.nil_prefix, fun _ => rfl⟩
  | terminate => exact ⟨List.nil_prefix, fun _ => rfl⟩
  | log => exact ⟨List.nil_prefix, fun _ => rfl⟩
  | @exchange _ answer _ _ run =>
      obtain ⟨nonempty, few⟩ := permitted
      obtain ⟨front, all⟩ := run.processed nonempty few rules
      refine ⟨front, fun fine => all ?_⟩
      cases answer with
      | ok u => rfl
      | error stop => cases fine

theorem ServesAll.processed_eq {above : List Change.Event} (served : ServesAll p g above events g')
    (permitted : ∀ ev ∈ above, ev.Permitted) (fine : ∀ ev ∈ above, ev.fatal? = none)
    (rules : ∀ e ∈ exits events, e.Advances) : processed events = exchanged above := by
  induction served with
  | nil => rfl
  | @cons _ _ _ ev rest events more serves _ ih =>
      rw [exits_append] at rules
      obtain ⟨rules, rules'⟩ := List.forall_mem_append.mp rules
      obtain ⟨permitted, permitted'⟩ := List.forall_mem_cons.mp permitted
      obtain ⟨fine, fine'⟩ := List.forall_mem_cons.mp fine
      obtain ⟨-, first⟩ := serves.processed permitted rules
      calc processed (events ++ more)
          = processed events ++ processed more := processed_append _ _
        _ = ev.entries ++ exchanged rest := by rw [first fine, ih permitted' fine' rules']
        _ = exchanged (ev :: rest) := rfl

/-- Only the last exchange of a run can be left unfinished. -/
theorem ServesAll.processed_isPrefix {above : List Change.Event} {result : Except Stop Unit}
    (served : ServesAll p g above events g') (permitted : ∀ ev ∈ above, ev.Permitted)
    (failStop : Change.FailStop above result) (rules : ∀ e ∈ exits events, e.Advances) :
    processed events <+: exchanged above := by
  cases failStop with
  | ended fine =>
      have all := served.processed_eq permitted fine rules
      exact ⟨[], (List.append_nil _).trans all⟩
  | stopped fine =>
      obtain ⟨first, mid, last, before, final, rfl⟩ := served.exists_append
      rw [exits_append] at rules
      obtain ⟨rules, rules'⟩ := List.forall_mem_append.mp rules
      obtain ⟨permitted, permitted'⟩ := List.forall_mem_append.mp permitted
      have all := before.processed_eq permitted fine rules
      cases final with
      | cons serves rest =>
          cases rest
          rw [List.append_nil] at rules' ⊢
          obtain ⟨front, -⟩ := serves.processed (List.forall_mem_singleton.mp permitted') rules'
          rw [processed_append, all, Change.exchanged_append]
          refine (List.prefix_append_right_inj _).mpr ?_
          rw [exchanged, List.flatMap_cons, List.flatMap_nil, List.append_nil]
          exact front

/-- If the event is an exit, the hypervisor has played by the rules. -/
def Event.ByRules (ev : Event) : Prop := ∀ e, Event.exit? ev = some e → e.Advances

theorem forall_mem_exits_iff :
    (∀ e ∈ exits events, e.Advances) ↔ ∀ ev ∈ events, Event.ByRules ev := by
  unfold exits
  simp only [List.mem_filterMap]
  constructor
  · intro h ev mem e same
    exact h e ⟨ev, mem, same⟩
  · rintro h e ⟨ev, mem, same⟩
    exact h ev mem e same

/-- Whatever is asked of it, a hypervisor can answer by the rules: it may stay where it is. -/
theorem exists_byRules (call : calls.Request) :
    ∃ answer : calls.Answer call, Event.ByRules ⟨call, answer⟩ := by
  cases call with
  | pvalidate => exact ⟨.ok (), fun e same => by cases same⟩
  | maskInterrupts => exact ⟨(), fun e same => by cases same⟩
  | unmaskInterrupts => exact ⟨(), fun e same => by cases same⟩
  | terminate => exact ⟨(), fun e same => by cases same⟩
  | log => exact ⟨(), fun e same => by cases same⟩
  | exit gpa page =>
      refine ⟨page.writeWord Ghcb.cursorOffset 2 (min (page.cursor.current + 0)
        (page.cursor.last + 1)), fun e same => ?_⟩
      cases same
      exact ⟨0, rfl⟩

theorem processed_of_ends {order : Order} {buffer buffer' : List Entry}
    {result : Except Stop Unit}
    (ends : (p.playChange (tryChange order) buffer g).Reaches events
      (.done ((result, buffer'), g')))
    (rules : ∀ e ∈ exits events, e.Advances) :
    processed events <+: order.goal.tiling order.start.start.val ∧
      (result = .ok () → order.stop ≤ physicalLimit ∧
        processed events = order.goal.tiling order.start.start.val) := by
  obtain ⟨above, ends, served⟩ := reaches_playChange_iff.mp ends
  have run := Change.exists_ends_tryChange_iff.mp ⟨buffer', ends⟩
  have permitted := run.permitted
  have handed := run.exchanged_isPrefix
  have failStop : 0 < buffer.length → order.stop ≤ physicalLimit → Change.FailStop above result :=
    run.failStop
  have all : result = .ok () → exchanged above = order.goal.tiling order.start.start.val := by
    rintro rfl
    exact run.exchanged_eq
  cases run with
  | noRoom =>
      cases served
      exact ⟨List.nil_prefix, fun ok => by cases ok⟩
  | noRange =>
      cases served
      exact ⟨List.nil_prefix, fun ok => by cases ok⟩
  | accepted room within =>
      have stops := failStop room within
      refine ⟨(served.processed_isPrefix permitted stops rules).trans handed,
        fun ok => ⟨within, ?_⟩⟩
      rw [served.processed_eq permitted (stops.eq_ok_iff.mp ok) rules, all ok]

/-- **End to end.**  Run an order over the protocol, with any buffer, any page and any
answers to PVALIDATE, against a hypervisor that plays by the rules.  At every point of the
run the entries that were processed are the first ones of the tiling of the range; and
when the run ends well, they are all of it, each entry once and in order. -/
theorem processed_of_reaches (p : Protocol) (order : Order) (buffer : List Entry) (page : Ghcb)
    {events : List Event} {q : Program calls ((Except Stop Unit × List Entry) × Ghcb)}
    (run : (p.playChange (tryChange order) buffer page).Reaches events q)
    (rules : ∀ e ∈ exits events, e.Advances) :
    let tiles := order.goal.tiling order.start.start.val
    (order.stop ≤ physicalLimit → order.goal.Tiles order.start.start.val tiles) ∧
    processed events <+: tiles ∧
    ∀ buffer' page', q = .done ((.ok (), buffer'), page') →
      order.stop ≤ physicalLimit ∧ processed events = tiles := by
  intro tiles
  refine ⟨Order.tiles, ?_, ?_⟩
  · -- the run is gone on with to an end, by the rules, and the point is cut off again
    obtain ⟨after, a, later, ends⟩ := run.exists_end_of_allowed exists_byRules
    have rules' : ∀ e ∈ exits (events ++ after), e.Advances := by
      rw [exits_append]
      exact List.forall_mem_append.mpr ⟨rules, forall_mem_exits_iff.mpr later⟩
    obtain ⟨whole, -⟩ := processed_of_ends ends rules'
    rw [processed_append] at whole
    exact (List.prefix_append _ _).trans whole
  · intro buffer' page' ended
    subst ended
    exact (processed_of_ends run rules).2 rfl

/-! ## A hypervisor that goes step by step

It moves the position by one at each exit, and is never stopped if the exits are not
limited.  So the rules can be followed to the end of every run in which no PVALIDATE
call fails. -/

/-- The page that is left when the position is moved on by one. -/
def stepped (p : Protocol) (g : Ghcb) : Ghcb :=
  (g.prepareExit p.scratch).writeWord Ghcb.cursorOffset 2 (g.cursor.current + 1)

theorem read_stepped {f : Ghcb.Field} (other : f ≠ .sharedBuffer) :
    (stepped p g).read f = (g.prepareExit p.scratch).read f :=
  Ghcb.read_writeWord_cursor other _

theorem verdict_stepped {n : Nat} (work : InWork entries g)
    (more : g.cursor.current + 1 ≤ entries.length) :
    InWork entries (stepped p g) ∧ (stepped p g).cursor.current = g.cursor.current + 1 ∧
      verdict none (entries.length - 1) g.cursor.current n (stepped p g) =
        if g.cursor.current + 1 = entries.length then some (.ok ()) else none := by
  obtain ⟨work', moved⟩ := (work.prepareExit p.scratch).advance more
  change InWork entries (stepped p g) at work'
  change (stepped p g).cursor.current = _ at moved
  obtain ⟨info1, info2⟩ := Ghcb.exitInfo_prepareExit g p.scratch
  rw [← read_stepped (by decide)] at info1 info2
  have last : (stepped p g).cursor.last = entries.length - 1 := by
    have := work'.last_eq
    omega
  refine ⟨work', moved, ?_⟩
  unfold verdict
  rw [info1, info2, last, moved, if_neg (by decide), if_neg (by decide), if_neg (by omega)]
  by_cases all : g.cursor.current + 1 = entries.length
  · rw [if_pos (by omega), if_pos all]
  · rw [if_neg (by omega), if_neg all]
    rfl

theorem advances_stepped (work : InWork entries g)
    (more : g.cursor.current + 1 ≤ entries.length) :
    Exit.Advances ⟨p.gpa, g.prepareExit p.scratch, stepped p g⟩ := by
  refine ⟨1, ?_⟩
  rw [Ghcb.cursor_prepareExit, work.last_eq, Nat.min_eq_left more]
  rfl

/-- The induction is on how many entries are left after the next one. -/
theorem exists_exitsRun {left room n : Nat} (noLimit : p.exitLimit = none)
    (work : InWork entries g) (total : g.cursor.current + 1 + left = entries.length)
    (enough : left < room) :
    ∃ events count g', ExitsRun p (entries.length - 1) room n g events (.ok count) g' ∧
      ∀ e ∈ exits events, e.Advances := by
  obtain ⟨room, rfl⟩ := Nat.exists_eq_succ_of_ne_zero (Nat.ne_zero_of_lt enough)
  induction left generalizing g room n with
  | zero =>
      have rule := advances_stepped (p := p) work (by omega)
      obtain ⟨-, -, judged⟩ := verdict_stepped (p := p) (n := n + 1) work (by omega)
      rw [if_pos total, ← noLimit] at judged
      exact ⟨_, _, _, .done judged, List.forall_mem_singleton.mpr rule⟩
  | succ left ih =>
      have rule := advances_stepped (p := p) work (by omega)
      obtain ⟨work', moved, judged⟩ := verdict_stepped (p := p) (n := n + 1) work (by omega)
      rw [if_neg (by omega), ← noLimit] at judged
      obtain ⟨room, rfl⟩ := Nat.exists_eq_succ_of_ne_zero (n := room) (by omega)
      obtain ⟨events, count, g', run, rules⟩ :=
        ih (n := n + 1) work' (by omega) room (by omega)
      exact ⟨_, count, g', .again judged run, List.forall_mem_cons.mpr ⟨rule, rules⟩⟩

theorem exists_exchangeRun (noLimit : p.exitLimit = none) (nonempty : 0 < entries.length)
    (few : entries.length ≤ Change.maxEntries) (range : entries.length < p.counterRange) :
    ∃ events g', ExchangeRun p entries g events (.ok ()) g' ∧ ∀ e ∈ exits events, e.Advances := by
  have total : (placed entries).cursor.current + 1 + (entries.length - 1) = entries.length := by
    rw [cursor_placed few]
    exact Nat.add_sub_cancel' nonempty
  obtain ⟨during, count, g', run, rules⟩ := exists_exitsRun (n := 0) noLimit
    (inWork_placed nonempty few) total (Nat.sub_lt_sub_right nonempty range)
  refine ⟨_, g', .done (.done ((ends_request_iff nonempty few).mpr run)), ?_⟩
  rw [exits_append, exits_bracket, exits_log, exits_nil, List.append_nil]
  exact rules

/-- Every run of a change without a fatal answer can be had over the protocol. -/
theorem exists_servesAll (noLimit : p.exitLimit = none) (range : Change.maxEntries < p.counterRange)
    {above : List Change.Event} (permitted : ∀ ev ∈ above, ev.Permitted)
    (fine : ∀ ev ∈ above, ev.fatal? = none) (g : Ghcb) :
    ∃ events g', ServesAll p g above events g' ∧ ∀ e ∈ exits events, e.Advances := by
  induction above generalizing g with
  | nil => exact ⟨[], g, .nil g, List.forall_mem_nil _⟩
  | cons ev rest ih =>
      obtain ⟨permitted, permitted'⟩ := List.forall_mem_cons.mp permitted
      obtain ⟨fine, fine'⟩ := List.forall_mem_cons.mp fine
      obtain ⟨served, mid, serves, rules⟩ : ∃ served mid, Serves p g ev served mid ∧
          ∀ e ∈ exits served, e.Advances := by
        obtain ⟨call, answer⟩ := ev
        cases call with
        | pvalidate address size v =>
            exact ⟨_, g, .pvalidate address size v answer, List.forall_mem_nil _⟩
        | terminate => exact ⟨_, g, .terminate, List.forall_mem_nil _⟩
        | log line => exact ⟨_, g, .log line, List.forall_mem_nil _⟩
        | exchange entries =>
            obtain ⟨nonempty, few⟩ := permitted
            obtain stop | u : Except Stop Unit := answer
            · cases fine
            · obtain ⟨served, mid, run, rules⟩ :=
                exists_exchangeRun (g := g) noLimit nonempty few (Nat.lt_of_le_of_lt few range)
              exact ⟨served, mid, .exchange run, rules⟩
      obtain ⟨events, g', later, rules'⟩ := ih permitted' fine' mid
      refine ⟨served ++ events, g', .cons serves later, ?_⟩
      rw [exits_append]
      exact List.forall_mem_append.mpr ⟨rules, rules'⟩

/-- An order to lend out three pages. -/
def lendThree : Order where
  start := ⟨⟨0x1000, by decide⟩, by decide⟩
  pageCount := 3
  assignment := .shared
  useLarge := false

/-- Two slots make two requests of it.  The first takes two exits. -/
theorem processed_of_reaches_lendThree :
    let p : Protocol := { gpa := ⟨⟨0x8000, by decide⟩, by decide⟩ }
    ∃ events buffer' page',
      (p.playChange (tryChange lendThree) [.zero, .zero] .zero).Reaches events
        (.done ((.ok (), buffer'), page')) ∧
      (∀ e ∈ exits events, e.Advances) ∧
      lendThree.goal.Tiles 0x1000 (processed events) := by
  intro p
  let lent (address : PhysAddr) : Entry := .ofPage address .small .shared
  have asks : ∀ address, (lent address).assignment? = some .shared :=
    fun _ => Entry.assignment?_ofPage _ _ _
  have firstBatch : Change.BatchRun [lent ⟨0x1000, by decide⟩, lent ⟨0x2000, by decide⟩] .shared _
      (.ok ()) :=
    .through (.next (asks _) (.whole _) (.next (asks _) (.whole _) .done)) (.granted _)
  have lastBatch : Change.BatchRun [lent ⟨0x3000, by decide⟩] .shared _ (.ok ()) :=
    .through (.next (asks _) (.whole _) .done) (.granted _)
  have run : Change.OrderRun lendThree [Entry.zero, Entry.zero].length _ (.ok ()) :=
    .accepted (by decide) (by decide) (.next (by decide) rfl firstBatch
      (.next (by decide) rfl lastBatch (.done (Nat.le_refl _))))
  obtain ⟨buffer', ends⟩ := Change.exists_ends_tryChange_iff.mpr run
  have fine := (run.failStop (by decide) (by decide)).eq_ok_iff.mp rfl
  obtain ⟨events, page', served, rules⟩ :=
    exists_servesAll (p := p) rfl (by decide) run.permitted fine .zero
  have reaches := reaches_playChange_iff.mpr ⟨_, ends, served⟩
  obtain ⟨tiles, -, all⟩ := processed_of_reaches p lendThree [.zero, .zero] .zero reaches rules
  obtain ⟨within, same⟩ := all buffer' page' rfl
  exact ⟨events, buffer', page', reaches, rules, same ▸ tiles within⟩

end Protocol

end SnpMemory

/-
# `SnpMemory.Proofs.ExchangeRuns` — the runs of an exchange over the page

An exchange writes a request on the page and gives the page to the hypervisor, again
and again.  The hypervisor may leave any page it likes.  What becomes of the exchange
is settled by the page that an exit leaves, the position that the header had before,
the number of exits so far and the limit on them (`verdict`):

    some (.ok ())        all entries are done
    some (.error e)      the exchange fails with `e`
    none                 there has to be another exit

The program looks at the exit information after an exit and at the header before the
next one, and carries the position and the count from round to round.  The relations
here have a round as one step, from exit to exit:

    ExitsRun      the exits, from a page that was judged to the end
    ExchangeRun   the same between the masking and the unmasking of interrupts

They are what the programs do, in both directions (`ends_request_iff`,
`exchangeRun_of_ends` and `ends_of_exchangeRun`).
-/
import SnpMemory.Ghcb.Fields
import SnpMemory.Protocol
import SnpMemory.Proofs.Ends

namespace SnpMemory

/-! ## The page of a request -/

namespace Ghcb

theorem cursor_putHeader (g : Ghcb) (c : Cursor) :
    (g.putHeader c).cursor = ⟨c.current % 0x10000, c.last % 0x10000⟩ := by
  have parts : g.putHeader c =
      ((g.writeWord cursorOffset 2 c.current).writeWord (cursorOffset + 2) 2 c.last).writeWord
        (cursorOffset + 4) 4 0 := by
    rw [putHeader, writeBytes_append, writeBytes_append]
    simp only [List.length_append, LittleEndian.length_encode]
    rfl
  have current : (g.putHeader c).readWord cursorOffset 2 = c.current % 0x10000 := by
    rw [parts, readWord_writeWord_of_disjoint (by decide),
      readWord_writeWord_of_disjoint (by decide)]
    exact readWord_writeWord (by decide)
  have last : (g.putHeader c).readWord (cursorOffset + 2) 2 = c.last % 0x10000 := by
    rw [parts, readWord_writeWord_of_disjoint (by decide)]
    exact readWord_writeWord (by decide)
  rw [cursor, current, last]

/-- The header lies in the shared buffer. -/
theorem read_putHeader (g : Ghcb) (c : Cursor) {f : Field} (other : f ≠ .sharedBuffer) :
    (g.putHeader c).read f = g.read f := by
  have apart := Field.disjoint other
  have size : headerSize ≤ Field.sharedBuffer.width := by decide
  unfold read readWord putHeader
  rw [readBytes_writeBytes_of_disjoint]
  simp only [List.length_append, LittleEndian.length_encode]
  unfold cursorOffset
  unfold headerSize at size
  omega

theorem length_entryBytes (entries : List Entry) :
    (entryBytes entries).length = 8 * entries.length := by
  induction entries with
  | nil => rfl
  | cons e rest ih =>
      rw [entryBytes, List.flatMap_cons, List.length_append, LittleEndian.length_encode,
        ← entryBytes, ih, List.length_cons, entrySize]
      omega

/-- The entries lie behind the header. -/
theorem cursor_writeBytes_entries (g : Ghcb) (bytes : List UInt8) :
    (g.writeBytes entriesOffset bytes).cursor = g.cursor := by
  unfold cursor readWord
  rw [readBytes_writeBytes_of_disjoint (Or.inl (by decide)),
    readBytes_writeBytes_of_disjoint (Or.inl (by decide))]

end Ghcb

namespace Protocol

/-- The page with a request for the entries, and nothing else on it. -/
def placed (entries : List Entry) : Ghcb :=
  (Ghcb.zero.putHeader ⟨0, entries.length - 1⟩).writeBytes Ghcb.entriesOffset
    (Ghcb.entryBytes entries)

theorem cursor_placed {entries : List Entry} (few : entries.length ≤ Change.maxEntries) :
    (placed entries).cursor = ⟨0, entries.length - 1⟩ := by
  have small : entries.length - 1 < 0x10000 := by
    unfold Change.maxEntries at few
    omega
  rw [placed, Ghcb.cursor_writeBytes_entries, Ghcb.cursor_putHeader]
  exact congrArg (Ghcb.Cursor.mk 0) (Nat.mod_eq_of_lt small)

/-! ## The verdict on an exit -/

/-- What the page left by exit number `exits` means for a request whose last entry has
the position `last`, when the exit before left the header at the position `seen`. -/
def verdict (limit : Option ExitLimit) (last seen exits : Nat) (g : Ghcb) :
    Option (Except ChangeError Unit) :=
  if g.read .exitInfo1 % 0x100000000 ≠ 0 then some (.error (.exitFailed (g.read .exitInfo1)))
  else if g.read .exitInfo2 ≠ 0 then some (.error (.requestRejected (g.read .exitInfo2)))
  else if g.cursor.last ≠ last ∨ g.cursor.current < seen then
    some (.error (.cursorTampered g.cursor.current g.cursor.last))
  else if last < g.cursor.current then some (.ok ())
  else if limit.map ExitLimit.count = some exits then some (.error (.exitLimitExceeded exits))
  else none

/-- The exit went well and left a header that the hypervisor may leave. -/
structure Accepted (last seen : Nat) (g : Ghcb) : Prop where
  exitInfo1 : g.read .exitInfo1 % 0x100000000 = 0
  exitInfo2 : g.read .exitInfo2 = 0
  last_eq : g.cursor.last = last
  seen_le : seen ≤ g.cursor.current

variable {limit : Option ExitLimit} {last seen exits : Nat} {g g' : Ghcb}

theorem accepted_of_verdict
    (h : verdict limit last seen exits g = none ∨ verdict limit last seen exits g = some (.ok ())) :
    Accepted last seen g := by
  unfold verdict at h
  split at h
  · rcases h with h | h <;> cases h
  · next info1 =>
      split at h
      · rcases h with h | h <;> cases h
      · next info2 =>
          split at h
          · rcases h with h | h <;> cases h
          · next header =>
              obtain ⟨same, forward⟩ := not_or.mp header
              exact ⟨Decidable.not_not.mp info1, Decidable.not_not.mp info2,
                Decidable.not_not.mp same, Nat.not_lt.mp forward⟩

theorem lt_of_verdict_eq_ok (h : verdict limit last seen exits g = some (.ok ())) :
    last < g.cursor.current := by
  refine Nat.lt_of_not_le ?_
  intro behind
  unfold verdict at h
  rw [if_neg (Nat.not_lt.mpr behind)] at h
  split at h
  · cases h
  · split at h
    · cases h
    · split at h
      · cases h
      · split at h
        · cases h
        · cases h

/-- What holds of the position and the count when the program decides on another exit. -/
theorem of_progress_eq_unfinished {c : Ghcb.Cursor} {current : Nat}
    (h : progress limit last seen exits c = .unfinished current) :
    current = c.current ∧ ∀ l, limit = some l → exits < l.count := by
  unfold progress at h
  split at h
  · cases h
  · split at h
    · cases h
    · split at h
      · cases h
        exact ⟨rfl, fun l some => by cases some⟩
      · next l =>
          split at h
          · next below =>
              cases h
              refine ⟨rfl, fun l' same => ?_⟩
              cases same
              exact below
          · cases h

/-- The program finds the verdict in two looks, one at each end of its loop. -/
theorem verdict_eq (below : ∀ l, limit = some l → exits < l.count) :
    verdict limit last seen (exits + 1) g =
      match exitError? g with
      | some error => some (.error error)
      | none =>
        match progress limit last seen (exits + 1) g.cursor with
        | .finished => some (.ok ())
        | .refused error => some (.error error)
        | .unfinished _ => none := by
  unfold verdict exitError?
  by_cases info1 : g.read .exitInfo1 % 0x100000000 ≠ 0
  · rw [if_pos info1, if_pos info1]
  · rw [if_neg info1, if_neg info1]
    by_cases info2 : g.read .exitInfo2 ≠ 0
    · rw [if_pos info2, if_pos info2]
    · rw [if_neg info2, if_neg info2]
      unfold progress
      by_cases header : g.cursor.last ≠ last ∨ g.cursor.current < seen
      · simp only [if_pos header]
      · have same : g.cursor.last = last := Decidable.not_not.mp (not_or.mp header).1
        rw [if_neg header, if_neg header, same]
        by_cases passed : last < g.cursor.current
        · rw [if_pos passed, if_pos passed]
        · rw [if_neg passed, if_neg passed]
          cases limit with
          | none => rfl
          | some l =>
              have := below l rfl
              by_cases reached : l.count = exits + 1
              · simp [reached]
              · have further : exits + 1 < l.count := by omega
                simp [reached, further]

/-- Without a verdict the header is looked at, and found unfinished. -/
theorem unfinished_of_verdict_eq_none (below : ∀ l, limit = some l → exits < l.count)
    (h : verdict limit last seen (exits + 1) g = none) :
    progress limit last seen (exits + 1) g.cursor = .unfinished g.cursor.current := by
  rw [verdict_eq below] at h
  cases info : exitError? g with
  | some error =>
      rw [info] at h
      cases h
  | none =>
      rw [info] at h
      cases look : progress limit last seen (exits + 1) g.cursor with
      | finished =>
          rw [look] at h
          cases h
      | refused error =>
          rw [look] at h
          cases h
      | unfinished current =>
          obtain ⟨rfl, -⟩ := of_progress_eq_unfinished look
          rfl

/-! ## The ways an exchange can go -/

/-- The page goes to the hypervisor and comes back. -/
abbrev Event.exit (gpa : Frame .small) (page back : Ghcb) : Event := ⟨.exit gpa page, back⟩

abbrev Event.mask : Event := ⟨.maskInterrupts, ()⟩

abbrev Event.unmask : Event := ⟨.unmaskInterrupts, ()⟩

abbrev Event.log (line : LogLine) : Event := ⟨.log line, ()⟩

/-- Where the hypervisor is told to look for the request. -/
def scratch (p : Protocol) : Nat := p.gpa.start.val + Ghcb.Field.sharedBuffer.offset

/-- Exits of one request, from a page on which the request is not done.  So many exits
have been taken, and the counter can be raised `room` times. -/
inductive ExitsRun (p : Protocol) (last : Nat) :
    (room exits : Nat) → Ghcb → List Event → Except Stop Nat → Ghcb → Prop
  | overflow {exits : Nat} {g : Ghcb} (g' : Ghcb) :
      ExitsRun p last 0 exits g [.exit p.gpa (g.prepareExit p.scratch) g']
        (.error (.fault .wordOverflow)) g'
  | done {room exits : Nat} {g g' : Ghcb} :
      verdict p.exitLimit last g.cursor.current (exits + 1) g' = some (.ok ()) →
      ExitsRun p last (room + 1) exits g [.exit p.gpa (g.prepareExit p.scratch) g']
        (.ok (exits + 1)) g'
  | failed {room exits : Nat} {g g' : Ghcb} {error : ChangeError} :
      verdict p.exitLimit last g.cursor.current (exits + 1) g' = some (.error error) →
      ExitsRun p last (room + 1) exits g [.exit p.gpa (g.prepareExit p.scratch) g']
        (.error (.failed error)) g'
  | again {room exits : Nat} {g g' g'' : Ghcb} {events : List Event} {result : Except Stop Nat} :
      verdict p.exitLimit last g.cursor.current (exits + 1) g' = none →
      ExitsRun p last room (exits + 1) g' events result g'' →
      ExitsRun p last (room + 1) exits g
        (.exit p.gpa (g.prepareExit p.scratch) g' :: events) result g''

/-- Interrupts are off while the body runs, and on again unless it ran into a limit. -/
inductive Bracketed {α : Type} (body : List Event → Except Stop α → Ghcb → Prop) :
    List Event → Except Stop α → Ghcb → Prop
  | done {during : List Event} {a : α} {g' : Ghcb} :
      body during (.ok a) g' → Bracketed body (.mask :: (during ++ [.unmask])) (.ok a) g'
  | failed {during : List Event} {stop : Stop} {g' : Ghcb} :
      (∀ limit, stop ≠ .fault limit) → body during (.error stop) g' →
      Bracketed body (.mask :: (during ++ [.unmask])) (.error stop) g'
  | faulted {during : List Event} {limit : Fault} {g' : Ghcb} :
      body during (.error (.fault limit)) g' →
      Bracketed body (.mask :: during) (.error (.fault limit)) g'

/-- A request is carried out without interrupts, and a line is logged if that went well. -/
inductive ExchangeRun (p : Protocol) (entries : List Entry) (g : Ghcb) :
    List Event → Except Stop Unit → Ghcb → Prop
  | done {events : List Event} {exits : Nat} {g' : Ghcb} :
      Bracketed ((p.request entries).Ends g) events (.ok exits) g' →
      ExchangeRun p entries g (events ++ [.log (.exchanged entries.length exits)]) (.ok ()) g'
  | stopped {events : List Event} {stop : Stop} {g' : Ghcb} :
      Bracketed ((p.request entries).Ends g) events (.error stop) g' →
      ExchangeRun p entries g events (.error stop) g'

/-! ## They are the ways of the programs -/

section

variable {p : Protocol} {events : List Event} {result : Except Stop Nat} {room : Nat}

theorem ends_exitOnce_bind {β : Type} {f : Unit → OnPage β} {outcome : Except Stop β} :
    (p.exitOnce p.scratch >>= f).Ends g events outcome g' ↔
      ∃ back rest, (f ()).Ends back rest outcome g' ∧
        events = Event.exit p.gpa (g.prepareExit p.scratch) back :: rest := by
  unfold exitOnce
  simp only [bind_assoc, Guest.ends_update_bind, Guest.ends_look_bind]
  constructor
  · intro h
    obtain ⟨back, rest, h', rfl⟩ := Guest.ends_request_bind.mp h
    exact ⟨back, rest, Guest.ends_put_bind.mp h', rfl⟩
  · rintro ⟨back, rest, h', rfl⟩
    exact Guest.ends_request_bind.mpr ⟨back, rest, Guest.ends_put_bind.mpr h', rfl⟩

theorem ends_exitUntilDone_of_finished {seen : Nat}
    (look : progress p.exitLimit last seen exits g.cursor = .finished) :
    (p.exitUntilDone p.scratch last room seen exits).Ends g events result g' ↔
      events = [] ∧ result = .ok exits ∧ g' = g := by
  rw [exitUntilDone.eq_def]
  simp only [Guest.ends_look_bind, look]
  exact Guest.ends_pure

theorem ends_exitUntilDone_of_refused {seen : Nat} {error : ChangeError}
    (look : progress p.exitLimit last seen exits g.cursor = .refused error) :
    (p.exitUntilDone p.scratch last room seen exits).Ends g events result g' ↔
      events = [] ∧ result = .error (.failed error) ∧ g' = g := by
  rw [exitUntilDone.eq_def]
  simp only [Guest.ends_look_bind, look]
  exact Guest.ends_fail

/-- The exit after which the counter has no next value. -/
theorem ends_exitUntilDone_zero {seen : Nat}
    (unfinished : progress p.exitLimit last seen exits g.cursor = .unfinished g.cursor.current) :
    (p.exitUntilDone p.scratch last 0 seen exits).Ends g events result g' ↔
      events = [Event.exit p.gpa (g.prepareExit p.scratch) g'] ∧
        result = .error (.fault .wordOverflow) := by
  rw [exitUntilDone]
  simp only [Guest.ends_look_bind, unfinished, ends_exitOnce_bind, Guest.ends_fault]
  constructor
  · rintro ⟨back, rest, ⟨rfl, same, rfl⟩, rfl⟩
    exact ⟨rfl, same⟩
  · rintro ⟨rfl, same⟩
    exact ⟨g', [], ⟨rfl, same, rfl⟩, rfl⟩

/-- One round: an exit, and then what the verdict on it says. -/
theorem ends_exitUntilDone_succ {seen : Nat}
    (unfinished : progress p.exitLimit last seen exits g.cursor = .unfinished g.cursor.current) :
    (p.exitUntilDone p.scratch last (room + 1) seen exits).Ends g events result g' ↔
      ∃ back rest, events = Event.exit p.gpa (g.prepareExit p.scratch) back :: rest ∧
        ((verdict p.exitLimit last g.cursor.current (exits + 1) back = some (.ok ()) ∧
            rest = [] ∧ result = .ok (exits + 1) ∧ g' = back) ∨
          (∃ error, verdict p.exitLimit last g.cursor.current (exits + 1) back =
              some (.error error) ∧ rest = [] ∧ result = .error (.failed error) ∧ g' = back) ∨
          (verdict p.exitLimit last g.cursor.current (exits + 1) back = none ∧
            (p.exitUntilDone p.scratch last room g.cursor.current (exits + 1)).Ends back rest
              result g')) := by
  obtain ⟨-, below⟩ := of_progress_eq_unfinished unfinished
  rw [exitUntilDone]
  simp only [Guest.ends_look_bind, unfinished, ends_exitOnce_bind]
  refine exists_congr fun back => exists_congr fun rest => ?_
  rw [and_comm]
  refine and_congr_right fun _ => ?_
  rw [verdict_eq below]
  cases exitError? back with
  | some error => simp
  | none =>
      cases look : progress p.exitLimit last g.cursor.current (exits + 1) back.cursor with
      | finished => simp [ends_exitUntilDone_of_finished look]
      | refused error => simp [ends_exitUntilDone_of_refused look]
      | unfinished current =>
          obtain ⟨rfl, -⟩ := of_progress_eq_unfinished look
          simp

/-- The induction is on the room of the counter.  A round ends where the program looks at
the header, and the count is below the limit whenever that look leads to another exit. -/
theorem exitsRun_of_ends {seen : Nat}
    (unfinished : progress p.exitLimit last seen exits g.cursor = .unfinished g.cursor.current)
    (ends : (p.exitUntilDone p.scratch last room seen exits).Ends g events result g') :
    ExitsRun p last room exits g events result g' := by
  induction room generalizing seen exits g events with
  | zero =>
      obtain ⟨rfl, rfl⟩ := (ends_exitUntilDone_zero unfinished).mp ends
      exact .overflow g'
  | succ room ih =>
      obtain ⟨back, rest, rfl, ⟨judged, rfl, rfl, rfl⟩ | ⟨error, judged, rfl, rfl, rfl⟩ |
        ⟨judged, ends⟩⟩ := (ends_exitUntilDone_succ unfinished).mp ends
      · exact .done judged
      · exact .failed judged
      · exact .again judged (ih (unfinished_of_verdict_eq_none
          (of_progress_eq_unfinished unfinished).2 judged) ends)

/-- The way back: a round for each step of the relation. -/
theorem ends_of_exitsRun {seen : Nat}
    (unfinished : progress p.exitLimit last seen exits g.cursor = .unfinished g.cursor.current)
    (run : ExitsRun p last room exits g events result g') :
    (p.exitUntilDone p.scratch last room seen exits).Ends g events result g' := by
  induction run generalizing seen with
  | overflow => exact (ends_exitUntilDone_zero unfinished).mpr ⟨rfl, rfl⟩
  | done judged =>
      exact (ends_exitUntilDone_succ unfinished).mpr ⟨_, _, rfl, .inl ⟨judged, rfl, rfl, rfl⟩⟩
  | failed judged =>
      exact (ends_exitUntilDone_succ unfinished).mpr
        ⟨_, _, rfl, .inr (.inl ⟨_, judged, rfl, rfl, rfl⟩)⟩
  | again judged _ ih =>
      have look := unfinished_of_verdict_eq_none (of_progress_eq_unfinished unfinished).2 judged
      exact (ends_exitUntilDone_succ unfinished).mpr ⟨_, _, rfl, .inr (.inr ⟨judged, ih look⟩)⟩

/-- Requests of a permitted length fit in the shared buffer, and what the page held before
is gone. -/
theorem ends_placeRequest_bind {β : Type} {f : Unit → OnPage β} {outcome : Except Stop β}
    {entries : List Entry} (few : entries.length ≤ Change.maxEntries) :
    (placeRequest entries >>= f).Ends g events outcome g' ↔
      (f ()).Ends (placed entries) events outcome g' := by
  have fits : Ghcb.headerSize + Ghcb.entrySize * entries.length ≤
      Ghcb.Field.sharedBuffer.width := by
    simp only [Ghcb.headerSize, Ghcb.entrySize, Ghcb.Field.width, Change.maxEntries] at *
    omega
  unfold placeRequest
  simp only [bind_assoc, Guest.ends_update_bind, Guest.ends_look_bind, Ghcb.putEntries,
    if_pos fits, Guest.ofExcept, pure_bind, Guest.ends_put_bind, Ghcb.reset_eq_zero, placed]

theorem addWord_scratch (p : Protocol) :
    addWord p.gpa.start.val Ghcb.Field.sharedBuffer.offset = .ok p.scratch := by
  have := p.gpa.start.val_lt
  refine addWord_of_lt ?_
  simp only [wordLimit, Ghcb.Field.offset]
  omega

/-- A request of a permitted length is placed on the page, and then it is exits only. -/
theorem ends_request_iff {entries : List Entry} (nonempty : 0 < entries.length)
    (few : entries.length ≤ Change.maxEntries) :
    (p.request entries).Ends g events result g' ↔
      ExitsRun p (entries.length - 1) (p.counterRange - 1) 0 (placed entries) events result g' := by
  have header := cursor_placed few
  have unfinished : progress p.exitLimit (entries.length - 1) 0 0 (placed entries).cursor =
      .unfinished (placed entries).cursor.current := by
    rw [header]
    unfold progress
    cases limit : p.exitLimit with
    | none => simp
    | some l => simp [l.pos]
  simp only [request, if_neg (Nat.ne_of_gt nonempty), if_neg (Nat.not_lt.mpr few),
    ends_placeRequest_bind few, addWord_scratch, Guest.ofExcept, pure_bind]
  exact ⟨exitsRun_of_ends unfinished, ends_of_exitsRun unfinished⟩

theorem bracketed_of_throw {α : Type} {body : OnPage α} {outcome : Except Stop α} {stop : Stop}
    {during last : List Event} {mid : Ghcb} (other : ∀ limit, stop ≠ .fault limit)
    (run : body.Ends g during (.error stop) mid)
    (after : (Guest.ask (I := calls) .unmaskInterrupts >>= fun _ => throw stop : OnPage α).Ends
      mid last outcome g') :
    Bracketed (body.Ends g) (.mask :: (during ++ last)) outcome g' := by
  obtain ⟨answer, rest, thrown, rfl⟩ := Guest.ends_request_bind.mp after
  obtain ⟨rfl, rfl, rfl⟩ := Guest.ends_throw.mp thrown
  exact .failed other run

theorem bracketed_of_ends {α : Type} {body : OnPage α} {outcome : Except Stop α}
    (ends : (withoutInterrupts body).Ends g events outcome g') :
    Bracketed (body.Ends g) events outcome g' := by
  obtain ⟨answer, rest, h, rfl⟩ := Guest.ends_request_bind.mp ends
  rcases Guest.ends_bind.mp h with ⟨stop, h', -⟩ | ⟨caught, during, mid, last, h', after, rfl⟩
  · obtain ⟨outcome', -, same⟩ := Guest.ends_attempt.mp h'
    cases same
  · obtain ⟨outcome', run, same⟩ := Guest.ends_attempt.mp h'
    cases same
    cases caught with
    | ok a =>
        obtain ⟨answer', rest, last, rfl⟩ := Guest.ends_request_bind.mp after
        obtain ⟨rfl, rfl, rfl⟩ := Guest.ends_pure.mp last
        exact .done run
    | error stop =>
        cases stop with
        | fault limit =>
            obtain ⟨rfl, rfl, rfl⟩ := Guest.ends_fault.mp after
            rw [List.append_nil]
            exact .faulted run
        | failed error => exact bracketed_of_throw (fun _ same => by cases same) run after
        | terminated => exact bracketed_of_throw (fun _ same => by cases same) run after

/-- Interrupts are masked, the body runs, and its outcome says what comes then. -/
theorem ends_masked {α : Type} {body : OnPage α} {f : Except Stop α → OnPage α}
    {caught outcome : Except Stop α} {during after : List Event} {mid : Ghcb}
    (inside : body.Ends g during caught mid) (rest : (f caught).Ends mid after outcome g') :
    (Guest.ask (I := calls) .maskInterrupts >>= fun _ => Guest.attempt body >>= f).Ends g
      (Event.mask :: (during ++ after)) outcome g' := by
  refine Guest.ends_request_bind.mpr ⟨(), during ++ after, ?_, rfl⟩
  exact Guest.ends_bind.mpr (.inr ⟨caught, during, mid, after,
    Guest.ends_attempt.mpr ⟨caught, inside, rfl⟩, rest, rfl⟩)

theorem ends_of_bracketed {α : Type} {body : OnPage α} {outcome : Except Stop α}
    (run : Bracketed (body.Ends g) events outcome g') :
    (withoutInterrupts body).Ends g events outcome g' := by
  cases run with
  | done inside =>
      exact ends_masked inside (Guest.ends_request_bind.mpr
        ⟨(), [], Guest.ends_pure.mpr ⟨rfl, rfl, rfl⟩, rfl⟩)
  | @failed _ stop _ other inside =>
      have thrown : (Guest.ask (I := calls) .unmaskInterrupts >>= fun _ => throw stop :
          OnPage α).Ends g' [Event.unmask] (.error stop) g' :=
        Guest.ends_request_bind.mpr ⟨(), [], Guest.ends_throw.mpr ⟨rfl, rfl, rfl⟩, rfl⟩
      cases stop with
      | fault limit => exact absurd rfl (other limit)
      | failed error => exact ends_masked inside thrown
      | terminated => exact ends_masked inside thrown
  | @faulted during limit _ inside =>
      rw [← List.append_nil during]
      exact ends_masked inside (Guest.ends_fault.mpr ⟨rfl, rfl, rfl⟩)

theorem exchangeRun_of_ends {entries : List Entry} {outcome : Except Stop Unit}
    (ends : (p.exchange entries).Ends g events outcome g') :
    ExchangeRun p entries g events outcome g' := by
  rcases Guest.ends_bind.mp ends with ⟨stop, h, rfl⟩ | ⟨exits, first, mid, last, h, h', rfl⟩
  · exact .stopped (bracketed_of_ends h)
  · obtain ⟨answer, rfl, rfl, rfl⟩ := Guest.ends_request.mp h'
    exact .done (bracketed_of_ends h)

theorem ends_of_exchangeRun {entries : List Entry} {outcome : Except Stop Unit}
    (run : ExchangeRun p entries g events outcome g') :
    (p.exchange entries).Ends g events outcome g' := by
  cases run with
  | @done during exits _ bracket =>
      exact Guest.ends_bind.mpr (.inr ⟨exits, during, g', _, ends_of_bracketed bracket,
        Guest.ends_request.mpr ⟨(), rfl, rfl, rfl⟩, rfl⟩)
  | stopped bracket => exact Guest.ends_bind.mpr (.inl ⟨_, ends_of_bracketed bracket, rfl⟩)

end

end Protocol

end SnpMemory

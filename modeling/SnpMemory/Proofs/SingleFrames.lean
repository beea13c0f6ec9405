/-
# `SnpMemory.Proofs.SingleFrames` — one frame, changed alone or as a range

There are two ways to change the pages of one frame.  The one makes an entry for the frame
and exchanges it.  The other takes the frame for a range, with a start and a number of
pages, and walks over it.  They find the size of the entry in different manners: the frame
has one, and the walk compares where it is with what is left of the range.  A frame lies at
a multiple of its size and the range ends with it, so the walk takes it whole, in the first
slot of whatever buffer it is given (`Frame.walk_order`):

    walk room start   =   [entry of the frame],  ended at the next frame

So the range is one batch, with one request in it.  What it does besides the exchange is the
announcement and one PVALIDATE call, before the exchange for a frame that is given away and
after it for a frame that is taken, if there was no error (`withCall`).  Nothing of that is
seen by the hypervisor, who is not asked anything twice and finds the same page at each
exit, in a world that marks what it is asked to mark (`obliging`).
-/
import SnpMemory.Proofs.Brackets
import SnpMemory.Proofs.Marking
import SnpMemory.Proofs.Refilling
import SnpMemory.Proofs.ServedRuns

namespace SnpMemory

open Change (Order)

/-! ## The frame as a range -/

/-- The order to change the pages of a frame and no others: one page, or 512. -/
def Frame.order {size : PageSize} (frame : Frame size) (assignment : Assignment)
    (useLarge : Bool) : Order where
  start := ⟨frame.start, Nat.dvd_trans (Goal.dvd_bytes size) frame.aligned⟩
  pageCount := size.bytes / PageSize.small.bytes
  assignment
  useLarge

/-- The events around an exchange that changes a frame: its pages lose their marks before, or
get them after an exchange that went well. -/
def withCall {α : Type} (call : α) (events : List α) (result : Except Stop Unit) :
    Assignment → List α
  | .shared => call :: events
  | .guestOnly =>
    match result with
    | .ok () => events ++ [call]
    | .error _ => events

namespace Frame

variable {size : PageSize} (frame : Frame size) (assignment : Assignment) {useLarge : Bool}

theorem order_stop : (frame.order assignment useLarge).stop = frame.start.val + size.bytes :=
  congrArg (frame.start.val + ·) (Nat.mul_div_cancel' (Goal.dvd_bytes size))

theorem order_stop_le : (frame.order assignment useLarge).stop ≤ physicalLimit := by
  rw [order_stop]
  exact frame.end_le

/-- The start of a frame lies in front of its end. -/
theorem start_lt_order_stop : frame.start.val < (frame.order assignment useLarge).stop := by
  rw [order_stop]
  exact Nat.lt_add_of_pos_right size.bytes_pos

/-- The walk finds the size that the frame has. -/
theorem sizeAt_order (large : size = .large → useLarge = true) :
    (frame.order assignment useLarge).goal.sizeAt frame.start.val = size := by
  have rest : (frame.order assignment useLarge).stop - frame.start.val = size.bytes := by
    rw [order_stop, Nat.add_sub_cancel_left]
  cases size with
  | small =>
      cases found : (frame.order assignment useLarge).goal.sizeAt frame.start.val with
      | small => rfl
      | large =>
          obtain ⟨-, -, inside⟩ := Goal.sizeAt_eq_large_iff.mp found
          have enough : 0x200000 ≤ PageSize.small.bytes := rest ▸ inside
          exact absurd enough (by decide)
  | large => exact Goal.sizeAt_eq_large_iff.mpr ⟨large rfl, frame.aligned, Nat.le_of_eq rest.symm⟩

/-- With room for an entry, the walk over a frame places the entry of the frame. -/
theorem walk_order (large : size = .large → useLarge = true) {room : Nat} (pos : 0 < room) :
    (frame.order assignment useLarge).goal.walk room frame.start.val =
      ([.ofPage frame.start size assignment], .ok (frame.start.val + size.bytes)) := by
  obtain ⟨room, rfl⟩ := Nat.exists_eq_succ_of_ne_zero (Nat.ne_of_gt pos)
  have found := frame.sizeAt_order assignment large
  have more : frame.start.val < (frame.order assignment useLarge).goal.stop :=
    frame.start_lt_order_stop assignment
  have ended : (frame.order assignment useLarge).goal.stop ≤ frame.start.val + size.bytes :=
    Nat.le_of_eq (frame.order_stop assignment)
  have fits : frame.start.val + size.bytes < wordLimit :=
    Nat.lt_of_le_of_lt frame.end_le (by decide)
  have entry : (frame.order assignment useLarge).goal.entryAt frame.start.val =
      .ofPage frame.start size assignment := by
    unfold Goal.entryAt
    rw [found, PhysAddr.truncate_self]
    rfl
  rw [Goal.walk_of_fits more (by rwa [found]), found, Goal.walk_of_le ended, entry]

end Frame

/-! ## The runs of its order -/

namespace Change

variable {size : PageSize} (frame : Frame size) (assignment : Assignment) (useLarge : Bool)

/-- The exchange of the frame, and the mark that goes with it. -/
def frameEvents (answer : Except Stop Unit) : List Event :=
  withCall (.pvalidate frame.start size assignment.validation (.ok ()))
    [.exchange [.ofPage frame.start size assignment] answer] answer assignment

/-- The page of a frame is marked by one call. -/
theorem EntriesRun.ofFrame :
    EntriesRun [.ofPage frame.start size assignment]
      [.pvalidate frame.start size assignment.validation (.ok ())] (.ok ()) := by
  have address : (Entry.ofPage frame.start size assignment).address = frame.start := by
    refine PhysAddr.ext ?_
    rw [Entry.address_ofPage]
    exact Nat.div_mul_cancel (Nat.dvd_trans (Goal.dvd_bytes size) frame.aligned)
  have run := EntriesRun.next (Entry.assignment?_ofPage frame.start size assignment)
    (.whole (Entry.ofPage frame.start size assignment).size) .done
  rwa [List.append_nil, address, Entry.size_ofPage] at run

/-- One entry is one request. -/
theorem RequestsRun.one (entry : Entry) (answer : Except Stop Unit) :
    RequestsRun (requests [entry]) [.exchange [entry] answer] answer := by
  have few : [entry].length ≤ maxEntries := Nat.succ_le_succ (Nat.zero_le 252)
  rw [requests_of_length_le few]
  obtain stop | ⟨⟩ := answer
  · exact .failed stop
  · exact .next .done

theorem BatchRun.ofFrame (answer : Except Stop Unit) :
    BatchRun [.ofPage frame.start size assignment] assignment
      (frameEvents frame assignment answer) answer := by
  have marks := EntriesRun.ofFrame frame assignment
  have exchanged := RequestsRun.one (.ofPage frame.start size assignment) answer
  cases assignment with
  | shared => exact .through marks exchanged
  | guestOnly =>
      obtain stop | ⟨⟩ := answer
      · exact .stopped exchanged
      · exact .through exchanged marks

/-- The range of a frame is done after one batch. -/
theorem OrderRun.ofFrame (large : size = .large → useLarge = true) {capacity : Nat}
    (room : 0 < capacity) (answer : Except Stop Unit) :
    let order := frame.order assignment useLarge
    OrderRun order capacity
      (.log (.changing order.pageCount frame.start assignment useLarge) ::
        frameEvents frame assignment answer) answer := by
  intro order
  have batch := BatchRun.ofFrame frame assignment answer
  have more : frame.start.val < order.goal.stop := frame.start_lt_order_stop assignment
  have walked := frame.walk_order assignment large room
  have ended : order.goal.stop ≤ frame.start.val + size.bytes :=
    Nat.le_of_eq (frame.order_stop assignment)
  refine .accepted room (frame.order_stop_le assignment) ?_
  obtain stop | ⟨⟩ := answer
  · exact .stopped more walked batch
  · have run := RangeRun.next more walked batch (.done ended)
    rwa [List.append_nil] at run

end Change

/-! ## Both over the protocol -/

namespace Protocol

/-- A world in which every PVALIDATE call succeeds.  Such calls and log lines leave its memory
alone, and everything else is answered as in the world that it is made from. -/
def obliging {σ : Type} (world : Program.World calls σ) : Program.World calls σ
  | .pvalidate .., s => (.ok (), s)
  | .log _, s => ((), s)
  | call, s => world call s

def Event.isPvalidate : Event → Bool
  | ⟨.pvalidate .., _⟩ => true
  | _ => false

/-- The events that are no PVALIDATE calls. -/
def withoutCalls (events : List Event) : List Event :=
  events.filter fun ev => !Event.isPvalidate ev

theorem exits_withoutCalls (events : List Event) : exits (withoutCalls events) = exits events := by
  unfold exits withoutCalls
  rw [List.filterMap_filter]
  refine congrArg (events.filterMap ·) (funext fun ev => ?_)
  obtain ⟨call, answer⟩ := ev
  cases call <;> rfl

variable {p : Protocol} {size : PageSize} (frame : Frame size) (assignment : Assignment)
  {g g' : Ghcb} {events : List Event} {result : Except Stop Unit}

/-- The PVALIDATE call for a frame, when it succeeds. -/
abbrev frameCall : Event := .pvalidate frame.start size assignment.validation (.ok ())

/-- An exchange makes no PVALIDATE calls, and so one around it is all there is. -/
theorem withoutCalls_withCall {entries : List Entry}
    (run : ExchangeRun p entries g events result g') :
    withoutCalls (withCall (frameCall frame assignment) events result assignment) = events := by
  obtain ⟨taken, -, bracket⟩ := run.exists_bracket
  have others : withoutCalls events = events :=
    List.filter_eq_self.mpr (bracket.forall_mem rfl rfl (fun _ _ _ => rfl) fun _ _ => rfl)
  cases assignment with
  | shared => exact others
  | guestOnly =>
      obtain stop | ⟨⟩ := result
      · exact others
      · exact (List.filter_append _ _).trans ((List.append_nil _).trans others)

/-- What the change asks for besides the exchange is passed on. -/
theorem servesAll_frameEvents
    (run : ExchangeRun p [.ofPage frame.start size assignment] g events result g') :
    ServesAll p g (Change.frameEvents frame assignment result)
      (withCall (frameCall frame assignment) events result assignment) g' := by
  have mark (page : Ghcb) : ServesAll p page
      [.pvalidate frame.start size assignment.validation (.ok ())]
      [frameCall frame assignment] page :=
    .cons (.pvalidate _ _ _ _) (.nil page)
  have exchanged := ServesAll.cons (.exchange run) (.nil g')
  rw [List.append_nil] at exchanged
  cases assignment with
  | shared => exact .cons (.pvalidate _ _ _ _) exchanged
  | guestOnly =>
      obtain stop | ⟨⟩ := result
      · exact exchanged
      · exact .cons (.exchange run) (mark g')

variable {σ : Type} {world : Program.World calls σ} {s s' : σ}

/-- The call is answered as it should be, and nobody remembers it. -/
theorem follows_withCall (follows : Program.Follows (obliging world) s events s') :
    Program.Follows (obliging world) s
      (withCall (frameCall frame assignment) events result assignment) s' := by
  cases assignment with
  | shared => exact ⟨rfl, follows⟩
  | guestOnly =>
      obtain stop | ⟨⟩ := result
      · exact follows
      · exact Program.follows_append.mpr ⟨s', follows, rfl, rfl⟩

/-- An exchange in a world, with all that it leaves behind. -/
theorem exists_run_exchange (p : Protocol) (entries : List Entry) (page : Ghcb)
    (world : Program.World calls σ) (s : σ) :
    ∃ events result page' s',
      ((p.exchange entries).play page).run world s #[] = ((result, page'), s', events.toArray) ∧
        ExchangeRun p entries page events result page' ∧ Program.Follows world s events s' := by
  obtain ⟨events, reaches, follows, -⟩ :=
    Program.exists_follows_of_run world ((p.exchange entries).play page) s #[]
  have same := Program.run_eq_of_follows reaches follows #[]
  rw [Array.empty_append] at same
  exact ⟨events, _, _, _, same, exchangeRun_of_ends reaches, follows⟩

/-- What the range of a frame does in a world, if this is what the exchange of the frame does. -/
theorem exists_run_range {useLarge : Bool} (large : size = .large → useLarge = true)
    {buffer : List Entry} (room : 0 < buffer.length)
    (run : ExchangeRun p [.ofPage frame.start size assignment] g events result g')
    (follows : Program.Follows (obliging world) s events s') :
    let order := frame.order assignment useLarge
    let announcement := Event.log (.changing order.pageCount frame.start assignment useLarge)
    ∃ buffer', (p.playChange (Change.tryChange order) buffer g).run (obliging world) s #[] =
      (((result, buffer'), g'), s', (announcement ::
        withCall (frameCall frame assignment) events result assignment).toArray) := by
  intro order announcement
  obtain ⟨buffer', ends⟩ := Change.exists_ends_tryChange_iff.mpr
    (Change.OrderRun.ofFrame frame assignment useLarge large room result)
  have served := ServesAll.cons (.log (.changing order.pageCount frame.start assignment useLarge))
    (servesAll_frameEvents frame assignment run)
  have follows' : Program.Follows (obliging world) s
      (announcement :: withCall (frameCall frame assignment) events result assignment) s' :=
    ⟨rfl, follows_withCall frame assignment follows⟩
  have same := Program.run_eq_of_follows (reaches_playChange_iff.mpr ⟨_, ends, served⟩) follows' #[]
  rw [Array.empty_append] at same
  exact ⟨buffer', same⟩

end Protocol

open Protocol

/-- **A frame is changed like a range.**  Take the frame of any address, for either size and any
assignment, and a world in which PVALIDATE succeeds, whatever the hypervisor does in it.
Change the frame through its own entry, and then, from the same page and the same memory of
the world, as a range of so many pages: with 2MiB entries if it is a large frame, and with
any buffer that is not empty.  The result is the same, and so is the page in the end and the
memory of the world.  The exits are the same, one by one, with what is shown and what is
left.  The range is announced in the log, and there is one PVALIDATE call, for the whole
frame: before the exchange when the frame is shared, after it when it is taken and the
exchange went well.  Everything else that happens is the same. -/
theorem frame_as_range (p : Protocol) {size : PageSize} (address : PhysAddr)
    (assignment : Assignment) {useLarge : Bool} (large : size = .large → useLarge = true)
    {buffer : List Entry} (room : 0 < buffer.length) (page : Ghcb) {σ : Type}
    (world : Program.World calls σ) (s : σ) :
    let frame := Frame.containing size address
    let order := frame.order assignment useLarge
    let single := ((p.changeFrame frame assignment).play page).run (obliging world) s #[]
    let range := (p.playChange (Change.tryChange order) buffer page).run (obliging world) s #[]
    let announcement := Event.log (.changing order.pageCount frame.start assignment useLarge)
    range.1.1.1 = single.1.1 ∧ range.1.2 = single.1.2 ∧ range.2.1 = single.2.1 ∧
      exits range.2.2.toList = exits single.2.2.toList ∧
      withoutCalls range.2.2.toList = announcement :: single.2.2.toList ∧
      range.2.2.toList = announcement ::
        withCall (frameCall frame assignment) single.2.2.toList single.1.1 assignment := by
  intro frame order single range announcement
  obtain ⟨events, result, page', s', alone, run, follows⟩ := p.exists_run_exchange
    [.ofPage frame.start size assignment] page (obliging world) s
  obtain ⟨buffer', inRange⟩ := exists_run_range frame assignment large room run follows
  have others : withoutCalls (announcement ::
      withCall (frameCall frame assignment) events result assignment) = announcement :: events :=
    congrArg (announcement :: ·) (withoutCalls_withCall frame assignment run)
  rw [show single = _ from alone, show range = _ from inRange]
  refine ⟨rfl, rfl, rfl, ?_, others, rfl⟩
  show exits (announcement :: withCall (frameCall frame assignment) events result assignment) =
    exits events
  rw [← exits_withoutCalls, others, exits_log]

/-- A hypervisor that does nothing but report a failure. -/
def failing : Program.World calls Unit
  | .exit _ _, u => (Ghcb.zero.write .exitInfo1 7, u)
  | .pvalidate .., u => (.error .badInput, u)
  | .maskInterrupts, u => ((), u)
  | .unmaskInterrupts, u => ((), u)
  | .terminate, u => ((), u)
  | .log _, u => ((), u)

/-- It ends a change at the first exit. -/
theorem exists_run_failing {p : Protocol} (counts : 1 < p.counterRange) {size : PageSize}
    (frame : Frame size) (assignment : Assignment) (page : Ghcb) :
    ∃ page' events, ((p.changeFrame frame assignment).play page).run (obliging failing) () #[] =
        ((.error (.failed (.exitFailed 7)), page'), (), List.toArray events) ∧
      (exits events).length = 1 := by
  let request := [Entry.ofPage frame.start size assignment]
  have nonempty : 0 < request.length := Nat.one_pos
  have few : request.length ≤ Change.maxEntries := Nat.succ_le_succ (Nat.zero_le 252)
  have judged : verdict p.exitLimit 0 (placed request).cursor.current (0 + 1)
      (Ghcb.zero.write .exitInfo1 7) = some (.error (.exitFailed 7)) := by
    unfold verdict
    rw [Ghcb.read_write]
    rfl
  obtain ⟨room, more⟩ : ∃ room, p.counterRange - 1 = room + 1 :=
    Nat.exists_eq_succ_of_ne_zero (Nat.sub_ne_zero_of_lt counts)
  have ended : ExitsRun p 0 (room + 1) 0 (placed request) _ _ _ := .failed judged
  rw [← more] at ended
  have run : ExchangeRun p request page _ (.error (.failed (.exitFailed 7))) _ :=
    .stopped (.failed nofun ((ends_request_iff nonempty few).mpr ended))
  have follows : Program.Follows (obliging failing) ()
      (Event.mask :: ([Event.exit p.gpa ((placed request).prepareExit p.scratch)
        (Ghcb.zero.write .exitInfo1 7)] ++ [Event.unmask])) () :=
    ⟨rfl, rfl, rfl, rfl⟩
  have same := Program.run_eq_of_follows (ends_of_exchangeRun run) follows #[]
  rw [Array.empty_append] at same
  exact ⟨_, _, same, rfl⟩

/-- An address in the last 2MiB block of memory. -/
def inLastBlock : PhysAddr := ⟨0xfffffffffff23, by decide⟩

/-- The block is asked for and not handed over, so it gets no mark. -/
theorem frame_as_range_inLastBlock :
    let p : Protocol := { gpa := ⟨⟨0x1000, by decide⟩, by decide⟩ }
    let order := (Frame.containing .large inLastBlock).order .guestOnly true
    let range := (p.playChange (Change.tryChange order) [.zero] .zero).run (obliging failing) () #[]
    range.1.1.1 = .error (.failed (.exitFailed 7)) ∧
      (exits range.2.2.toList).length = 1 ∧ withoutCalls range.2.2.toList = range.2.2.toList := by
  intro p
  have large : PageSize.large = .large → true = true := fun _ => rfl
  have room : 0 < [Entry.zero].length := Nat.one_pos
  have counts : 1 < p.counterRange := by decide
  obtain ⟨page', events, alone, one⟩ :=
    exists_run_failing counts (Frame.containing .large inLastBlock) .guestOnly .zero
  obtain ⟨result, -, -, exits, others, trace⟩ :=
    frame_as_range p inLastBlock .guestOnly large room .zero failing ()
  rw [alone] at result exits others trace
  exact ⟨result, (congrArg List.length exits).trans one, others.trans trace.symm⟩

end SnpMemory

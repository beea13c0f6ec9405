/-
# `SnpMemory.Proofs.Work` — how much work a change is

A change asks a bounded number of things of its surroundings, whatever the answers are.
The bounds are read off the tiling of its range (`work_of_change`):

    exchanges          those of the batches, each cut into requests
    PVALIDATE calls    one for each page, and one more for each 2MiB entry

Both counts climb from the entries to the order along the runs of a change.  What makes
the first one exact is that no batch is short before the last: a walk ends because the
buffer is full or because the range ends, so the batches are the tiling cut into pieces of
the size of the buffer (`Goal.walk_eq_take`).

Over the protocol each exchange takes at most as many exits as the limit says, so the whole
run takes at most that many for each exchange (`ServesAll.length_exits_le`).
-/
import SnpMemory.Proofs.Blame
import SnpMemory.Proofs.Brackets
import SnpMemory.Proofs.Buffers

namespace SnpMemory

/-! ## Weights -/

/-- One for each 4KiB page that a page of this size is, and so many more for a 2MiB page. -/
def PageSize.weight (extra : Nat) : PageSize → Nat
  | small => 1
  | large => 512 + extra

/-- The weight of the pages of some entries. -/
def weight (extra : Nat) : List Entry → Nat
  | [] => 0
  | e :: rest => e.size.weight extra + weight extra rest

theorem weight_append (extra : Nat) (entries more : List Entry) :
    weight extra (entries ++ more) = weight extra entries + weight extra more := by
  induction entries with
  | nil => exact (Nat.zero_add _).symm
  | cons e rest ih => rw [List.cons_append, weight, weight, ih, Nat.add_assoc]

theorem PageSize.weight_pos (extra : Nat) (size : PageSize) : 0 < size.weight extra := by
  cases size with
  | small => exact Nat.one_pos
  | large => exact Nat.add_pos_left (by decide) _

/-! ## Batches -/

namespace Goal

variable {goal : Goal} {address next room : Nat} {entries : List Entry}

/-- Each filling of a buffer goes on with the tiling where the one before it stopped, and
fills the buffer unless the range ends. -/
theorem fill_eq_take (memory : goal.InMemory) (batch : Batch) (address : Nat) :
    ∃ next, (batch.fill goal address).2 = .ok next ∧
      (batch.fill goal address).1.entries = (goal.tiling address).take batch.capacity ∧
      goal.tiling next = (goal.tiling address).drop batch.capacity ∧
      (next < goal.stop → (batch.fill goal address).1.len = batch.capacity) := by
  obtain ⟨entries, next, walked⟩ := exists_walk_eq memory batch.capacity address
  obtain ⟨placed, left⟩ := walk_eq_take walked
  refine ⟨next, ?_, ?_, left, fun more => ?_⟩
  · rw [Batch.fill_snd, walked]
  · rw [Batch.entries_fill, walked]
    exact placed
  · show (goal.walk batch.capacity address).1.length = batch.capacity
    rw [walked]
    exact (length_of_walk walked).resolve_right (Nat.not_le.mpr more)

/-! ## What a tiling weighs -/

/-- How many of the entries are for a 2MiB page. -/
def largeCount (entries : List Entry) : Nat := entries.countP fun e => e.size = .large

/-- A tiling has an entry for each page of its range, where a 2MiB entry counts as 512; here
each 2MiB entry weighs so many more. -/
theorem Tiles.weight_eq (h : goal.Tiles address entries) (extra : Nat) :
    address + 0x1000 * weight extra entries =
      goal.stop + 0x1000 * (extra * largeCount entries) := by
  unfold largeCount
  induction h with
  | stop => rfl
  | @next address e rest _ _ ih =>
      rw [weight]
      cases size : e.size with
      | small =>
          rw [List.countP_cons_of_neg (by rw [size]; decide)]
          rw [size] at ih
          simp only [PageSize.weight, PageSize.bytes] at *
          omega
      | large =>
          rw [List.countP_cons_of_pos (by rw [size]; rfl), Nat.mul_succ]
          rw [size] at ih
          simp only [PageSize.weight, PageSize.bytes] at *
          omega

end Goal

namespace Change

/-- All entries for the range of an order. -/
abbrev Order.tiling (order : Order) : List Entry := order.goal.tiling order.start.start.val

theorem Order.weight_eq {order : Order} (within : order.stop ≤ physicalLimit) (extra : Nat) :
    weight extra order.tiling = order.pageCount + extra * Goal.largeCount order.tiling := by
  have whole := (Order.tiles within).weight_eq extra
  have stop : order.goal.stop = order.start.start.val + 0x1000 * order.pageCount := rfl
  unfold Order.tiling
  omega

/-! ## Exchanges -/

/-- How many requests so many entries are cut into. -/
def requestCount (n : Nat) : Nat := (n + (maxEntries - 1)) / maxEntries

/-- How many exchanges it takes to hand over so many entries: those of the full batches, and
those of what is left for the last batch. -/
def exchangeCount (capacity total : Nat) : Nat :=
  total / capacity * requestCount capacity + requestCount (total % capacity)

theorem length_requests (entries : List Entry) :
    (requests entries).length = requestCount entries.length := by
  induction entries using requests.induct with
  | case1 =>
      rw [requests]
      rfl
  | case2 e rest ih =>
      rw [requests, List.length_cons, ih, List.length_drop, List.length_cons]
      unfold requestCount maxEntries
      omega

/-- The first batch takes its share of the exchanges, and leaves the others. -/
theorem exchangeCount_eq_add {capacity : Nat} (room : 0 < capacity) (total : Nat) :
    exchangeCount capacity total =
      requestCount (min capacity total) + exchangeCount capacity (total - capacity) := by
  have none : requestCount 0 = 0 := rfl
  unfold exchangeCount
  rcases Nat.lt_or_ge total capacity with short | enough
  · rw [Nat.div_eq_of_lt short, Nat.mod_eq_of_lt short, Nat.sub_eq_zero_of_le (Nat.le_of_lt short),
      Nat.min_eq_right (Nat.le_of_lt short), Nat.zero_div, Nat.zero_mod, none]
    omega
  · obtain ⟨rest, rfl⟩ := Nat.exists_eq_add_of_le' enough
    rw [Nat.add_div_right rest room, Nat.add_mod_right, Nat.add_sub_cancel,
      Nat.min_eq_left enough, Nat.succ_mul]
    omega

variable {entries : List Entry} {events : List Event} {result : Except Stop Unit}

theorem EntriesRun.countP_isExchange (run : EntriesRun entries events result) :
    events.countP Event.isExchange = 0 := by
  refine List.countP_eq_zero.mpr fun ev mem exchange => ?_
  have other := List.filter_eq_self.mp run.withoutExchanges_eq ev mem
  rw [exchange] at other
  cases other

theorem RequestsRun.countP_isExchange {requests : List (List Entry)}
    (run : RequestsRun requests events result) :
    events.countP Event.isExchange ≤ requests.length ∧
      (result = .ok () → events.countP Event.isExchange = requests.length) := by
  induction run with
  | done => exact ⟨Nat.le_refl _, fun _ => rfl⟩
  | failed => exact ⟨Nat.succ_le_succ (Nat.zero_le _), nofun⟩
  | next _ ih =>
      rw [List.countP_cons_of_pos rfl]
      exact ⟨Nat.succ_le_succ ih.1, fun ended => congrArg (· + 1) (ih.2 ended)⟩

theorem BatchRun.countP_isExchange {assignment : Assignment}
    (run : BatchRun entries assignment events result) :
    events.countP Event.isExchange ≤ requestCount entries.length ∧
      (result = .ok () → events.countP Event.isExchange = requestCount entries.length) := by
  rw [← length_requests]
  cases assignment with
  | shared =>
      cases run with
      | stopped h =>
          rw [h.countP_isExchange]
          exact ⟨Nat.zero_le _, nofun⟩
      | through h h' =>
          rw [List.countP_append, h.countP_isExchange, Nat.zero_add]
          exact h'.countP_isExchange
  | guestOnly =>
      cases run with
      | stopped h => exact ⟨h.countP_isExchange.1, nofun⟩
      | through h h' =>
          rw [List.countP_append, h'.countP_isExchange, Nat.add_zero]
          exact ⟨h.countP_isExchange.1, fun _ => h.countP_isExchange.2 rfl⟩

/-- Batch by batch, the exchanges are those that the tiling takes. -/
theorem RangeRun.countP_isExchange {goal : Goal} {capacity address : Nat}
    (run : RangeRun goal capacity address events result) (room : 0 < capacity) :
    events.countP Event.isExchange ≤ exchangeCount capacity (goal.tiling address).length ∧
      (result = .ok () →
        events.countP Event.isExchange = exchangeCount capacity (goal.tiling address).length) := by
  induction run with
  | done none =>
      rw [Goal.tiling_of_le none, exchangeCount, List.length_nil, Nat.zero_div, Nat.zero_mod,
        Nat.zero_mul]
      exact ⟨Nat.le_refl _, fun _ => rfl⟩
  | limited => exact ⟨Nat.zero_le _, nofun⟩
  | stopped _ walked batch =>
      obtain ⟨rfl, left⟩ := Goal.walk_eq_take walked
      have here := batch.countP_isExchange.1
      rw [List.length_take] at here
      rw [exchangeCount_eq_add room]
      exact ⟨Nat.le_trans here (Nat.le_add_right _ _), nofun⟩
  | next _ walked batch _ ih =>
      obtain ⟨rfl, left⟩ := Goal.walk_eq_take walked
      have here := batch.countP_isExchange.2 rfl
      rw [List.length_take] at here
      rw [left, List.length_drop] at ih
      rw [exchangeCount_eq_add room, List.countP_append, here]
      exact ⟨Nat.add_le_add_left ih.1 _, fun ended => congrArg (_ + ·) (ih.2 ended)⟩

/-! ## Everything else -/

def Event.isPvalidate : Event → Bool
  | ⟨.pvalidate .., _⟩ => true
  | _ => false

theorem PagesRun.length_le {first : PhysAddr} {v : Validation} {ns : List Nat}
    (run : PagesRun first v ns events result) : events.length ≤ ns.length := by
  induction run with
  | done => exact Nat.le_refl _
  | beyond => exact Nat.zero_le _
  | failed => exact Nat.succ_le_succ (Nat.zero_le _)
  | next _ _ ih => exact Nat.succ_le_succ ih

/-- A block takes one call, or one for itself and one for each of its pages. -/
theorem BlockRun.countP_isPvalidate {address : PhysAddr} {size : PageSize} {v : Validation}
    (run : BlockRun address v size events result) :
    events.countP Event.isPvalidate ≤ size.weight 1 := by
  cases run with
  | whole => exact PageSize.weight_pos _ _
  | failed => exact PageSize.weight_pos _ _
  | @split events' _ pages =>
      have few := Nat.le_trans (List.countP_le_length (p := Event.isPvalidate)) pages.length_le
      rw [List.length_range] at few
      rw [List.countP_cons_of_pos rfl, List.countP_cons_of_neg Bool.false_ne_true]
      exact Nat.succ_le_succ few

/-- The line that says that a block is split comes on top. -/
theorem BlockRun.length_le {address : PhysAddr} {size : PageSize} {v : Validation}
    (run : BlockRun address v size events result) : events.length ≤ size.weight 2 := by
  cases run with
  | whole => exact PageSize.weight_pos _ _
  | failed => exact PageSize.weight_pos _ _
  | split pages =>
      have few := pages.length_le
      rw [List.length_range] at few
      exact Nat.succ_le_succ (Nat.succ_le_succ few)

section

variable {P : Event → Bool} {extra : Nat}

theorem EntriesRun.countP_le
    (block : ∀ {address : PhysAddr} {v : Validation} {size : PageSize} {events : List Event}
      {result : Except Stop Unit}, BlockRun address v size events result →
        events.countP P ≤ size.weight extra)
    (run : EntriesRun entries events result) :
    events.countP P ≤ weight extra entries := by
  induction run with
  | done => exact Nat.le_refl _
  | invalid => exact Nat.zero_le _
  | stopped _ h => exact Nat.le_trans (block h) (Nat.le_add_right _ _)
  | next _ h _ ih =>
      rw [List.countP_append, weight]
      exact Nat.add_le_add (block h) ih

theorem RequestsRun.countP_eq_zero
    (none : ∀ entries answer, P (.exchange entries answer) = false)
    {requests : List (List Entry)} (run : RequestsRun requests events result) :
    events.countP P = 0 := by
  refine List.countP_eq_zero.mpr fun ev mem => ?_
  obtain ⟨request, -, answer, rfl⟩ := run.exchange ev mem
  rw [none]
  exact Bool.false_ne_true

variable (block : ∀ {address : PhysAddr} {v : Validation} {size : PageSize} {events : List Event}
    {result : Except Stop Unit}, BlockRun address v size events result →
      events.countP P ≤ size.weight extra)
  (none : ∀ entries answer, P (.exchange entries answer) = false)

include block none

theorem BatchRun.countP_le {assignment : Assignment}
    (run : BatchRun entries assignment events result) :
    events.countP P ≤ weight extra entries := by
  cases assignment with
  | shared =>
      cases run with
      | stopped h => exact h.countP_le block
      | through h h' =>
          rw [List.countP_append, h'.countP_eq_zero none]
          exact h.countP_le block
  | guestOnly =>
      cases run with
      | stopped h =>
          rw [h.countP_eq_zero none]
          exact Nat.zero_le _
      | through h h' =>
          rw [List.countP_append, h.countP_eq_zero none, Nat.zero_add]
          exact h'.countP_le block

/-- Whatever is at most the weight of a block in the events for it, and is never an exchange,
is at most the weight of the tiling in the events of a range. -/
theorem RangeRun.countP_le {goal : Goal} {capacity address : Nat}
    (run : RangeRun goal capacity address events result) :
    events.countP P ≤ weight extra (goal.tiling address) := by
  induction run with
  | done => exact Nat.zero_le _
  | limited => exact Nat.zero_le _
  | stopped _ walked batch =>
      rw [Goal.tiling_eq_append walked, weight_append]
      exact Nat.le_trans (batch.countP_le block none) (Nat.le_add_right _ _)
  | next _ walked batch _ ih =>
      rw [Goal.tiling_eq_append walked, weight_append, List.countP_append]
      exact Nat.add_le_add (batch.countP_le block none) ih

end

variable {order : Order} {capacity : Nat}

theorem OrderRun.countP_isExchange (run : OrderRun order capacity events result)
    (room : 0 < capacity) (within : order.stop ≤ physicalLimit) :
    events.countP Event.isExchange ≤ exchangeCount capacity order.tiling.length ∧
      (result = .ok () →
        events.countP Event.isExchange = exchangeCount capacity order.tiling.length) := by
  obtain ⟨rest, rfl, rangeRun⟩ := run.exists_rangeRun room within
  exact rangeRun.countP_isExchange room

theorem OrderRun.countP_isPvalidate (run : OrderRun order capacity events result)
    (room : 0 < capacity) (within : order.stop ≤ physicalLimit) :
    events.countP Event.isPvalidate ≤ order.pageCount + Goal.largeCount order.tiling := by
  obtain ⟨rest, rfl, rangeRun⟩ := run.exists_rangeRun room within
  have calls : rest.countP Event.isPvalidate ≤ weight 1 order.tiling :=
    rangeRun.countP_le (fun h => h.countP_isPvalidate) fun _ _ => rfl
  rw [Order.weight_eq within, Nat.one_mul] at calls
  rw [List.countP_cons_of_neg Bool.false_ne_true]
  exact calls

/-- A change ends: it does not go on for longer than this. -/
theorem OrderRun.length_le (run : OrderRun order capacity events result) (room : 0 < capacity)
    (within : order.stop ≤ physicalLimit) :
    events.length ≤ 1 + exchangeCount capacity order.tiling.length + order.pageCount +
      2 * Goal.largeCount order.tiling := by
  obtain ⟨rest, rfl, rangeRun⟩ := run.exists_rangeRun room within
  have exchanges : rest.countP Event.isExchange ≤ exchangeCount capacity order.tiling.length :=
    (rangeRun.countP_isExchange room).1
  have others : rest.countP (fun ev => ¬ Event.isExchange ev) ≤ weight 2 order.tiling :=
    rangeRun.countP_le (fun h => Nat.le_trans List.countP_le_length h.length_le) fun _ _ => rfl
  have split := List.length_eq_countP_add_countP Event.isExchange (l := rest)
  rw [Order.weight_eq within] at others
  rw [List.length_cons]
  omega

end Change

/-! ## Exits -/

namespace Protocol

variable {p : Protocol} {g g' : Ghcb} {events : List Event} {limit : ExitLimit}

/-- An exchange begins with the masking of interrupts. -/
def Event.isMask : Event → Bool
  | ⟨.maskInterrupts, _⟩ => true
  | _ => false

theorem Exit.countP_isMask (taken : List Exit) :
    (taken.map Exit.event).countP Event.isMask = 0 := by
  refine List.countP_eq_zero.mpr fun ev mem => ?_
  obtain ⟨e, -, rfl⟩ := List.mem_map.mp mem
  exact Bool.false_ne_true

variable {entries : List Entry} {result : Except Stop Unit}

theorem ExchangeRun.countP_isMask (run : ExchangeRun p entries g events result g') :
    events.countP Event.isMask = 1 := by
  obtain ⟨taken, -, bracket⟩ := run.exists_bracket
  cases bracket with
  | done =>
      rw [List.countP_cons_of_pos rfl, List.countP_append, Exit.countP_isMask]
      rfl
  | failed =>
      rw [List.countP_cons_of_pos rfl, List.countP_append, Exit.countP_isMask]
      rfl
  | overflow => rw [List.countP_cons_of_pos rfl, Exit.countP_isMask]

/-- Whatever the hypervisor does, an exchange keeps to the limit. -/
theorem ExchangeRun.length_exits_le (run : ExchangeRun p entries g events result g')
    (limited : p.exitLimit = some limit) : (exits events).length ≤ limit.count := by
  obtain ⟨taken, within, bracket⟩ := run.exists_bracket
  rw [bracket.exits_eq]
  exact within.length_le limit limited

theorem ServesAll.countP_isMask {above : List Change.Event}
    (served : ServesAll p g above events g') :
    events.countP Event.isMask = above.countP Change.Event.isExchange := by
  induction served with
  | nil => rfl
  | cons first _ ih =>
      rw [List.countP_append, ih]
      cases first with
      | exchange run => rw [run.countP_isMask, List.countP_cons_of_pos rfl, Nat.add_comm]
      | pvalidate => exact Nat.zero_add _
      | terminate => exact Nat.zero_add _
      | log => exact Nat.zero_add _

/-- Every exchange has the limit for itself. -/
theorem ServesAll.length_exits_le {above : List Change.Event} (limited : p.exitLimit = some limit)
    (served : ServesAll p g above events g') :
    (exits events).length ≤ limit.count * events.countP Event.isMask := by
  induction served with
  | nil => exact Nat.le_refl _
  | @cons _ _ _ _ _ events more first _ ih =>
      have here : (exits events).length ≤ limit.count * events.countP Event.isMask := by
        cases first with
        | exchange run =>
            rw [run.countP_isMask, Nat.mul_one]
            exact run.length_exits_le limited
        | pvalidate => exact Nat.zero_le _
        | terminate => exact Nat.zero_le _
        | log => exact Nat.zero_le _
      rw [exits_append, List.length_append, List.countP_append, Nat.mul_add]
      exact Nat.add_le_add here ih

/-- The exits of an order, and the exchanges that they belong to. -/
theorem length_exits_le_of_reaches {order : Change.Order} {buffer : List Entry}
    (room : 0 < buffer.length) (within : order.stop ≤ physicalLimit)
    (limited : p.exitLimit = some limit) {last : (Except Stop Unit × List Entry) × Ghcb}
    (h : (p.playChange (Change.tryChange order) buffer g).Reaches events (.done last)) :
    (exits events).length ≤ limit.count * events.countP Event.isMask ∧
      events.countP Event.isMask ≤ Change.exchangeCount buffer.length order.tiling.length := by
  obtain ⟨⟨result, buffer'⟩, g'⟩ := last
  obtain ⟨above, ends, served⟩ := reaches_playChange_iff.mp h
  have orderRun := Change.exists_ends_tryChange_iff.mp ⟨_, ends⟩
  refine ⟨served.length_exits_le limited, ?_⟩
  rw [served.countP_isMask]
  exact (orderRun.countP_isExchange room within).1

end Protocol

/-! ## Every order, in every world -/

open Change (Order tryChange)

/-- **Work bound.**  Take an order that is not refused, on a buffer with room.  The entries for
its range are fixed before it begins, and each batch fills the buffer with the next of them
as long as there are enough.  In any world, the order ends after a bounded number of
requests.  It makes no more exchanges than these batches take, and just as many if it ends
well; and it makes at most one PVALIDATE call for each page, and one more for each 2MiB
entry.  Over a protocol with a limit on exits, an exchange takes no more exits than that,
even if the hypervisor never moves on. -/
theorem work_of_change (order : Order) {buffer : List Entry} (room : 0 < buffer.length)
    (within : order.stop ≤ physicalLimit) :
    let total := order.tiling.length
    let large := order.tiling.countP fun e => e.size = .large
    let exchanges := total / buffer.length * ((buffer.length + 252) / 253) +
      (total % buffer.length + 252) / 253
    order.goal.Tiles order.start.start.val order.tiling ∧
    (∀ (batch : Batch) (address : Nat), batch.capacity = buffer.length →
      ∃ next, (batch.fill order.goal address).2 = .ok next ∧
        (batch.fill order.goal address).1.entries =
          (order.goal.tiling address).take buffer.length ∧
        order.goal.tiling next = (order.goal.tiling address).drop buffer.length ∧
        (next < order.stop → (batch.fill order.goal address).1.len = buffer.length)) ∧
    (∀ (σ : Type) (world : Program.World Change.calls σ) (s : σ),
      let run := ((tryChange order).play buffer).run world s #[]
      let events : List Change.Event := run.2.2.toList
      events.countP Change.Event.isExchange ≤ exchanges ∧
      (run.1.1 = .ok () → events.countP Change.Event.isExchange = exchanges) ∧
      (∀ entries answer, Change.Event.exchange entries answer ∈ events →
        1 ≤ entries.length ∧ entries.length ≤ 253) ∧
      events.countP Change.Event.isPvalidate ≤ order.pageCount + large ∧
      events.length ≤ 1 + exchanges + order.pageCount + 2 * large) ∧
    ∀ (σ : Type) (p : Protocol) (limit : ExitLimit) (page : Ghcb)
      (world : Program.World Protocol.calls σ) (s : σ), p.exitLimit = some limit →
      let one := fun entries => ((p.exchange entries).play page).run world s #[]
      let whole := (p.playChange (tryChange order) buffer page).run world s #[]
      let events : List Protocol.Event := whole.2.2.toList
      (∀ entries, (Protocol.exits (one entries).2.2.toList).length ≤ limit.count) ∧
      (Protocol.exits events).length ≤ limit.count * events.countP Protocol.Event.isMask ∧
      events.countP Protocol.Event.isMask ≤ exchanges := by
  intro total large exchanges
  refine ⟨Order.tiles within, ?_, ?_, ?_⟩
  · intro batch address full
    rw [← full]
    exact Goal.fill_eq_take (Order.goal_inMemory within) batch address
  · intro σ world s run events
    obtain ⟨events', reaches, -, trace⟩ :=
      Program.exists_follows_of_run world ((tryChange order).play buffer) s #[]
    have same : events = events' := trace
    have orderRun := Change.exists_ends_tryChange_iff.mp ⟨_, reaches⟩
    rw [same]
    obtain ⟨atMost, exactly⟩ := orderRun.countP_isExchange room within
    refine ⟨atMost, exactly, ?_, orderRun.countP_isPvalidate room within,
      orderRun.length_le room within⟩
    intro entries answer mem
    exact orderRun.permitted _ mem
  · intro σ p limit page world s limited one whole events
    refine ⟨fun entries => ?_, ?_⟩
    · obtain ⟨events', reaches, -, trace⟩ :=
        Program.exists_follows_of_run world ((p.exchange entries).play page) s #[]
      have same : (one entries).2.2.toList = events' := trace
      rw [same]
      exact (Protocol.exchangeRun_of_ends reaches).length_exits_le limited
    · obtain ⟨events', reaches, -, trace⟩ :=
        Program.exists_follows_of_run world (p.playChange (tryChange order) buffer page) s #[]
      have same : events = events' := trace
      rw [same]
      exact Protocol.length_exits_le_of_reaches room within limited reaches

/-- A world in which nothing moves: calls succeed, and the hypervisor gives the page back as
it is. -/
def still : Program.World Protocol.calls Unit
  | .exit _ page, s => (page, s)
  | .pvalidate .., s => (.ok (), s)
  | .maskInterrupts, s => ((), s)
  | .unmaskInterrupts, s => ((), s)
  | .terminate, s => ((), s)
  | .log _, s => ((), s)

/-- A protocol that allows five exits. -/
def fiveExits : Protocol where
  gpa := ⟨⟨0x5000, by decide⟩, by decide⟩
  exitLimit := some ⟨5, Nat.succ_pos 4⟩

/-- Two slots make two exchanges of the order, so there are no more than ten exits. -/
theorem work_of_change_takeBlock :
    (Protocol.exits ((fiveExits.playChange (tryChange Change.takeBlock) [.zero, .zero] .zero).run
      still () #[]).2.2.toList).length ≤ 10 := by
  -- stated for any numbers, so that the run is not evaluated to count its exits
  have few : ∀ {exits masks limit most : Nat}, exits ≤ limit * masks → masks ≤ most →
      limit = 5 → most = 2 → exits ≤ 10 := by
    rintro exits masks limit most perExchange exchanges rfl rfl
    omega
  have three : Change.takeBlock.tiling.length = 3 := by
    show (Change.takeBlock.goal.tiling 0x1ff000).length = 3
    rw [Goal.tiling_of_lt (by decide), Goal.tiling_of_lt (by decide),
      Goal.tiling_of_lt (by decide), Goal.tiling_of_le (by decide)]
    rfl
  have room : 0 < [Entry.zero, Entry.zero].length := by decide
  obtain ⟨-, -, -, bound⟩ := work_of_change Change.takeBlock room (by decide)
  obtain ⟨-, perExchange, exchanges⟩ := bound Unit fiveExits ⟨5, Nat.succ_pos 4⟩ .zero still () rfl
  rw [three] at exchanges
  exact few perExchange exchanges rfl rfl

end SnpMemory

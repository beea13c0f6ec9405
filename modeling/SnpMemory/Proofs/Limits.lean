/-
# `SnpMemory.Proofs.Limits` — no limit is ever met

A guest program stops with a fault when a sum does not fit in a word, an address lies
beyond memory, or a write would leave the shared buffer.  A change never does, with one
exception that needs 2⁶⁴ exits: the counter of exits can come to its end
(`never_faults`).

Two things are behind it.  A run that stops does so at a fatal answer (`FailStop`), and
the answer of a PVALIDATE call is an error, not a fault; so the fault is that of an
exchange, and an exchange has no other than the end of its counter (`Bracket`).  And what
is computed without a check is in bounds at every batch (`BatchInBounds`): the walk stays
in the range, which ends in memory; a 2MiB entry is aligned and ends in the range, so all
its 4KiB pages have addresses; and a request is cut to the size of the shared buffer.
-/
import SnpMemory.Proofs.Work

namespace SnpMemory

/-! ## Batches -/

namespace Goal

variable {goal : Goal} {address next room : Nat} {entries : List Entry}

/-- What is computed for the batch that begins at an address is in bounds. -/
structure BatchInBounds (goal : Goal) (batch : Batch) (address : Nat) : Prop where
  /-- The cursor stays in the buffer. -/
  len_le : (batch.fill goal address).1.len ≤ batch.capacity
  /-- No sum is too large for a word, and the walk stays in the range.  The next batch begins
  at a page again. -/
  reached : ∃ next, (batch.fill goal address).2 = .ok next ∧ address < next ∧
    next ≤ goal.stop ∧ 0x1000 ∣ next
  /-- The page of an entry begins and ends in the range. -/
  entries : ∀ e ∈ (batch.fill goal address).1.entries,
    address ≤ e.address.val ∧ e.address.val + e.size.bytes ≤ goal.stop
  /-- The 4KiB pages of a 2MiB entry have addresses. -/
  pages : ∀ e ∈ (batch.fill goal address).1.entries, e.size = .large →
    ∀ n < smallPagesPerLarge, ∃ page, e.address.add? (n * PageSize.small.bytes) = some page
  /-- A request fits in the shared buffer, and its last position in a half word. -/
  requests : ∀ request ∈ Change.requests (batch.fill goal address).1.entries,
    0 < request.length ∧ request.length - 1 < 0x10000 ∧
      Ghcb.headerSize + Ghcb.entrySize * request.length ≤ Ghcb.Field.sharedBuffer.width

theorem batchInBounds (memory : goal.InMemory) {batch : Batch} (room : 0 < batch.capacity)
    (aligned : 0x1000 ∣ address) (more : address < goal.stop) :
    goal.BatchInBounds batch address := by
  obtain ⟨entries, next, walked⟩ := exists_walk_eq memory batch.capacity address
  have entries_eq : (batch.fill goal address).1.entries = entries := by
    rw [Batch.entries_fill, walked]
  have places : ∀ e ∈ entries,
      address ≤ e.address.val ∧ e.address.val + e.size.bytes ≤ goal.stop := by
    intro e mem
    have tiles := tiles_tiling memory aligned (Nat.le_of_lt more)
    rw [tiling_eq_append walked] at tiles
    obtain ⟨place, fits, low, high⟩ := tiles.exists_fits (List.mem_append_left _ mem)
    rw [fits.address_eq]
    exact ⟨low, high⟩
  constructor
  · rw [← Batch.capacity_fill batch goal address]
    exact (batch.fill goal address).1.len_le
  · refine ⟨next, ?_, lt_of_walk room more (congrArg Prod.snd walked),
      le_stop_of_walk memory aligned (Nat.le_of_lt more) walked⟩
    rw [Batch.fill_snd, walked]
  · rw [entries_eq]
    exact places
  · rw [entries_eq]
    intro e mem large n few
    have inside := (places e mem).2
    have within := memory.within
    have lies : e.address.val + n * PageSize.small.bytes < 0x10000000000000 := by
      rw [large] at inside
      simp only [PageSize.bytes, physicalLimit, smallPagesPerLarge] at *
      omega
    exact ⟨⟨_, lies⟩, PhysAddr.ofNat?_eq_some_iff.mpr rfl⟩
  · intro request mem
    obtain ⟨nonempty, few⟩ := Change.length_of_mem_requests mem
    refine ⟨nonempty, ?_, ?_⟩
    · unfold Change.maxEntries at few
      omega
    · simp only [Ghcb.headerSize, Ghcb.entrySize, Ghcb.Field.width, Change.maxEntries] at *
      omega

end Goal

/-! ## Orders -/

namespace Change

variable {events : List Event} {result : Except Stop Unit} {order : Order} {capacity : Nat}

/-- Every page that a call is about ends in memory. -/
theorem OrderRun.add_bytes_le (run : OrderRun order capacity events result) {address : PhysAddr}
    {size : PageSize} {v : Validation} {answer : Except PvalidateError Unit}
    (mem : Event.pvalidate address size v answer ∈ events) :
    address.val + size.bytes ≤ physicalLimit := by
  obtain ⟨past, -, spans⟩ := run.proper.exists_past mem
  have within : order.stop ≤ physicalLimit := by
    cases run with
    | noRoom => exact absurd mem List.not_mem_nil
    | noRange => exact absurd mem List.not_mem_nil
    | accepted _ within _ => exact within
  have aligned := (Order.goal_inMemory within).aligned
  -- the last 4KiB page of the block
  let last := (address.val + size.bytes - 1) / 0x1000
  have covers : (⟨address, size⟩ : Block).Covers last := by
    show address.val ≤ last * 0x1000 ∧ last * 0x1000 < address.val + size.bytes
    cases size <;> simp only [PageSize.bytes, last] <;> omega
  have inside : last * 0x1000 < order.goal.stop := (spans last covers).1.2
  have stop : order.goal.stop ≤ physicalLimit := within
  omega

/-- An order that did not end well ended with an error, or as one of its exchanges did. -/
theorem OrderRun.failed_or_exchange {stop : Stop}
    (run : OrderRun order capacity events (.error stop)) :
    (∃ error, stop = .failed error) ∨
      ∃ entries, Event.exchange entries (.error stop) ∈ events := by
  have failStop : 0 < capacity → order.stop ≤ physicalLimit → FailStop events (.error stop) :=
    run.failStop
  cases run with
  | noRoom => exact .inl ⟨_, rfl⟩
  | noRange => exact .inl ⟨_, rfl⟩
  | accepted room within _ =>
      obtain ⟨ev, mem, fatal⟩ := (failStop room within).exists_fatal
      rcases Event.exists_of_fatal fatal with ⟨_, _, _, _, rfl⟩ | ⟨entries, rfl⟩
      · exact .inl ⟨_, rfl⟩
      · exact .inr ⟨entries, mem⟩

end Change

/-! ## Faults -/

namespace Protocol

variable {p : Protocol} {g g' : Ghcb} {events : List Event} {above : List Change.Event}

section

variable {address : PhysAddr} {size : PageSize} {v : Validation}
  {answer : Except PvalidateError Unit}

theorem Bracket.not_mem_pvalidate {entries : List Entry} {taken : List Exit}
    {result : Except Stop Unit} (h : Bracket p entries taken events result) :
    Event.pvalidate address size v answer ∉ events := by
  intro mem
  have other : ∀ ev ∈ events, ev ≠ Event.pvalidate address size v answer :=
    h.forall_mem nofun nofun (fun _ _ _ => nofun) fun _ _ => nofun
  exact other _ mem rfl

/-- The PVALIDATE calls of a run are those of the change. -/
theorem ServesAll.mem_of_pvalidate (served : ServesAll p g above events g')
    (mem : Event.pvalidate address size v answer ∈ events) :
    Change.Event.pvalidate address size v answer ∈ above := by
  induction served with
  | nil => exact absurd mem List.not_mem_nil
  | cons first _ ih =>
      rcases List.mem_append.mp mem with here | later
      · cases first with
        | pvalidate =>
            cases List.mem_singleton.mp here
            exact List.mem_cons_self
        | exchange run =>
            obtain ⟨taken, -, bracket⟩ := run.exists_bracket
            exact absurd here bracket.not_mem_pvalidate
        | terminate => cases List.mem_singleton.mp here
        | log => cases List.mem_singleton.mp here
      · exact List.mem_cons_of_mem _ (ih later)

end

/-- Over the protocol an order that did not end well ended with an error, unless its exits have
used up a counter. -/
theorem failed_or_overflow_of_reaches {order : Change.Order} {buffer buffer' : List Entry}
    {stop : Stop}
    (h : (p.playChange (Change.tryChange order) buffer g).Reaches events
      (.done ((.error stop, buffer'), g'))) :
    (∃ error, stop = .failed error) ∨
      stop = .fault .wordOverflow ∧ p.counterRange ≤ (exits events).length := by
  obtain ⟨above, ends, served⟩ := reaches_playChange_iff.mp h
  have run := Change.exists_ends_tryChange_iff.mp ⟨_, ends⟩
  rcases run.failed_or_exchange with failed | ⟨entries, mem⟩
  · exact .inl failed
  · obtain ⟨_, part, _, serves, inside⟩ := served.exists_infix mem
    have few : (exits part).length ≤ (exits events).length :=
      (inside.filterMap Event.exit?).length_le
    cases serves with
    | exchange exchange =>
        obtain ⟨taken, -, bracket⟩ := exchange.exists_bracket
        rw [bracket.exits_eq] at few
        cases bracket with
        | failed error => exact .inl ⟨error, rfl⟩
        | overflow all => exact .inr ⟨rfl, Nat.le_trans all few⟩

end Protocol

/-! ## Every order, in every world -/

open Change (Order tryChange)

/-- **No limit is met.**  Carry out any order over any protocol, with any buffer, from any page
on and in any world.  As long as there are fewer exits than the counter has values, the
order does not end with a fault.  Every PVALIDATE call is about a page that ends in memory,
the address of the shared buffer fits in a word, and so does everything that is computed
for a batch of the order, at whatever page of the range it begins. -/
theorem never_faults (p : Protocol) (order : Order) (buffer : List Entry) (page : Ghcb) {σ : Type}
    (world : Program.World Protocol.calls σ) (s : σ) :
    let run := (p.playChange (tryChange order) buffer page).run world s #[]
    let events : List Protocol.Event := run.2.2.toList
    ((Protocol.exits events).length < p.counterRange →
      ∀ limit, run.1.1.1 ≠ .error (.fault limit)) ∧
    (∀ address size v answer, Protocol.Event.pvalidate address size v answer ∈ events →
      address.val + size.bytes ≤ physicalLimit) ∧
    p.scratch < wordLimit ∧
    (order.stop ≤ physicalLimit → ∀ (batch : Batch) (address : Nat), 0 < batch.capacity →
      0x1000 ∣ address → address < order.stop → order.goal.BatchInBounds batch address) := by
  intro run events
  obtain ⟨events', reaches, -, trace⟩ :=
    Program.exists_follows_of_run world (p.playChange (tryChange order) buffer page) s #[]
  have same : events = events' := trace
  refine ⟨?_, ?_, ?_, ?_⟩
  · intro few limit fault
    have reaches' : (p.playChange (tryChange order) buffer page).Reaches events'
        (.done ((run.1.1.1, run.1.1.2), run.1.2)) := reaches
    rw [fault] at reaches'
    rw [same] at few
    rcases Protocol.failed_or_overflow_of_reaches reaches' with ⟨error, other⟩ | ⟨-, all⟩
    · cases other
    · exact Nat.not_le.mpr few all
  · intro address size v answer mem
    obtain ⟨above, ends, served⟩ := Protocol.reaches_playChange_iff.mp reaches
    rw [same] at mem
    exact (Change.exists_ends_tryChange_iff.mp ⟨_, ends⟩).add_bytes_le
      (served.mem_of_pvalidate mem)
  · have := p.gpa.start.val_lt
    simp only [Protocol.scratch, Ghcb.Field.offset, wordLimit]
    omega
  · intro within batch address room aligned more
    exact Goal.batchInBounds (Order.goal_inMemory within) room aligned more

/-- An order to share the last 2MiB block of memory. -/
def shareLastBlock : Order where
  start := ⟨⟨0xfffffffe00000, by decide⟩, by decide⟩
  pageCount := 512
  assignment := .shared
  useLarge := true

/-- A world that holds each 2MiB block in 4KiB pages. -/
def splitting : Program.World Protocol.calls Unit
  | .pvalidate _ .large _, s => (.error .sizeMismatch, s)
  | .pvalidate _ .small _, s => (.ok (), s)
  | .exit _ page, s => (page, s)
  | .maskInterrupts, s => ((), s)
  | .unmaskInterrupts, s => ((), s)
  | .terminate, s => ((), s)
  | .log _, s => ((), s)

/-- The block is found split, and the last of its pages still has an address. -/
theorem never_faults_shareLastBlock :
    (∀ limit, ((fiveExits.playChange (tryChange shareLastBlock) [.zero] .zero).run splitting ()
      #[]).1.1.1 ≠ .error (.fault limit)) ∧
    ∃ page, (shareLastBlock.goal.entryAt 0xfffffffe00000).address.add? (511 * 0x1000) =
      some page := by
  obtain ⟨noFault, -, -, bounds⟩ :=
    never_faults fiveExits shareLastBlock [.zero] .zero splitting ()
  have room : 0 < [Entry.zero].length := by decide
  have within : shareLastBlock.stop ≤ physicalLimit := by decide
  -- stated for any numbers, so that the run is not evaluated to count its exits
  have few : ∀ {exits masks limit most range : Nat}, exits ≤ limit * masks → masks ≤ most →
      limit = 5 → most = 1 → range = wordLimit → exits < range := by
    rintro exits masks limit most range perExchange exchanges rfl rfl rfl
    unfold wordLimit
    omega
  constructor
  · obtain ⟨events, reaches, -, trace⟩ := Program.exists_follows_of_run splitting
      (fiveExits.playChange (tryChange shareLastBlock) [.zero] .zero) () #[]
    have limited : fiveExits.exitLimit = some ⟨5, Nat.succ_pos 4⟩ := rfl
    obtain ⟨perExchange, exchanges⟩ :=
      Protocol.length_exits_le_of_reaches room within limited reaches
    have one : shareLastBlock.tiling.length = 1 := by
      show (shareLastBlock.goal.tiling 0xfffffffe00000).length = 1
      rw [Goal.tiling_of_lt (by decide), Goal.tiling_of_le (by decide)]
      rfl
    rw [one] at exchanges
    refine noFault ?_
    rw [trace]
    exact few perExchange exchanges rfl rfl rfl
  · have start : 0x1000 ∣ 0xfffffffe00000 := by decide
    have bound := bounds within (.ofBuffer [.zero]) 0xfffffffe00000 room start (by decide)
    exact bound.pages (shareLastBlock.goal.entryAt 0xfffffffe00000)
      (List.mem_singleton.mpr rfl) Goal.size_entryAt 511 (by decide)

end SnpMemory

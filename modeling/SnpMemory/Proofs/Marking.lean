/-
# `SnpMemory.Proofs.Marking` — which pages the calls of a run are about

The runs of `SnpMemory.Proofs.ChangeRuns`, read as what they do to pages:

    Marking v b ev       `ev` is a log line, or a call that puts the mark `v` on
                         pages of the block `b`
    Marked es v b n      among `es` is a successful call that put the mark `v` on
                         the page `n` of the block `b`: the call for all of `b`, or,
                         after that one found `b` split, the call for the page
    Handed es n          among `es` is a successful exchange with an entry for `n`

A run for a list of entries makes calls for the blocks of these entries only
(`EntriesRun.marking`), and leaves no page of them unmarked when it ends well
(`EntriesRun.marked`).  The requests that a list is cut into are the list again
when put together (`flatten_requests`), so after them all its entries are handed
over (`RequestsRun.handed`).
-/
import SnpMemory.Proofs.ChangeRuns
import SnpMemory.Proofs.Tiling

namespace SnpMemory.Change

/-! ## Calls for a block -/

/-- A log line, or a call that puts a mark on pages of a block. -/
inductive Marking (v : Validation) (b : Block) : Event → Prop
  | log (line : LogLine) : Marking v b (.log line)
  | call (b' : Block) (answer : Except PvalidateError Unit) :
      (∀ page, b'.Covers page → b.Covers page) →
      Marking v b (.pvalidate b'.address b'.size v answer)

/-- A page of a block got a mark. -/
inductive Marked (past : List Event) (v : Validation) (b : Block) (page : Nat) : Prop
  | whole : Event.pvalidate b.address b.size v (.ok ()) ∈ past → Marked past v b page
  | alone {address : PhysAddr} :
      b.size = .large →
      Event.pvalidate b.address .large v (.error .sizeMismatch) ∈ past →
      address.val = page * 0x1000 → Event.pvalidate address .small v (.ok ()) ∈ past →
      Marked past v b page

/-- The hypervisor has processed an entry for the page. -/
def Handed (past : List Event) (page : Nat) : Prop :=
  ∃ entries, Event.exchange entries (.ok ()) ∈ past ∧ ∃ e ∈ entries, e.block.Covers page

section

variable {past past' : List Event} {v : Validation} {b : Block} {page : Nat}

theorem Marked.mono (h : Marked past v b page) (sub : past ⊆ past') : Marked past' v b page := by
  cases h with
  | whole call => exact .whole (sub call)
  | alone large split here call => exact .alone large (sub split) here (sub call)

/-- A marked page is covered by a successful call. -/
theorem Marked.exists_call (h : Marked past v b page) (covers : b.Covers page) :
    ∃ b' : Block, b'.Covers page ∧ Event.pvalidate b'.address b'.size v (.ok ()) ∈ past := by
  cases h with
  | whole call => exact ⟨b, covers, call⟩
  | @alone address _ _ here call =>
      refine ⟨⟨address, .small⟩, ⟨Nat.le_of_eq here, ?_⟩, call⟩
      show page * 0x1000 < address.val + 0x1000
      omega

theorem Handed.mono (h : Handed past page) (sub : past ⊆ past') : Handed past' page := by
  obtain ⟨entries, call, mem⟩ := h
  exact ⟨entries, sub call, mem⟩

end

/-! ## The calls of a run -/

variable {address : PhysAddr} {size : PageSize} {v : Validation} {ns : List Nat}
  {entries : List Entry} {events : List Event} {result : Except Stop Unit}

theorem val_of_add? {first address : PhysAddr} {n : Nat} (h : first.add? n = some address) :
    address.val = first.val + n :=
  PhysAddr.ofNat?_eq_some_iff.mp h

theorem PagesRun.marking (run : PagesRun address v ns events result)
    (within : ∀ n ∈ ns, n < smallPagesPerLarge) :
    ∀ ev ∈ events, Marking v ⟨address, .large⟩ ev := by
  -- a page with one of these numbers lies in the large block
  have inside : ∀ n page, n < smallPagesPerLarge → ∀ a : PhysAddr,
      address.add? (n * PageSize.small.bytes) = some a →
      (⟨a, .small⟩ : Block).Covers page → (⟨address, .large⟩ : Block).Covers page := by
    intro n page few a place covers
    have := val_of_add? place
    simp only [Block.Covers, PageSize.bytes, smallPagesPerLarge] at *
    omega
  induction run with
  | done => exact fun _ mem => absurd mem List.not_mem_nil
  | beyond => exact fun _ mem => absurd mem List.not_mem_nil
  | @failed n rest a error place =>
      intro ev mem
      obtain rfl := List.mem_singleton.mp mem
      exact .call ⟨a, .small⟩ _ fun page =>
        inside n page (within n List.mem_cons_self) a place
  | @next n rest a _ _ place _ ih =>
      intro ev mem
      rcases List.mem_cons.mp mem with rfl | later
      · exact .call ⟨a, .small⟩ _ fun page =>
          inside n page (within n List.mem_cons_self) a place
      · exact ih (fun n' mem' => within n' (List.mem_cons_of_mem _ mem')) ev later

/-- When all pages are done, each of them had its call. -/
theorem PagesRun.exists_call (run : PagesRun address v ns events (.ok ())) :
    ∀ n ∈ ns, ∃ a : PhysAddr, a.val = address.val + n * 0x1000 ∧
      Event.pvalidate a .small v (.ok ()) ∈ events := by
  generalize ended : (Except.ok () : Except Stop Unit) = result at run
  induction run with
  | done => exact fun _ mem => absurd mem List.not_mem_nil
  | beyond => cases ended
  | failed => cases ended
  | @next n rest a _ _ place _ ih =>
      intro n' mem
      rcases List.mem_cons.mp mem with rfl | later
      · exact ⟨a, val_of_add? place, List.mem_cons_self⟩
      · obtain ⟨a', here, call⟩ := ih ended n' later
        exact ⟨a', here, List.mem_cons_of_mem _ call⟩

/-- As far as memory reaches, all pages can be done. -/
theorem PagesRun.exists_ok {first : PhysAddr} (v : Validation) {ns : List Nat}
    (within : ∀ n ∈ ns, first.val + n * PageSize.small.bytes < physicalLimit) :
    ∃ events, PagesRun first v ns events (.ok ()) := by
  induction ns with
  | nil => exact ⟨[], .done⟩
  | cons n rest ih =>
      obtain ⟨events, run⟩ := ih fun n' mem => within n' (List.mem_cons_of_mem _ mem)
      have place : first.add? (n * PageSize.small.bytes) =
          some ⟨first.val + n * PageSize.small.bytes, within n List.mem_cons_self⟩ :=
        PhysAddr.ofNat?_eq_some_iff.mpr rfl
      exact ⟨_, .next place run⟩

/-- A block that ends in memory can be found split and be done nonetheless. -/
theorem BlockRun.exists_split (address : PhysAddr) (v : Validation)
    (within : address.val + PageSize.large.bytes ≤ physicalLimit) :
    ∃ events, BlockRun address v .large
      (.pvalidate address .large v (.error .sizeMismatch) :: events) (.ok ()) := by
  obtain ⟨events, run⟩ : ∃ events,
      PagesRun address v (List.range smallPagesPerLarge) events (.ok ()) := by
    refine PagesRun.exists_ok v ?_
    intro n mem
    have few := List.mem_range.mp mem
    simp only [PageSize.bytes, smallPagesPerLarge] at *
    omega
  exact ⟨_, .split run⟩

theorem BlockRun.marking (run : BlockRun address v size events result) :
    ∀ ev ∈ events, Marking v ⟨address, size⟩ ev := by
  have itself : ∀ size answer, Marking v ⟨address, size⟩ (.pvalidate address size v answer) :=
    fun size answer => .call ⟨address, size⟩ answer fun _ covers => covers
  cases run with
  | whole =>
      intro ev mem
      obtain rfl := List.mem_singleton.mp mem
      exact itself _ _
  | failed =>
      intro ev mem
      obtain rfl := List.mem_singleton.mp mem
      exact itself _ _
  | split pages =>
      intro ev mem
      rcases List.mem_cons.mp mem with rfl | mem
      · exact itself _ _
      · rcases List.mem_cons.mp mem with rfl | later
        · exact .log _
        · exact pages.marking (fun n mem => List.mem_range.mp mem) ev later

/-- When a block is done, none of its pages is left out. -/
theorem BlockRun.marked (run : BlockRun address v size events (.ok ()))
    (aligned : 0x1000 ∣ address.val) {page : Nat}
    (covers : (⟨address, size⟩ : Block).Covers page) :
    Marked events v ⟨address, size⟩ page := by
  cases run with
  | whole => exact .whole List.mem_cons_self
  | split pages =>
      obtain ⟨low, high⟩ := covers
      have number : page - address.val / 0x1000 ∈ List.range smallPagesPerLarge := by
        simp only [PageSize.bytes, smallPagesPerLarge, List.mem_range] at *
        omega
      obtain ⟨a, here, call⟩ := pages.exists_call _ number
      have place : a.val = page * 0x1000 := by
        simp only at low
        omega
      exact .alone rfl List.mem_cons_self place
        (List.mem_cons_of_mem _ (List.mem_cons_of_mem _ call))

theorem EntriesRun.marking {assignment : Assignment} (run : EntriesRun entries events result)
    (asks : ∀ e ∈ entries, e.assignment? = some assignment) :
    ∀ ev ∈ events, ∃ e ∈ entries, Marking assignment.validation e.block ev := by
  induction run with
  | done => exact fun _ mem => absurd mem List.not_mem_nil
  | invalid => exact fun _ mem => absurd mem List.not_mem_nil
  | @stopped e rest _ _ _ wanted block =>
      cases wanted.symm.trans (asks e List.mem_cons_self)
      exact fun ev mem => ⟨e, List.mem_cons_self, block.marking ev mem⟩
  | @next e rest _ _ _ _ wanted block _ ih =>
      cases wanted.symm.trans (asks e List.mem_cons_self)
      intro ev mem
      rcases List.mem_append.mp mem with first | later
      · exact ⟨e, List.mem_cons_self, block.marking ev first⟩
      · have asks' := fun e' mem' => asks e' (List.mem_cons_of_mem e mem')
        obtain ⟨e', mem', marks⟩ := ih asks' ev later
        exact ⟨e', List.mem_cons_of_mem _ mem', marks⟩

theorem EntriesRun.marked {assignment : Assignment} (run : EntriesRun entries events (.ok ()))
    (asks : ∀ e ∈ entries, e.assignment? = some assignment) :
    ∀ e ∈ entries, ∀ page, e.block.Covers page →
      Marked events assignment.validation e.block page := by
  generalize ended : (Except.ok () : Except Stop Unit) = result at run
  induction run with
  | done => exact fun _ mem => absurd mem List.not_mem_nil
  | invalid => cases ended
  | stopped => cases ended
  | @next e rest _ _ _ _ wanted block _ ih =>
      cases wanted.symm.trans (asks e List.mem_cons_self)
      intro e' mem page covers
      rcases List.mem_cons.mp mem with rfl | later
      · exact (block.marked e'.dvd_address covers).mono (List.subset_append_left _ _)
      · exact (ih (fun e' mem' => asks e' (List.mem_cons_of_mem _ mem')) ended e' later page
          covers).mono (List.subset_append_right _ _)

/-! ## The exchanges of a run -/

theorem flatten_requests (entries : List Entry) : (requests entries).flatten = entries := by
  induction entries using requests.induct with
  | case1 => rw [requests, List.flatten_nil]
  | case2 e rest ih =>
      rw [requests, List.flatten_cons, ih]
      exact List.take_append_drop maxEntries (e :: rest)

/-- Entries that fit into one request make one. -/
theorem requests_of_length_le {e : Entry} {rest : List Entry}
    (few : (e :: rest).length ≤ maxEntries) : requests (e :: rest) = [e :: rest] := by
  have beyond : rest.drop (maxEntries - 1) = [] := by
    rw [List.length_cons] at few
    exact List.drop_eq_nil_of_le (Nat.le_sub_of_add_le few)
  rw [requests, beyond, requests, List.take_of_length_le few]

/-- A run exchanges the requests it is given, and nothing else. -/
theorem RequestsRun.exchange {requests : List (List Entry)}
    (run : RequestsRun requests events result) :
    ∀ ev ∈ events, ∃ request ∈ requests, ∃ answer, ev = .exchange request answer := by
  induction run with
  | done => exact fun _ mem => absurd mem List.not_mem_nil
  | @failed request rest stop =>
      intro ev mem
      exact ⟨request, List.mem_cons_self, _, List.mem_singleton.mp mem⟩
  | @next request rest _ _ _ ih =>
      intro ev mem
      rcases List.mem_cons.mp mem with rfl | later
      · exact ⟨request, List.mem_cons_self, _, rfl⟩
      · obtain ⟨request', mem', same⟩ := ih ev later
        exact ⟨request', List.mem_cons_of_mem _ mem', same⟩

/-- One way to go is that the hypervisor grants every request. -/
theorem RequestsRun.granted (requests : List (List Entry)) :
    RequestsRun requests (requests.map fun request => .exchange request (.ok ())) (.ok ()) := by
  induction requests with
  | nil => exact .done
  | cons request rest ih => exact .next ih

theorem RequestsRun.exchanged {requests : List (List Entry)}
    (run : RequestsRun requests events result) (ended : result = .ok ()) :
    ∀ request ∈ requests, Event.exchange request (.ok ()) ∈ events := by
  induction run with
  | done => exact fun _ mem => absurd mem List.not_mem_nil
  | failed => cases ended
  | next _ ih =>
      intro request mem
      rcases List.mem_cons.mp mem with rfl | later
      · exact List.mem_cons_self
      · exact List.mem_cons_of_mem _ (ih ended request later)

theorem RequestsRun.handed (run : RequestsRun (requests entries) events (.ok ())) :
    ∀ e ∈ entries, ∀ page, e.block.Covers page → Handed events page := by
  intro e mem page covers
  rw [← flatten_requests entries] at mem
  obtain ⟨request, mem', mem''⟩ := List.mem_flatten.mp mem
  exact ⟨request, run.exchanged rfl request mem', e, mem'', covers⟩

end SnpMemory.Change

/-
# `SnpMemory.Proofs.Ordering` — what has happened before each request of a change

Two things must never be true of a page at once: that the hypervisor may use it
and that it carries the guest's mark.  A change of memory keeps them apart by the
order of its requests, at every point of every run:

    to shared       an exchange hands over a page     ⟹  its mark was taken off before
    to the guest    a call puts a mark on a page      ⟹  the page was handed over before

`Safe` is this rule for one request, and `safe_of_reaches` says that every request
obeys it.  What carries the proof is a rule that also fixes the mark, the
assignment and the range (`Proper`); it holds along a run because it holds of each
part and is never lost as the run goes on (`Proper.mono`).
-/
import SnpMemory.Proofs.Marking

namespace SnpMemory.Change

/-! ## Rules along a run -/

/-- Each of the requests obeys a rule about it and the events before it. -/
def Throughout (rule : List Event → Call → Prop) : (past : List Event) → List Event → Prop
  | _, [] => True
  | past, ev :: rest => rule past ev.1 ∧ Throughout rule (past ++ [ev]) rest

section

variable {rule : List Event → Call → Prop} {past events more : List Event}

theorem throughout_append :
    Throughout rule past (events ++ more) ↔
      Throughout rule past events ∧ Throughout rule (past ++ events) more := by
  induction events generalizing past with
  | nil => simp [Throughout]
  | cons ev rest ih =>
      rw [List.cons_append, Throughout, Throughout, ih, and_assoc, List.append_assoc,
        List.singleton_append]

theorem Throughout.at {before after : List Event} {ev : Event}
    (h : Throughout rule past (before ++ ev :: after)) : rule (past ++ before) ev.1 :=
  (throughout_append.mp h).2.1

theorem Throughout.exists_past {ev : Event} (h : Throughout rule past events) (mem : ev ∈ events) :
    ∃ past', rule past' ev.1 := by
  obtain ⟨before, after, rfl⟩ := List.append_of_mem mem
  exact ⟨past ++ before, h.at⟩

/-- A rule that later events do not break holds throughout if it holds from the start. -/
theorem throughout_of_forall
    (mono : ∀ {past past' call}, past ⊆ past' → rule past call → rule past' call)
    (h : ∀ ev ∈ events, rule past ev.1) : Throughout rule past events := by
  induction events generalizing past with
  | nil => trivial
  | cons ev rest ih =>
      refine ⟨h ev List.mem_cons_self, ih fun ev' mem => ?_⟩
      exact mono (List.subset_append_left _ _) (h ev' (List.mem_cons_of_mem _ mem))

end

/-! ## The rule for a request -/

/-- What an order may ask for after some events.  A call puts the mark of the order's
assignment on pages of its range, and if these are to become the guest's own, they
have been handed over.  An exchange is about pages of the range and asks for the
order's assignment, and if these are to become shared, their marks are gone. -/
def Proper (order : Order) (past : List Event) : Call → Prop
  | .pvalidate address size v =>
    v = order.assignment.validation ∧ ∀ page, (⟨address, size⟩ : Block).Covers page →
      order.Spans page ∧ (order.assignment = .guestOnly → Handed past page)
  | .exchange entries =>
    ∀ e ∈ entries, e.assignment? = some order.assignment ∧ ∀ page, e.block.Covers page →
      order.Spans page ∧ (order.assignment = .shared → Marked past .unvalidated e.block page)
  | .terminate => False
  | .log _ => True

variable {order : Order} {past past' events : List Event} {result : Except Stop Unit}
  {entries : List Entry}

theorem Proper.mono {call : Call} (sub : past ⊆ past') (h : Proper order past call) :
    Proper order past' call := by
  cases call with
  | pvalidate address size v =>
      refine ⟨h.1, fun page covers => ?_⟩
      obtain ⟨spans, handed⟩ := h.2 page covers
      exact ⟨spans, fun own => (handed own).mono sub⟩
  | exchange entries =>
      refine fun e mem => ⟨(h e mem).1, fun page covers => ?_⟩
      obtain ⟨spans, marked⟩ := (h e mem).2 page covers
      exact ⟨spans, fun shared => (marked shared).mono sub⟩
  | terminate => exact h
  | log line => trivial

/-- The entries ask for the order's assignment of pages in its range. -/
def Asked (order : Order) (entries : List Entry) : Prop :=
  ∀ e ∈ entries, e.assignment? = some order.assignment ∧
    ∀ page, e.block.Covers page → order.Spans page

theorem EntriesRun.proper (run : EntriesRun entries events result) (asked : Asked order entries)
    (handed : order.assignment = .guestOnly →
      ∀ e ∈ entries, ∀ page, e.block.Covers page → Handed past page) :
    Throughout (Proper order) past events := by
  refine throughout_of_forall (fun sub h => h.mono sub) ?_
  intro ev mem
  obtain ⟨e, mem', marking⟩ := run.marking (fun e mem => (asked e mem).1) ev mem
  cases marking with
  | log line => trivial
  | call b _ inside =>
      refine ⟨rfl, fun page covers => ?_⟩
      have covers' := inside page covers
      exact ⟨(asked e mem').2 page covers', fun own => handed own e mem' page covers'⟩

theorem RequestsRun.proper (run : RequestsRun (requests entries) events result)
    (asked : Asked order entries)
    (marked : order.assignment = .shared →
      ∀ e ∈ entries, ∀ page, e.block.Covers page → Marked past .unvalidated e.block page) :
    Throughout (Proper order) past events := by
  refine throughout_of_forall (fun sub h => h.mono sub) ?_
  intro ev mem
  obtain ⟨request, mem', answer, rfl⟩ := run.exchange ev mem
  intro e mem''
  have whole : e ∈ entries := by
    rw [← flatten_requests entries]
    exact List.mem_flatten.mpr ⟨request, mem', mem''⟩
  refine ⟨(asked e whole).1, fun page covers => ?_⟩
  exact ⟨(asked e whole).2 page covers, fun shared => marked shared e whole page covers⟩

theorem BatchRun.proper (run : BatchRun entries order.assignment events result)
    (asked : Asked order entries) : Throughout (Proper order) past events := by
  have asks := fun e mem => (asked e mem).1
  cases direction : order.assignment with
  | shared =>
      have never : order.assignment ≠ .guestOnly := by rw [direction]; decide
      rw [direction] at run asks
      cases run with
      | stopped h => exact h.proper asked fun own => absurd own never
      | through h h' =>
          refine throughout_append.mpr ⟨h.proper asked fun own => absurd own never, ?_⟩
          refine h'.proper asked ?_
          intro _ e mem page covers
          exact (h.marked asks e mem page covers).mono (List.subset_append_right _ _)
  | guestOnly =>
      have never : order.assignment ≠ .shared := by rw [direction]; decide
      rw [direction] at run
      cases run with
      | stopped h => exact h.proper asked fun shared => absurd shared never
      | through h h' =>
          refine throughout_append.mpr ⟨h.proper asked fun shared => absurd shared never, ?_⟩
          refine h'.proper asked ?_
          intro _ e mem page covers
          exact (h.handed e mem page covers).mono (List.subset_append_right _ _)

/-- The induction over the batches: what is left of the range is asked for as well. -/
theorem RangeRun.proper {capacity address : Nat}
    (run : RangeRun order.goal capacity address events result)
    (asked : Asked order (order.goal.tiling address)) :
    Throughout (Proper order) past events := by
  induction run generalizing past with
  | done => trivial
  | limited => trivial
  | stopped _ walked batch =>
      rw [Goal.tiling_eq_append walked] at asked
      exact batch.proper fun e mem => asked e (List.mem_append_left _ mem)
  | next _ walked batch _ ih =>
      rw [Goal.tiling_eq_append walked] at asked
      exact throughout_append.mpr
        ⟨batch.proper fun e mem => asked e (List.mem_append_left _ mem),
          ih fun e mem => asked e (List.mem_append_right _ mem)⟩

theorem asked_tiling (within : order.stop ≤ physicalLimit) :
    Asked order (order.goal.tiling order.start.start.val) := by
  intro e mem
  obtain ⟨place, fits, low, high⟩ := (Order.tiles within).exists_fits mem
  refine ⟨fits.assignment_eq, fun page covers => ?_⟩
  simp only [Block.Covers, Entry.block, fits.address_eq] at covers
  exact ⟨by omega, Nat.lt_of_lt_of_le covers.2 high⟩

theorem OrderRun.proper {capacity : Nat} (run : OrderRun order capacity events result) :
    Throughout (Proper order) [] events := by
  cases run with
  | noRoom => trivial
  | noRange => trivial
  | accepted _ within run => exact ⟨trivial, run.proper (asked_tiling within)⟩

/-! ## Every point of every run -/

instance (call : Call) : Nonempty (calls.Answer call) := by
  cases call with
  | pvalidate => exact ⟨.ok ()⟩
  | exchange => exact ⟨.ok ()⟩
  | terminate => exact ⟨()⟩
  | log => exact ⟨()⟩

/-- Whatever an order asks for on the way to any point is proper when it is asked. -/
theorem throughout_of_reaches {slots : List Entry}
    {q : Program calls (Except Stop Unit × List Entry)}
    (h : ((tryChange order).play slots).Reaches events q) :
    Throughout (Proper order) [] events := by
  obtain ⟨after, ⟨result, s'⟩, ends⟩ := h.exists_end
  exact (throughout_append.mp (exists_ends_tryChange_iff.mp ⟨s', ends⟩).proper).1

theorem proper_of_reaches {slots : List Entry} {call : Call}
    {k : calls.Answer call → Program calls (Except Stop Unit × List Entry)}
    (h : ((tryChange order).play slots).Reaches past (.ask call k)) : Proper order past call := by
  obtain ⟨answer, after, ⟨result, s'⟩, ends⟩ := h.exists_answered
  exact (exists_ends_tryChange_iff.mp ⟨s', ends⟩).proper.at

/-- The rule of ordering for one request, by the direction of the change. -/
def Safe (past : List Event) : Assignment → Call → Prop
  | .shared, .pvalidate _ _ v => v ≠ .validated
  | .shared, .exchange entries =>
    ∀ e ∈ entries, ∀ page, e.block.Covers page → Marked past .unvalidated e.block page
  | .guestOnly, .pvalidate address size v =>
    v ≠ .unvalidated ∧ ∀ page, (⟨address, size⟩ : Block).Covers page → Handed past page
  | _, _ => True

theorem Proper.safe {call : Call} (h : Proper order past call) :
    Safe past order.assignment call := by
  cases direction : order.assignment with
  | shared =>
      cases call with
      | pvalidate address size v =>
          rw [h.1, direction]
          exact fun same => by cases same
      | exchange entries =>
          exact fun e mem page covers => (((h e mem).2 page covers).2 direction)
      | terminate => trivial
      | log line => trivial
  | guestOnly =>
      cases call with
      | pvalidate address size v =>
          obtain ⟨mark, handed⟩ := h
          rw [direction] at mark
          exact ⟨by rw [mark]; decide, fun page covers => (handed page covers).2 direction⟩
      | exchange entries => trivial
      | terminate => trivial
      | log line => trivial

/-- **Ordering safety.**  Whenever an order makes a request, on whatever buffer and after
whatever answers, the request is safe: pages on their way to the hypervisor have lost
their marks before the exchange that hands them over, and pages on their way to the
guest are handed over before they get a mark. -/
theorem safe_of_reaches (order : Order) (buffer : List Entry) {events : List Event} {call : Call}
    {k : calls.Answer call → Program calls (Except Stop Unit × List Entry)}
    (h : ((tryChange order).play buffer).Reaches events (.ask call k)) :
    Safe events order.assignment call :=
  (proper_of_reaches h).safe

/-- An order to share the 2MiB block at `0x200000`. -/
def shareBlock : Order where
  start := ⟨⟨0x200000, by decide⟩, by decide⟩
  pageCount := 512
  assignment := .shared
  useLarge := true

def shareBlockEntry : Entry := .ofPage ⟨0x200000, by decide⟩ .large .shared

/-- The block is found split, loses its marks page by page, and only then is handed over. -/
theorem safe_of_reaches_shareBlock :
    ∃ events k,
      ((tryChange shareBlock).play [.zero]).Reaches events (.ask (.exchange [shareBlockEntry]) k) ∧
      Event.pvalidate shareBlockEntry.address .large .unvalidated (.error .sizeMismatch) ∈ events ∧
      Safe events .shared (.exchange [shareBlockEntry]) := by
  obtain ⟨events, block⟩ := BlockRun.exists_split shareBlockEntry.address .unvalidated (by decide)
  have handing : RequestsRun (requests [shareBlockEntry])
      [.exchange [shareBlockEntry] (.ok ())] (.ok ()) := by
    rw [requests_of_length_le (by decide)]
    exact .granted [[shareBlockEntry]]
  have run : OrderRun shareBlock [Entry.zero].length _ (.ok ()) :=
    .accepted (by decide) (by decide) (.next (by decide) rfl
      (.through (.next (Entry.assignment?_ofPage _ _ _) block .done) handing)
      (.done (Nat.le_refl _)))
  obtain ⟨s', ends⟩ := exists_ends_tryChange_iff.mpr run
  rw [List.append_nil, List.append_nil, ← List.cons_append] at ends
  obtain ⟨k, reaches, -⟩ := Program.Reaches.exists_ask ends
  exact ⟨_, k, reaches, List.mem_cons_of_mem _ List.mem_cons_self,
    safe_of_reaches shareBlock [.zero] reaches⟩

end SnpMemory.Change

/-
# `SnpMemory.Proofs.PageMap` — no page is both shared and marked, ever

The map of memory says of each page whose it is and whether it carries the guest's
mark.  No program sees it: PVALIDATE changes the marks, the hypervisor changes the
assignments, and all that comes back is an answer (`PageMap.Step`).  An exchange
that fails may have been carried out for any of its pages.

A map is sound when no page of it is both shared and marked.  Soundness alone is not
kept by a step, for a step may share a page whose mark was taken off only before.
The invariant therefore remembers what the change under way has done (`Underway`):

    to shared       a page with a successful call in the past has no mark now
    to the guest    a page that was handed over is the guest's own now

Each proper request keeps it (`Underway.step`), so each point of a change has it, and
its first clause is all that the next change starts from.  Thus histories of changes
keep a map sound whatever ranges they are about and however they end.
-/
import SnpMemory.Proofs.Ordering

namespace SnpMemory

open Change (Event Order)

/-! ## The map of memory -/

/-- What memory says of one 4KiB page. -/
structure PageState where
  assignment : Assignment
  validation : Validation
deriving DecidableEq

/-- The state of each page, by its number. -/
abbrev PageMap : Type := Nat → PageState

namespace PageMap

/-- The map after a successful PVALIDATE. -/
def mark (m : PageMap) (b : Block) (v : Validation) : PageMap := fun page =>
  if b.Covers page then { m page with validation := v } else m page

/-- The map after the hypervisor has carried out an entry. -/
def assign (m : PageMap) (e : Entry) : PageMap := fun page =>
  match e.assignment? with
  | some assignment => if e.block.Covers page then { m page with assignment } else m page
  | none => m page

def assignAll (m : PageMap) (entries : List Entry) : PageMap := entries.foldl assign m

/-- What an event can do to the map. -/
inductive Step (m : PageMap) : Event → PageMap → Prop
  | marked (address : PhysAddr) (size : PageSize) (v : Validation) :
      Step m (.pvalidate address size v (.ok ())) (m.mark ⟨address, size⟩ v)
  | refused (address : PhysAddr) (size : PageSize) (v : Validation) (error : PvalidateError) :
      Step m (.pvalidate address size v (.error error)) m
  | granted (entries : List Entry) :
      Step m (.exchange entries (.ok ())) (m.assignAll entries)
  /-- Any of the pages may have been assigned before the exchange failed. -/
  | partly {m' : PageMap} (entries : List Entry) (stop : Stop) :
      (∀ page, m' page = m page ∨ m' page = m.assignAll entries page) →
      Step m (.exchange entries (.error stop)) m'
  | terminated : Step m ⟨.terminate, ()⟩ m
  | logged (line : LogLine) : Step m (.log line) m

/-- The map goes through the events of a run. -/
inductive Evolves : PageMap → List Event → PageMap → Prop
  | nil (m : PageMap) : Evolves m [] m
  | cons {m mid m' : PageMap} {ev : Event} {rest : List Event} :
      Step m ev mid → Evolves mid rest m' → Evolves m (ev :: rest) m'

/-- No page is both shared and marked. -/
def Sound (m : PageMap) : Prop :=
  ∀ page, ¬ ((m page).assignment = .shared ∧ (m page).validation = .validated)

variable {m m' : PageMap}

theorem evolves_append {first last : List Event} :
    Evolves m (first ++ last) m' ↔ ∃ mid, Evolves m first mid ∧ Evolves mid last m' := by
  induction first generalizing m with
  | nil =>
      constructor
      · intro h
        exact ⟨m, .nil m, h⟩
      · rintro ⟨mid, h, h'⟩
        cases h
        exact h'
  | cons ev first ih =>
      constructor
      · intro h
        cases h with
        | cons step h =>
            obtain ⟨mid, h₁, h₂⟩ := ih.mp h
            exact ⟨mid, .cons step h₁, h₂⟩
      · rintro ⟨mid, h, h'⟩
        cases h with
        | cons step h => exact .cons step (ih.mpr ⟨mid, h, h'⟩)

/-! ## What the steps do to one page -/

variable {b : Block} {v : Validation} {e : Entry} {entries : List Entry} {a : Assignment}
  {page : Nat}

theorem mark_of_covers (covers : b.Covers page) :
    m.mark b v page = { m page with validation := v } := if_pos covers

theorem mark_of_not_covers (off : ¬ b.Covers page) : m.mark b v page = m page := if_neg off

theorem assign_of_covers (asks : e.assignment? = some a) (covers : e.block.Covers page) :
    m.assign e page = { m page with assignment := a } := by
  simp only [assign, asks, if_pos covers]

theorem assign_of_not_covers (off : ¬ e.block.Covers page) : m.assign e page = m page := by
  unfold assign
  cases e.assignment? with
  | none => rfl
  | some assignment => exact if_neg off

theorem assignAll_of_not_covers (off : ∀ e ∈ entries, ¬ e.block.Covers page) :
    m.assignAll entries page = m page := by
  induction entries generalizing m with
  | nil => rfl
  | cons e rest ih =>
      have tail : (m.assign e).assignAll rest page = m.assign e page :=
        ih fun e' mem => off e' (List.mem_cons_of_mem _ mem)
      exact tail.trans (assign_of_not_covers (off e List.mem_cons_self))

/-- Entries that ask for the same assignment give it to each page of theirs. -/
theorem assignAll_of_covers (asks : ∀ e ∈ entries, e.assignment? = some a)
    (covers : ∃ e ∈ entries, e.block.Covers page) :
    m.assignAll entries page = { m page with assignment := a } := by
  induction entries generalizing m with
  | nil =>
      obtain ⟨e, mem, -⟩ := covers
      exact absurd mem List.not_mem_nil
  | cons e rest ih =>
      have asks' := fun e' mem => asks e' (List.mem_cons_of_mem e mem)
      have first : m.assign e page = m page ∨
          m.assign e page = { m page with assignment := a } := by
        by_cases here : e.block.Covers page
        · exact Or.inr (assign_of_covers (asks e List.mem_cons_self) here)
        · exact Or.inl (assign_of_not_covers here)
      show (m.assign e).assignAll rest page = _
      by_cases later : ∃ e' ∈ rest, e'.block.Covers page
      · rw [ih asks' later]
        rcases first with same | changed
        · rw [same]
        · rw [changed]
      · have here : e.block.Covers page := by
          obtain ⟨e', mem, covers⟩ := covers
          rcases List.mem_cons.mp mem with rfl | mem
          · exact covers
          · exact absurd ⟨e', mem, covers⟩ later
        rw [assignAll_of_not_covers fun e' mem covers => later ⟨e', mem, covers⟩]
        exact assign_of_covers (asks e List.mem_cons_self) here

end PageMap

namespace Change

variable {order : Order} {past past' events : List Event} {ev : Event} {m m' : PageMap}
  {v : Validation} {page : Nat}

/-! ## The change under way -/

/-- A successful call was about the page. -/
def Called (past : List Event) (v : Validation) (page : Nat) : Prop :=
  ∃ b : Block, b.Covers page ∧ Event.pvalidate b.address b.size v (.ok ()) ∈ past

theorem called_snoc :
    Called (past ++ [ev]) v page ↔
      Called past v page ∨
        ∃ b : Block, b.Covers page ∧ ev = .pvalidate b.address b.size v (.ok ()) := by
  constructor
  · rintro ⟨b, covers, mem⟩
    rcases List.mem_append.mp mem with before | now
    · exact Or.inl ⟨b, covers, before⟩
    · exact Or.inr ⟨b, covers, (List.mem_singleton.mp now).symm⟩
  · rintro (⟨b, covers, before⟩ | ⟨b, covers, rfl⟩)
    · exact ⟨b, covers, List.mem_append_left _ before⟩
    · exact ⟨b, covers, List.mem_append_right _ List.mem_cons_self⟩

theorem handed_snoc :
    Handed (past ++ [ev]) page ↔
      Handed past page ∨
        ∃ entries, ev = .exchange entries (.ok ()) ∧ ∃ e ∈ entries, e.block.Covers page := by
  constructor
  · rintro ⟨entries, mem, covers⟩
    rcases List.mem_append.mp mem with before | now
    · exact Or.inl ⟨entries, before, covers⟩
    · exact Or.inr ⟨entries, (List.mem_singleton.mp now).symm, covers⟩
  · rintro (⟨entries, before, covers⟩ | ⟨entries, rfl, covers⟩)
    · exact ⟨entries, List.mem_append_left _ before, covers⟩
    · exact ⟨entries, List.mem_append_right _ List.mem_cons_self, covers⟩

/-- What is true of a page while an order is carried out, after the events in `past`. -/
structure Underway (order : Order) (past : List Event) (page : Nat) (s : PageState) : Prop where
  sound : ¬ (s.assignment = .shared ∧ s.validation = .validated)
  unmarked : order.assignment = .shared → Called past .unvalidated page →
    s.validation = .unvalidated
  owned : order.assignment = .guestOnly → Handed past page → s.assignment = .guestOnly

section

variable {s : PageState}

theorem Underway.start (sound : ¬ (s.assignment = .shared ∧ s.validation = .validated)) :
    Underway order [] page s where
  sound := sound
  unmarked _ called := by
    obtain ⟨b, -, mem⟩ := called
    exact absurd mem List.not_mem_nil
  owned _ handed := by
    obtain ⟨entries, mem, -⟩ := handed
    exact absurd mem List.not_mem_nil

/-- An event that is not about the page. -/
theorem Underway.passed (h : Underway order past page s)
    (called : Called past' .unvalidated page → Called past .unvalidated page)
    (handed : Handed past' page → Handed past page) : Underway order past' page s where
  sound := h.sound
  unmarked shared now := h.unmarked shared (called now)
  owned own now := h.owned own (handed now)

/-- The mark of the order may be put on a page that is the guest's own if it has to be. -/
theorem Underway.marked (h : Underway order past page s)
    (own : order.assignment = .guestOnly → Handed past page)
    (handed : Handed past' page → Handed past page) :
    Underway order past' page { s with validation := order.assignment.validation } where
  sound := by
    rintro ⟨shared, validated⟩
    cases direction : order.assignment with
    | shared =>
        simp only [direction] at validated
        cases validated
    | guestOnly =>
        have mine := h.owned direction (own direction)
        cases mine.symm.trans shared
  unmarked shared _ := by
    simp only [shared]
    rfl
  owned direction now := h.owned direction (handed now)

/-- The page may become shared if its mark is gone. -/
theorem Underway.assigned (h : Underway order past page s)
    (gone : order.assignment = .shared → Called past .unvalidated page)
    (called : Called past' .unvalidated page → Called past .unvalidated page) :
    Underway order past' page { s with assignment := order.assignment } where
  sound := by
    rintro ⟨shared, validated⟩
    have unmarked := h.unmarked shared (gone shared)
    cases unmarked.symm.trans validated
  unmarked shared now := h.unmarked shared (called now)
  owned direction _ := direction

end

theorem handed_of_snoc_call {call : Call} {answer : call.Answer}
    (other : ∀ entries, call ≠ .exchange entries)
    (now : Handed (past ++ [⟨call, answer⟩]) page) : Handed past page := by
  rcases handed_snoc.mp now with before | ⟨entries, same, -⟩
  · exact before
  · exact absurd (congrArg Sigma.fst same) (other entries)

theorem called_of_snoc_call {call : Call} {answer : call.Answer}
    (other : ∀ address size v, call ≠ .pvalidate address size v)
    (now : Called (past ++ [⟨call, answer⟩]) v page) : Called past v page := by
  rcases called_snoc.mp now with before | ⟨b, -, same⟩
  · exact before
  · exact absurd (congrArg Sigma.fst same) (other _ _ _)

/-- What an exchange makes of the pages it carries out. -/
theorem Underway.exchanged {entries : List Entry} {answer : Except Stop Unit}
    (h : Underway order past page (m page)) (proper : Proper order past (.exchange entries)) :
    Underway order (past ++ [.exchange entries answer]) page (m.assignAll entries page) := by
  have called : Called (past ++ [.exchange entries answer]) .unvalidated page →
      Called past .unvalidated page := called_of_snoc_call fun _ _ _ same => by cases same
  by_cases covered : ∃ e ∈ entries, e.block.Covers page
  · rw [PageMap.assignAll_of_covers (fun e mem => (proper e mem).1) covered]
    refine h.assigned (fun shared => ?_) called
    obtain ⟨e, mem, covers⟩ := covered
    exact (((proper e mem).2 page covers).2 shared).exists_call covers
  · rw [PageMap.assignAll_of_not_covers fun e mem covers => covered ⟨e, mem, covers⟩]
    refine h.passed called ?_
    intro now
    rcases handed_snoc.mp now with before | ⟨entries', same, covers⟩
    · exact before
    · cases same
      exact absurd covers covered

/-- The step lemma: whatever a proper request does to the map, each page of it stays as
the change under way needs it. -/
theorem Underway.step (h : ∀ page, Underway order past page (m page))
    (proper : Proper order past ev.1) (step : m.Step ev m') (page : Nat) :
    Underway order (past ++ [ev]) page (m' page) := by
  cases step with
  | marked address size v =>
      obtain ⟨mark, inside⟩ := proper
      by_cases covers : (⟨address, size⟩ : Block).Covers page
      · rw [PageMap.mark_of_covers covers, mark]
        exact (h page).marked (inside page covers).2
          (handed_of_snoc_call fun _ same => by cases same)
      · rw [PageMap.mark_of_not_covers covers]
        refine (h page).passed (fun now => ?_) (handed_of_snoc_call fun _ same => by cases same)
        rcases called_snoc.mp now with before | ⟨b, covers', same⟩
        · exact before
        · cases same
          exact absurd covers' covers
  | refused address size v error =>
      refine (h page).passed (fun now => ?_) (handed_of_snoc_call fun _ same => by cases same)
      rcases called_snoc.mp now with before | ⟨b, -, same⟩
      · exact before
      · cases same
  | granted entries => exact (h page).exchanged proper
  | partly entries stop which =>
      rcases which page with same | same
      · rw [same]
        refine (h page).passed (called_of_snoc_call fun _ _ _ same => by cases same) ?_
        intro now
        rcases handed_snoc.mp now with before | ⟨entries', same, -⟩
        · exact before
        · cases same
      · rw [same]
        exact (h page).exchanged proper
  | terminated => exact proper.elim
  | logged line =>
      exact (h page).passed (called_of_snoc_call fun _ _ _ same => by cases same)
        (handed_of_snoc_call fun _ same => by cases same)

/-- The run lemma: the invariant holds after each part of a run of proper requests. -/
theorem Underway.evolves (h : ∀ page, Underway order past page (m page))
    (proper : Throughout (Proper order) past events) (evolves : m.Evolves events m')
    (page : Nat) : Underway order (past ++ events) page (m' page) := by
  induction evolves generalizing past with
  | nil =>
      rw [List.append_nil]
      exact h page
  | cons step rest ih =>
      have next := ih (Underway.step h proper.1 step) proper.2
      rwa [List.append_assoc, List.singleton_append] at next

/-! ## Pages that an order is not about -/

theorem eq_of_step_of_not_spans (proper : Proper order past ev.1) (step : m.Step ev m')
    (outside : ¬ order.Spans page) : m' page = m page := by
  have off : ∀ entries, Proper order past (.exchange entries) →
      m.assignAll entries page = m page := by
    intro entries asked
    refine PageMap.assignAll_of_not_covers ?_
    intro e mem covers
    exact outside ((asked e mem).2 page covers).1
  cases step with
  | marked address size v =>
      exact PageMap.mark_of_not_covers fun covers => outside (proper.2 page covers).1
  | refused => rfl
  | granted entries => exact off entries proper
  | partly entries stop which =>
      rcases which page with same | same
      · exact same
      · rw [same, off entries proper]
  | terminated => rfl
  | logged => rfl

theorem eq_of_evolves_of_not_spans (proper : Throughout (Proper order) past events)
    (evolves : m.Evolves events m') (outside : ¬ order.Spans page) : m' page = m page := by
  induction evolves generalizing past with
  | nil => rfl
  | cons step rest ih => rw [ih proper.2, eq_of_step_of_not_spans proper.1 step outside]

/-! ## Histories -/

/-- Orders are carried out one after the other, each on its own buffer, whatever becomes
of those before it. -/
def changeAll : List (Order × List Entry) → Program calls Unit
  | [] => pure ()
  | (order, buffer) :: rest => do
    let _ ← (tryChange order).play buffer
    changeAll rest

/-- One order keeps a map sound, up to any point that it reaches. -/
theorem sound_of_reaches {buffer : List Entry}
    {q : Program calls (Except Stop Unit × List Entry)}
    (h : ((tryChange order).play buffer).Reaches events q) (sound : m.Sound)
    (evolves : m.Evolves events m') : m'.Sound := by
  intro page
  have now := Underway.evolves (fun page => .start (sound page)) (throughout_of_reaches h) evolves
  exact (now page).sound

/-- **The map of memory.**  Let no page be both shared and marked at first.  Then none is
after any event of any history of orders, whatever the orders and their buffers are, how
the requests are answered, and what the exchanges that fail have done before they did.
And up to any point of its run an order leaves the pages outside of its range alone. -/
theorem sound_and_framed :
    (∀ (history : List (Order × List Entry)) (events : List Event) (q : Program calls Unit),
      (changeAll history).Reaches events q →
        ∀ m m' : PageMap, m.Sound → m.Evolves events m' → m'.Sound) ∧
    ∀ (order : Order) (buffer : List Entry) (events : List Event)
      (q : Program calls (Except Stop Unit × List Entry)),
      ((tryChange order).play buffer).Reaches events q →
        ∀ m m' : PageMap, m.Evolves events m' → ∀ page, ¬ order.Spans page → m' page = m page := by
  constructor
  · intro history
    induction history with
    | nil =>
        intro events q h m m' sound evolves
        cases h
        cases evolves
        exact sound
    | cons first rest ih =>
        intro events q h m m' sound evolves
        rcases h.of_bind with ⟨mid, here⟩ | ⟨_, before, after, through, later, rfl⟩
        · exact sound_of_reaches here sound evolves
        · obtain ⟨mid, evolves₁, evolves₂⟩ := PageMap.evolves_append.mp evolves
          exact ih after q later mid m' (sound_of_reaches through sound evolves₁) evolves₂
  · intro order buffer events q h m m' evolves page outside
    exact eq_of_evolves_of_not_spans (throughout_of_reaches h) evolves outside

/-- An order to take back the first page of the block of `shareBlock`. -/
def takePage : Order := { shareBlock with pageCount := 1, assignment := .guestOnly }

/-- The exchange of the first order fails when one page is shared already, and the second
order takes that page back. -/
theorem sound_and_framed_takePage :
    ∃ events m',
      (changeAll [(shareBlock, [.zero]), (takePage, [.zero])]).Reaches events (.done ()) ∧
      PageMap.Evolves (fun _ => ⟨.guestOnly, .validated⟩) events m' ∧ m'.Sound ∧
      m' 0x200 = ⟨.guestOnly, .validated⟩ ∧ m' 0x201 = ⟨.guestOnly, .unvalidated⟩ := by
  let takePageEntry := Entry.ofPage ⟨0x200000, by decide⟩ .small .guestOnly
  have sharing : RequestsRun (requests [shareBlockEntry])
      [.exchange [shareBlockEntry] (.error .terminated)] (.error .terminated) := by
    rw [requests_of_length_le (by decide)]
    exact .failed .terminated
  have taking : RequestsRun (requests [takePageEntry]) [.exchange [takePageEntry] (.ok ())]
      (.ok ()) := by
    rw [requests_of_length_le (by decide)]
    exact .granted [[takePageEntry]]
  have shareRun : OrderRun shareBlock [Entry.zero].length _ (.error .terminated) :=
    .accepted (by decide) (by decide) (.stopped (by decide) rfl
      (.through (.next (Entry.assignment?_ofPage _ _ _) (.whole _) .done) sharing))
  have takeRun : OrderRun takePage [Entry.zero].length _ (.ok ()) :=
    .accepted (by decide) (by decide) (.next (by decide) rfl
      (.through taking (.next (Entry.assignment?_ofPage _ _ _) (.whole _) .done))
      (.done (Nat.le_refl _)))
  obtain ⟨buffer, share⟩ := exists_ends_tryChange_iff.mpr shareRun
  obtain ⟨buffer', take⟩ := exists_ends_tryChange_iff.mpr takeRun
  have history : (changeAll [(shareBlock, [.zero]), (takePage, [.zero])]).Reaches _ (.done ()) :=
    Program.reaches_bind_done.mpr ⟨_, _, _, share,
      Program.reaches_bind_done.mpr ⟨_, _, _, take, .here _, rfl⟩, rfl⟩
  let m₀ : PageMap := fun _ => ⟨.guestOnly, .validated⟩
  let m₁ := m₀.mark shareBlockEntry.block .unvalidated
  let m₂ : PageMap := fun page =>
    if page = 0x200 then m₁.assignAll [shareBlockEntry] page else m₁ page
  let m₃ := m₂.assignAll [takePageEntry]
  let m₄ := m₃.mark takePageEntry.block .validated
  have untouched : ∀ page, m₂ page = m₁ page ∨ m₂ page = m₁.assignAll [shareBlockEntry] page := by
    intro page
    by_cases here : page = 0x200
    · exact Or.inr (if_pos here)
    · exact Or.inl (if_neg here)
  have takes : ∀ line, m₂.Evolves (.log line :: _) m₄ := fun line =>
    .cons (.logged line) (.cons (.granted [takePageEntry])
      (.cons (.marked _ _ .validated) (.nil _)))
  have evolves : ∀ line line', m₀.Evolves (.log line :: _) m₄ := fun line line' =>
    .cons (.logged line) (.cons (.marked _ _ .unvalidated)
      (.cons (.partly [shareBlockEntry] .terminated untouched) (takes line')))
  have sound : m₄.Sound :=
    sound_and_framed.1 _ _ _ history m₀ m₄ (fun page both => by cases both.1) (evolves _ _)
  have framed : m₄ 0x201 = m₂ 0x201 :=
    sound_and_framed.2 takePage _ _ _ take m₂ m₄ (takes _) 0x201 (by decide)
  exact ⟨_, m₄, history, evolves _ _, sound, by decide, framed.trans (by decide)⟩

end Change

end SnpMemory

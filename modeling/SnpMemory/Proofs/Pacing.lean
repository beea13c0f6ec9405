/-
# `SnpMemory.Proofs.Pacing` — how many exits a request takes

A hypervisor may move the position in the header as little as it likes at an exit, also not
at all, if it reports no error and goes no further than past the last entry
(`Exit.MovesBy`).  The number of exits of a request then depends on the advances alone.

What the advances come to is added up without regard to the end of the request (`total`), and
after `n` exits the position is that sum, cut where the request ends (`Pace`).  So the verdict
on an exit is known from the sum, the number of the exit and the limit (`verdictOnPace`):

    the entries are covered        all is done
    not, and the limit is reached  the limit is exceeded
    not, and it is not             another exit

The lines are in this order.  A request that is done by the last exit it may take is done, and
so the number of exits is the least one whose sum covers the entries, if the limit is not less
(`exits_of_paced`).
-/
import SnpMemory.Proofs.ExchangeOutcome
import SnpMemory.Proofs.Processing
import SnpMemory.Proofs.Refusals

namespace SnpMemory.Protocol

/-! ## Sums of advances -/

/-- What the first `n` advances come to. -/
def total (advance : Nat → Nat) : Nat → Nat
  | 0 => 0
  | n + 1 => total advance n + advance n

/-- The least number of advances that come to `count` or more. -/
structure FirstReaches (advance : Nat → Nat) (count n : Nat) : Prop where
  enough : count ≤ total advance n
  before : ∀ m < n, total advance m < count

section

variable {advance : Nat → Nat} {count m n k : Nat}

theorem total_le_total (h : m ≤ n) : total advance m ≤ total advance n := by
  induction h with
  | refl => exact Nat.le_refl _
  | step _ ih => exact Nat.le_trans ih (Nat.le_add_right _ _)

theorem total_eq_mul (constant : ∀ i, advance i = k) (n : Nat) : total advance n = n * k := by
  induction n with
  | zero => exact (Nat.zero_mul k).symm
  | succ n ih => rw [total, ih, constant, Nat.succ_mul]

/-- If some sum is enough, there is a first one that is. -/
theorem exists_firstReaches (enough : count ≤ total advance n) :
    ∃ m ≤ n, FirstReaches advance count m := by
  induction n with
  | zero => exact ⟨0, Nat.le_refl 0, enough, fun m less => absurd less (Nat.not_lt_zero m)⟩
  | succ n ih =>
      by_cases already : count ≤ total advance n
      · obtain ⟨m, within, first⟩ := ih already
        exact ⟨m, Nat.le_succ_of_le within, first⟩
      · refine ⟨n + 1, Nat.le_refl _, enough, fun m less => ?_⟩
        exact Nat.lt_of_le_of_lt (total_le_total (Nat.le_of_lt_succ less)) (Nat.not_le.mp already)

/-- Equal advances divide the count, rounded up. -/
theorem firstReaches_of_constant (pos : 0 < k) (constant : ∀ i, advance i = k) :
    FirstReaches advance count ((count + k - 1) / k) := by
  have covers : ∀ n, count ≤ total advance n ↔ (count + k - 1) / k ≤ n := by
    intro n
    rw [total_eq_mul constant, Nat.div_le_iff_le_mul_add_pred pos, Nat.mul_comm]
    omega
  refine ⟨(covers _).mpr (Nat.le_refl _), fun m less => ?_⟩
  exact Nat.not_le.mp fun enough => absurd ((covers m).mp enough) (Nat.not_le.mpr less)

end

/-! ## Moves of the position -/

/-- The hypervisor reports no error and moves the position by so many entries, cut at one past
the last.  The rest of the page is its own affair. -/
structure Exit.MovesBy (e : Exit) (steps : Nat) : Prop where
  exitInfo1 : e.left.read .exitInfo1 % 0x100000000 = 0
  exitInfo2 : e.left.read .exitInfo2 = 0
  last_eq : e.left.cursor.last = e.shown.cursor.last
  current_eq : e.left.cursor.current =
    min (e.shown.cursor.current + steps) (e.shown.cursor.last + 1)

/-- Exits in a row make the advances of a sequence, from a place in the sequence on. -/
inductive Paced (advance : Nat → Nat) : (n : Nat) → List Exit → Prop
  | nil {n : Nat} : Paced advance n []
  | cons {n : Nat} {e : Exit} {rest : List Exit} :
      e.MovesBy (advance n) → Paced advance (n + 1) rest → Paced advance n (e :: rest)

/-- The header after the first `n` advances. -/
structure Pace (advance : Nat → Nat) (last n : Nat) (g : Ghcb) : Prop where
  last_eq : g.cursor.last = last
  current_eq : g.cursor.current = min (total advance n) (last + 1)

/-- The verdict on exit number `n`, for the sum of the advances up to it. -/
def verdictOnPace (limit : Option ExitLimit) (advance : Nat → Nat) (count n : Nat) :
    Option (Except ChangeError Unit) :=
  if count ≤ total advance n then some (.ok ())
  else if limit.map ExitLimit.count = some n then some (.error (.exitLimitExceeded n))
  else none

variable {p : Protocol} {advance : Nat → Nat} {last room n : Nat} {g g' : Ghcb}

theorem Paced.first_and_rest {e : Exit} {rest : List Exit} (paced : Paced advance n (e :: rest)) :
    e.MovesBy (advance n) ∧ Paced advance (n + 1) rest := by
  cases paced with
  | cons moves later => exact ⟨moves, later⟩

theorem pace_placed {entries : List Entry} (few : entries.length ≤ Change.maxEntries) :
    Pace advance (entries.length - 1) 0 (placed entries) := by
  have header := cursor_placed few
  refine ⟨by rw [header], ?_⟩
  rw [header]
  exact (Nat.zero_min _).symm

theorem Pace.next {gpa : Frame .small} {address : Nat} (pace : Pace advance last n g)
    (moves : Exit.MovesBy ⟨gpa, g.prepareExit address, g'⟩ (advance n)) :
    Pace advance last (n + 1) g' := by
  have last_eq := moves.last_eq
  have current_eq := moves.current_eq
  simp only [Ghcb.cursor_prepareExit, pace.last_eq, pace.current_eq] at last_eq current_eq
  refine ⟨last_eq, ?_⟩
  rw [current_eq, total]
  omega

theorem verdict_of_movesBy {gpa : Frame .small} {address : Nat} {limit : Option ExitLimit}
    (pace : Pace advance last n g)
    (moves : Exit.MovesBy ⟨gpa, g.prepareExit address, g'⟩ (advance n)) :
    verdict limit last g.cursor.current (n + 1) g' =
      verdictOnPace limit advance (last + 1) (n + 1) := by
  obtain ⟨last_eq, current_eq⟩ := pace.next moves
  have onward : ¬ (g'.cursor.last ≠ last ∨ g'.cursor.current < g.cursor.current) := by
    have grows : total advance n ≤ total advance (n + 1) := total_le_total (Nat.le_succ n)
    rw [last_eq, current_eq, pace.current_eq]
    omega
  have passed : last < g'.cursor.current ↔ last + 1 ≤ total advance (n + 1) := by
    rw [current_eq]
    omega
  unfold verdict verdictOnPace
  rw [if_neg (not_not_intro moves.exitInfo1), if_neg (not_not_intro moves.exitInfo2),
    if_neg onward]
  simp only [passed]

/-! ## Runs at a pace -/

/-- The verdicts on the exits that come after the first `n`. -/
def verdictsOnPace (limit : Option ExitLimit) (advance : Nat → Nat) (count n : Nat) (i : Nat) :
    Option (Except ChangeError Unit) :=
  verdictOnPace limit advance count (n + i + 1)

/-- The induction is on the run.  The page is at its pace when an exit begins. -/
theorem ExitsRun.exists_ended_of_paced {events : List Event} {result : Except Stop Nat}
    (run : ExitsRun p last room n g events result g') (pace : Pace advance last n g)
    (paced : Paced advance n (exits events)) :
    ∃ k, (exits events).length = k + 1 ∧
      Ended (verdictsOnPace p.exitLimit advance (last + 1) n) room k (result.map fun _ => ()) := by
  induction run with
  | overflow => exact ⟨0, rfl, fun i less => absurd less (Nat.not_lt_zero i), .inl ⟨rfl, rfl⟩⟩
  | @done room n g _ judged =>
      obtain ⟨moves, -⟩ := Paced.first_and_rest paced
      have first : verdictsOnPace p.exitLimit advance (last + 1) n 0 = some (.ok ()) :=
        (verdict_of_movesBy pace moves).symm.trans judged
      exact ⟨0, rfl, .first (Nat.succ_pos room) first⟩
  | @failed room n g _ error judged =>
      obtain ⟨moves, -⟩ := Paced.first_and_rest paced
      have first : verdictsOnPace p.exitLimit advance (last + 1) n 0 = some (.error error) :=
        (verdict_of_movesBy pace moves).symm.trans judged
      exact ⟨0, rfl, .first (Nat.succ_pos room) first⟩
  | @again room n g mid _ events result judged _ ih =>
      obtain ⟨moves, later⟩ := Paced.first_and_rest paced
      have first : verdictsOnPace p.exitLimit advance (last + 1) n 0 = none :=
        (verdict_of_movesBy pace moves).symm.trans judged
      obtain ⟨k, length, ended⟩ := ih (pace.next moves) later
      refine ⟨k + 1, congrArg (· + 1) length, ended.later (fun i => ?_) first⟩
      have number : n + (i + 1) + 1 = n + 1 + i + 1 := by omega
      unfold verdictsOnPace
      rw [number]

/-- So many exits are taken, and the last of them settles the result. -/
theorem ExchangeRun.exists_ended_of_paced {entries : List Entry} {events : List Event}
    {result : Except Stop Unit} (run : ExchangeRun p entries g events result g')
    (nonempty : 0 < entries.length) (few : entries.length ≤ Change.maxEntries)
    (paced : Paced advance 0 (exits events)) :
    ∃ k, (exits events).length = k + 1 ∧
      Ended (verdictsOnPace p.exitLimit advance entries.length 0) (p.counterRange - 1) k
        result := by
  obtain ⟨during, outcome, exitsRun, same, ended⟩ := run.exists_exitsRun nonempty few
  rw [same] at paced ⊢
  obtain ⟨k, length, ended'⟩ := exitsRun.exists_ended_of_paced (pace_placed few) paced
  rw [Nat.sub_add_cancel nonempty, ← ended] at ended'
  exact ⟨k, length, ended'⟩

section

variable {limit : Option ExitLimit} {count k : Nat} {result : Except Stop Unit}

theorem verdictOnPace_of_le (enough : count ≤ total advance n) :
    verdictOnPace limit advance count n = some (.ok ()) :=
  if_pos enough

theorem verdictOnPace_of_limit {l : ExitLimit} (limited : limit = some l)
    (undone : total advance l.count < count) :
    verdictOnPace limit advance count l.count = some (.error (.exitLimitExceeded l.count)) := by
  subst limited
  unfold verdictOnPace
  rw [if_neg (Nat.not_le.mpr undone)]
  exact if_pos rfl

theorem verdictOnPace_eq_none (undone : total advance n < count)
    (below : ∀ l, limit = some l → l.count ≠ n) :
    verdictOnPace limit advance count n = none := by
  unfold verdictOnPace
  rw [if_neg (Nat.not_le.mpr undone)]
  refine if_neg ?_
  intro reached
  obtain ⟨l, limited, same⟩ := Option.map_eq_some_iff.mp reached
  exact below l limited same

theorem verdictsOnPace_zero (i : Nat) :
    verdictsOnPace limit advance count 0 i = verdictOnPace limit advance count (i + 1) := by
  unfold verdictsOnPace
  rw [Nat.zero_add]

/-- With none before it, a verdict on exit number `n` is the end. -/
theorem Ended.eq_of_verdictOnPace {outcome : Except ChangeError Unit}
    (ended : Ended (verdictsOnPace limit advance count 0) room k result) (pos : 0 < n)
    (within : n ≤ room) (none : ∀ m < n, verdictOnPace limit advance count m = none)
    (judged : verdictOnPace limit advance count n = some outcome) :
    k + 1 = n ∧ result = outcome.mapError .failed := by
  obtain ⟨n, rfl⟩ := Nat.exists_eq_succ_of_ne_zero (Nat.ne_of_gt pos)
  have none' : ∀ i < n, verdictsOnPace limit advance count 0 i = .none :=
    fun i less => (verdictsOnPace_zero i).trans (none (i + 1) (Nat.succ_lt_succ less))
  obtain ⟨rfl, same⟩ := ended.eq_of_verdict within none' ((verdictsOnPace_zero n).trans judged)
  exact ⟨rfl, same⟩

/-- With none at all, the counter comes to its end. -/
theorem Ended.eq_room_of_none
    (ended : Ended (verdictsOnPace limit advance count 0) room k result)
    (none : ∀ m ≤ room, verdictOnPace limit advance count m = none) :
    k = room ∧ result = .error (.fault .wordOverflow) := by
  rcases ended.cause with fault | ⟨less, outcome, judged, -⟩
  · exact fault
  · cases ((verdictsOnPace_zero k).symm.trans judged).symm.trans (none (k + 1) less)

end

/-- **How many exits a request takes.**  Let a request of a permitted length be exchanged in any
world, and let the exits make the advances of some sequence, each cut at the end of the request
and without an error.  If `n` is the least number of advances that cover the entries, and the
limit is not less than `n`, then the exchange ends well after just `n` exits.  If there is no
such number up to the limit, the exchange fails at the limit, after just as many exits.  Equal
advances take the number of entries divided by the advance, rounded up.  All this is as far as
exits can be counted; without a limit, and if the advances do not cover the entries before, the
counter comes to its end. -/
theorem exits_of_paced {σ : Type} (p : Protocol) (world : Program.World calls σ) (s : σ)
    (page : Ghcb) {entries : List Entry} (nonempty : 0 < entries.length)
    (few : entries.length ≤ Change.maxEntries) (advance : Nat → Nat) :
    let run := ((p.exchange entries).play page).run world s #[]
    let result := run.1.1
    let taken := exits run.2.2.toList
    Paced advance 0 taken →
    (∀ n, FirstReaches advance entries.length n → n < p.counterRange →
      (∀ l, p.exitLimit = some l → n ≤ l.count) → result = .ok () ∧ taken.length = n) ∧
    (∀ l, p.exitLimit = some l → l.count < p.counterRange →
      (∀ n, FirstReaches advance entries.length n → l.count < n) →
      result = .error (.failed (.exitLimitExceeded l.count)) ∧ taken.length = l.count) ∧
    (∀ k, 0 < k → (∀ i, advance i = k) →
      let n := (entries.length + k - 1) / k
      n < p.counterRange → (∀ l, p.exitLimit = some l → n ≤ l.count) →
      result = .ok () ∧ taken.length = n) ∧
    (p.exitLimit = none → 0 < p.counterRange →
      (∀ n, FirstReaches advance entries.length n → p.counterRange ≤ n) →
      result = .error (.fault .wordOverflow) ∧ taken.length = p.counterRange) := by
  intro run result taken paced
  have exchange : ExchangeRun p entries page run.2.2.toList result run.1.2 :=
    exchangeRun_of_run p entries page world s
  obtain ⟨k, length, ended⟩ := exchange.exists_ended_of_paced nonempty few paced
  have done : ∀ n, FirstReaches advance entries.length n → n < p.counterRange →
      (∀ l, p.exitLimit = some l → n ≤ l.count) → result = .ok () ∧ taken.length = n := by
    intro n first range within
    have pos : 0 < n := by
      refine Nat.pos_of_ne_zero ?_
      rintro rfl
      exact absurd first.enough (Nat.not_le.mpr nonempty)
    have before : ∀ m < n, verdictOnPace p.exitLimit advance entries.length m = none := by
      intro m less
      refine verdictOnPace_eq_none (first.before m less) ?_
      intro l limited
      exact Nat.ne_of_gt (Nat.lt_of_lt_of_le less (within l limited))
    obtain ⟨count, same⟩ := ended.eq_of_verdictOnPace pos (Nat.le_sub_one_of_lt range) before
      (verdictOnPace_of_le first.enough)
    exact ⟨same, length.trans count⟩
  -- where no number up to a bound is the first that covers, none covers
  have undone : ∀ bound, (∀ n, FirstReaches advance entries.length n → bound < n) →
      ∀ m ≤ bound, total advance m < entries.length := by
    intro bound later m within
    refine Nat.not_le.mp fun enough => ?_
    obtain ⟨n, least, first⟩ := exists_firstReaches enough
    exact absurd (later n first) (Nat.not_lt.mpr (Nat.le_trans least within))
  refine ⟨done, ?_, ?_, ?_⟩
  · intro l limited range later
    have before : ∀ m < l.count, verdictOnPace p.exitLimit advance entries.length m = none := by
      intro m less
      refine verdictOnPace_eq_none (undone l.count later m (Nat.le_of_lt less)) ?_
      intro l' limited'
      cases limited.symm.trans limited'
      exact Nat.ne_of_gt less
    obtain ⟨count, same⟩ := ended.eq_of_verdictOnPace l.pos (Nat.le_sub_one_of_lt range) before
      (verdictOnPace_of_limit limited (undone l.count later l.count (Nat.le_refl _)))
    exact ⟨same, length.trans count⟩
  · intro k pos constant
    exact done _ (firstReaches_of_constant pos constant)
  · intro unlimited counts later
    have none : ∀ m ≤ p.counterRange - 1,
        verdictOnPace p.exitLimit advance entries.length m = none := by
      intro m within
      refine verdictOnPace_eq_none (undone (p.counterRange - 1) ?_ m within) ?_
      · intro n first
        exact Nat.lt_of_lt_of_le (Nat.sub_one_lt (Nat.ne_of_gt counts)) (later n first)
      · intro l limited
        cases unlimited.symm.trans limited
    obtain ⟨rfl, same⟩ := ended.eq_room_of_none none
    exact ⟨same, length.trans (Nat.sub_add_cancel counts)⟩

/-! ## A hypervisor for every sequence -/

/-- A hypervisor that remembers how many exits there were and makes the advances of a
sequence. -/
def pacing (advance : Nat → Nat) : Program.World calls Nat
  | .exit _ page, n =>
    (page.writeWord Ghcb.cursorOffset 2
      (min (page.cursor.current + advance n) (page.cursor.last + 1)), n + 1)
  | .pvalidate .., n => (.ok (), n)
  | .maskInterrupts, n => ((), n)
  | .unmaskInterrupts, n => ((), n)
  | .terminate, n => ((), n)
  | .log _, n => ((), n)

theorem InWork.movesBy {entries : List Entry} {address steps : Nat} {back : Ghcb}
    (work : InWork entries g) (gpa : Frame .small)
    (left : back = (g.prepareExit address).writeWord Ghcb.cursorOffset 2
      (min ((g.prepareExit address).cursor.current + steps)
        ((g.prepareExit address).cursor.last + 1))) :
    Exit.MovesBy ⟨gpa, g.prepareExit address, back⟩ steps ∧ InWork entries back := by
  have shown := work.prepareExit address
  obtain ⟨info1, info2⟩ := Ghcb.exitInfo_prepareExit g address
  have within : min ((g.prepareExit address).cursor.current + steps)
      ((g.prepareExit address).cursor.last + 1) ≤ entries.length := by
    rw [shown.last_eq]
    exact Nat.min_le_right _ _
  obtain ⟨work', moved⟩ := shown.advance within
  rw [← left] at work' moved
  refine ⟨⟨?_, ?_, ?_, moved⟩, work'⟩
  · rw [left, Ghcb.read_writeWord_cursor (by decide), info1]
  · rw [left, Ghcb.read_writeWord_cursor (by decide), info2]
  · exact Nat.succ.inj (work'.last_eq.trans shown.last_eq.symm)

/-- The induction is on the events, of which those that are no exits change nothing. -/
theorem paced_of_follows {entries : List Entry} {events : List Event} {n' : Nat}
    (follows : Program.Follows (pacing advance) n events n')
    (linked : Linked p g (exits events) g') (work : InWork entries g) :
    Paced advance n (exits events) := by
  induction events generalizing n g with
  | nil => exact .nil
  | cons ev rest ih =>
      obtain ⟨call, answer⟩ := ev
      obtain ⟨left, follows⟩ := follows
      cases call with
      | exit gpa page =>
          obtain ⟨-, shown, linked⟩ := linked
          obtain rfl : page = g.prepareExit p.scratch := shown
          obtain ⟨moves, work'⟩ := work.movesBy gpa left
          exact .cons moves (ih follows linked work')
      | pvalidate => exact ih follows linked work
      | maskInterrupts => exact ih follows linked work
      | unmaskInterrupts => exact ih follows linked work
      | terminate => exact ih follows linked work
      | log => exact ih follows linked work

theorem paced_pacing (p : Protocol) (page : Ghcb) {entries : List Entry}
    (nonempty : 0 < entries.length) (few : entries.length ≤ Change.maxEntries)
    (advance : Nat → Nat) :
    Paced advance 0 (exits (((p.exchange entries).play page).run (pacing advance) 0
      #[]).2.2.toList) := by
  obtain ⟨reaches, follows⟩ :=
    Program.reaches_of_run (pacing advance) ((p.exchange entries).play page) 0
  obtain ⟨during, outcome, exitsRun, same, -⟩ :=
    (exchangeRun_of_ends reaches).exists_exitsRun nonempty few
  exact paced_of_follows follows (same ▸ exitsRun.linked) (inWork_placed nonempty few)

/-- Two entries at once, then a pause, then the third. -/
def withPause : Nat → Nat
  | 0 => 2
  | 2 => 1
  | _ => 0

/-- A protocol that allows so many exits. -/
def allowing (most : ExitLimit) : Protocol where
  gpa := ⟨⟨0xa000, by decide⟩, by decide⟩
  exitLimit := some most

/-- Three entries are exchanged at a pace. -/
def exchangeThree (most : ExitLimit) (advance : Nat → Nat) :
    (Except Stop Unit × Ghcb) × Nat × Array Event :=
  (((allowing most).exchange [.zero, .zero, .zero]).play .zero).run (pacing advance) 0 #[]

/-- With a pause three entries take three exits.  A limit of three is enough for them, and a
limit of two is not, but it is without the pause. -/
theorem exits_of_paced_exchangeThree :
    let three := exchangeThree ⟨3, by decide⟩ withPause
    let two := exchangeThree ⟨2, by decide⟩ withPause
    let even := exchangeThree ⟨2, by decide⟩ fun _ => 2
    (three.1.1 = .ok () ∧ (exits three.2.2.toList).length = 3) ∧
      (two.1.1 = .error (.failed (.exitLimitExceeded 2)) ∧ (exits two.2.2.toList).length = 2) ∧
      even.1.1 = .ok () ∧ (exits even.2.2.toList).length = 2 := by
  have nonempty : 0 < [Entry.zero, .zero, .zero].length := by decide
  have few : [Entry.zero, .zero, .zero].length ≤ Change.maxEntries := by decide
  have first : FirstReaches withPause 3 3 := ⟨by decide, by decide⟩
  have range : 3 < wordLimit := by decide
  have outcome (most : ExitLimit) (advance : Nat → Nat) :=
    exits_of_paced (allowing most) (pacing advance) 0 .zero nonempty few advance
      (paced_pacing (allowing most) .zero nonempty few advance)
  unfold exchangeThree
  refine ⟨?_, ?_, ?_⟩
  · obtain ⟨done, -⟩ := outcome ⟨3, by decide⟩ withPause
    refine done 3 first range ?_
    intro l limited
    cases limited
    exact Nat.le_refl 3
  · obtain ⟨-, limited, -⟩ := outcome ⟨2, by decide⟩ withPause
    refine limited ⟨2, by decide⟩ rfl (Nat.lt_of_succ_lt range) ?_
    intro n reaches
    -- two advances come to no more than two entries
    refine Nat.not_le.mp fun within => ?_
    exact absurd (Nat.le_trans reaches.enough (total_le_total within)) (by decide)
  · obtain ⟨-, -, constant, -⟩ := outcome ⟨2, by decide⟩ fun _ => 2
    refine constant 2 (by decide) (fun _ => rfl) (Nat.lt_of_succ_lt range) ?_
    intro l limited
    cases limited
    exact Nat.le_refl 2

end SnpMemory.Protocol

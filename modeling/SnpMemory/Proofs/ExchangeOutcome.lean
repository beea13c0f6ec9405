/-
# `SnpMemory.Proofs.ExchangeOutcome` — an exchange against any hypervisor

The hypervisor is a world: it may answer each exit with any page, and may remember
what it likes from one exit to the next.  What the page is right after each exit,
were the guest never to stop, depends on the world alone (`pageAfter`), and so does
the verdict on each exit.

An exchange stops at the first exit with a verdict and returns that verdict
(`exchange_of_world`).  The number of exits and the result are thus read off the
pages, and the only other end is the end of the counter.
-/
import SnpMemory.Proofs.ExchangeRuns

namespace SnpMemory.Protocol

variable {σ : Type}

/-! ## The pages that a world leaves -/

/-- One exit: the memory of the world and the page, before and after. -/
def exitIn (p : Protocol) (world : Program.World calls σ) (x : σ × Ghcb) : σ × Ghcb :=
  let (back, s) := world (.exit p.gpa (x.2.prepareExit p.scratch)) x.1
  (s, back)

def exitsIn (p : Protocol) (world : Program.World calls σ) : Nat → σ × Ghcb → σ × Ghcb
  | 0, x => x
  | n + 1, x => p.exitsIn world n (p.exitIn world x)

/-- The page right after an exit of the exchange, by the number of the exit; before the
first one, the page with the request. -/
def pageAfter (p : Protocol) (world : Program.World calls σ) (s : σ) (entries : List Entry)
    (n : Nat) : Ghcb :=
  (p.exitsIn world n ((world .maskInterrupts s).2, placed entries)).2

/-- The verdict on the exit after the first `n` of an exchange. -/
def verdictOn (p : Protocol) (world : Program.World calls σ) (s : σ) (entries : List Entry)
    (n : Nat) : Option (Except ChangeError Unit) :=
  verdict p.exitLimit (entries.length - 1) (p.pageAfter world s entries n).cursor.current (n + 1)
    (p.pageAfter world s entries (n + 1))

/-- The same for exits that begin in any state, when so many have been taken already. -/
def verdictFrom (p : Protocol) (last : Nat) (world : Program.World calls σ) (exits : Nat)
    (x : σ × Ghcb) (n : Nat) : Option (Except ChangeError Unit) :=
  verdict p.exitLimit last (p.exitsIn world n x).2.cursor.current (exits + n + 1)
    (p.exitsIn world (n + 1) x).2

def Event.isExit : Event → Bool
  | ⟨.exit .., _⟩ => true
  | _ => false

variable {p : Protocol} {world : Program.World calls σ} {last : Nat}

theorem verdictFrom_zero (s : σ) (entries : List Entry) (n : Nat) :
    p.verdictFrom (entries.length - 1) world 0 ((world .maskInterrupts s).2, placed entries) n =
      p.verdictOn world s entries n := by
  unfold verdictFrom
  rw [Nat.zero_add]
  rfl

theorem verdictFrom_succ (exits : Nat) (x : σ × Ghcb) (n : Nat) :
    p.verdictFrom last world exits x (n + 1) =
      p.verdictFrom last world (exits + 1) (p.exitIn world x) n := by
  have count : exits + (n + 1) + 1 = exits + 1 + n + 1 := by omega
  unfold verdictFrom
  rw [count]
  rfl

/-! ## Ends by a verdict -/

/-- The exits end after `n` and one more: by the first verdict, or when the counter has
been raised `room` times and no verdict has come. -/
structure Ended (verdicts : Nat → Option (Except ChangeError Unit)) (room n : Nat)
    (result : Except Stop Unit) : Prop where
  before : ∀ i < n, verdicts i = none
  cause : n = room ∧ result = .error (.fault .wordOverflow) ∨
    n < room ∧ ∃ outcome, verdicts n = some outcome ∧ result = outcome.mapError .failed

section

variable {verdicts verdicts' : Nat → Option (Except ChangeError Unit)} {room n : Nat}
  {result : Except Stop Unit}

theorem Ended.first {outcome : Except ChangeError Unit} (more : 0 < room)
    (judged : verdicts 0 = some outcome) :
    Ended verdicts room 0 (outcome.mapError .failed) where
  before i h := absurd h (Nat.not_lt_zero i)
  cause := Or.inr ⟨more, outcome, judged, rfl⟩

/-- One exit without a verdict before the others. -/
theorem Ended.later (shift : ∀ i, verdicts (i + 1) = verdicts' i) (judged : verdicts 0 = none)
    (h : Ended verdicts' room n result) : Ended verdicts (room + 1) (n + 1) result where
  before i less := by
    cases i with
    | zero => exact judged
    | succ i =>
        rw [shift]
        exact h.before i (Nat.lt_of_succ_lt_succ less)
  cause := by
    rcases h.cause with ⟨all, fault⟩ | ⟨more, outcome, judged', ended⟩
    · exact Or.inl ⟨congrArg (· + 1) all, fault⟩
    · exact Or.inr ⟨Nat.succ_lt_succ more, outcome, (shift n).trans judged', ended⟩

theorem Ended.eq_of_verdict (h : Ended verdicts room n result) {i : Nat}
    {outcome : Except ChangeError Unit} (within : i < room) (none : ∀ j < i, verdicts j = none)
    (judged : verdicts i = some outcome) : n = i ∧ result = outcome.mapError .failed := by
  have same : n = i := by
    rcases Nat.lt_trichotomy n i with less | same | more
    · rcases h.cause with ⟨all, -⟩ | ⟨-, outcome', judged', -⟩
      · omega
      · cases (none n less).symm.trans judged'
    · exact same
    · cases (h.before i more).symm.trans judged
  subst same
  rcases h.cause with ⟨all, -⟩ | ⟨-, outcome', judged', ended⟩
  · omega
  · cases judged.symm.trans judged'
    exact ⟨rfl, ended⟩

theorem Ended.le_or_fault (h : Ended verdicts room n result) {m : Nat}
    (none : ∀ j < m, verdicts j = none) :
    m ≤ n ∨ n = room ∧ result = .error (.fault .wordOverflow) := by
  rcases h.cause with fault | ⟨-, outcome, judged, -⟩
  · exact Or.inr fault
  · refine Or.inl (Nat.le_of_not_lt fun less => ?_)
    cases (none n less).symm.trans judged

theorem Ended.verdict_eq_ok (h : Ended verdicts room n (.ok ())) : verdicts n = some (.ok ()) := by
  rcases h.cause with ⟨-, fault⟩ | ⟨-, outcome, judged, ended⟩
  · cases fault
  · cases outcome with
    | error error => cases ended
    | ok u => exact judged

end

/-! ## Runs that follow a world -/

theorem ExitsRun.exists_ended {room exits : Nat} {g g' : Ghcb} {events : List Event}
    {result : Except Stop Nat} (run : ExitsRun p last room exits g events result g') {s s' : σ}
    (follows : Program.Follows world s events s') :
    ∃ n, events.countP Event.isExit = n + 1 ∧
      Ended (p.verdictFrom last world exits (s, g)) room n (result.map fun _ => ()) := by
  induction run generalizing s with
  | overflow g' =>
      exact ⟨0, rfl, fun i h => absurd h (Nat.not_lt_zero i), Or.inl ⟨rfl, rfl⟩⟩
  | @done room exits g g' judged =>
      obtain ⟨rfl, -⟩ := follows
      have first : p.verdictFrom last world exits (s, g) 0 = some (.ok ()) := judged
      exact ⟨0, rfl, .first (Nat.succ_pos room) first⟩
  | @failed room exits g g' error judged =>
      obtain ⟨rfl, -⟩ := follows
      have first : p.verdictFrom last world exits (s, g) 0 = some (.error error) := judged
      exact ⟨0, rfl, .first (Nat.succ_pos room) first⟩
  | again judged run ih =>
      obtain ⟨rfl, follows⟩ := follows
      obtain ⟨n, count, ended⟩ := ih follows
      refine ⟨n + 1, ?_, ended.later (verdictFrom_succ _ _) judged⟩
      rw [List.countP_cons_of_pos rfl, count]

/-- The exits of a bracket are those of its body, which starts when interrupts are off. -/
theorem Bracketed.exists_body {α : Type} {body : List Event → Except Stop α → Ghcb → Prop}
    {events : List Event} {outcome : Except Stop α} {g' : Ghcb}
    (run : Bracketed body events outcome g') {s s' : σ}
    (follows : Program.Follows world s events s') :
    ∃ during mid, body during outcome g' ∧
      Program.Follows world (world .maskInterrupts s).2 during mid ∧
      events.countP Event.isExit = during.countP Event.isExit := by
  cases run with
  | @done during _ _ h =>
      obtain ⟨mid, inside, -⟩ := Program.follows_append.mp follows.2
      exact ⟨during, mid, h, inside, by simp [List.countP_append, Event.isExit]⟩
  | @failed during _ _ _ h =>
      obtain ⟨mid, inside, -⟩ := Program.follows_append.mp follows.2
      exact ⟨during, mid, h, inside, by simp [List.countP_append, Event.isExit]⟩
  | @faulted during _ _ h => exact ⟨during, s', h, follows.2, List.countP_cons_of_neg nofun⟩

theorem ExchangeRun.exists_ended {entries : List Entry} {g g' : Ghcb} {events : List Event}
    {result : Except Stop Unit} (run : ExchangeRun p entries g events result g')
    (nonempty : 0 < entries.length) (few : entries.length ≤ Change.maxEntries) {s s' : σ}
    (follows : Program.Follows world s events s') :
    ∃ n, events.countP Event.isExit = n + 1 ∧
      Ended (p.verdictOn world s entries) (p.counterRange - 1) n result := by
  -- The line that is logged at the end adds no exit.
  obtain ⟨inner, outcome, mid, bracket, follows', count, rfl⟩ :
      ∃ inner outcome mid, Bracketed ((p.request entries).Ends g) inner outcome g' ∧
        Program.Follows world s inner mid ∧
        events.countP Event.isExit = inner.countP Event.isExit ∧
        (outcome.map fun _ => ()) = result := by
    cases run with
    | @done inner exits _ bracket =>
        obtain ⟨mid, inside, -⟩ := Program.follows_append.mp follows
        exact ⟨inner, _, mid, bracket, inside, by simp [List.countP_append, Event.isExit], rfl⟩
    | stopped bracket => exact ⟨events, _, s', bracket, follows, rfl, rfl⟩
  obtain ⟨during, last, ends, inside, count'⟩ := bracket.exists_body follows'
  obtain ⟨n, exits, ended⟩ :=
    ((ends_request_iff nonempty few).mp ends).exists_ended inside
  rw [funext (verdictFrom_zero s entries)] at ended
  exact ⟨n, by rw [count, count', exits], ended⟩

/-! ## The outcome -/

/-- **Exchange against any hypervisor.**  Let a request of a permitted length be exchanged in
any world, from any page on.  If an exit has a verdict and none before it has, and the
counter reaches that far, the exchange returns the verdict after just these exits; as long
as no exit has a verdict there is a further exit, until the counter ends.  So when all went
well, each exit was accepted, and the last one moved the position past the last entry. -/
theorem exchange_of_world (p : Protocol) (world : Program.World calls σ) (s : σ) (page : Ghcb)
    {entries : List Entry} (nonempty : 0 < entries.length)
    (few : entries.length ≤ Change.maxEntries) :
    let run := ((p.exchange entries).play page).run world s #[]
    let result := run.1.1
    let exits := run.2.2.toList.countP Event.isExit
    let after := p.pageAfter world s entries
    (after 0).cursor.current = 0 ∧
    (∀ i outcome, i + 1 < p.counterRange → (∀ j < i, p.verdictOn world s entries j = none) →
      p.verdictOn world s entries i = some outcome →
      exits = i + 1 ∧ result = outcome.mapError .failed) ∧
    (∀ n, (∀ j, j + 1 < n → p.verdictOn world s entries j = none) →
      n ≤ exits ∨ p.counterRange ≤ exits ∧ result = .error (.fault .wordOverflow)) ∧
    (result = .ok () →
      (∀ i < exits, Accepted (entries.length - 1) (after i).cursor.current (after (i + 1))) ∧
      entries.length - 1 < (after exits).cursor.current) := by
  intro run result exits after
  obtain ⟨events, reaches, follows, trace⟩ :=
    Program.exists_follows_of_run world ((p.exchange entries).play page) s #[]
  obtain ⟨n, count, ended⟩ := (exchangeRun_of_ends reaches).exists_ended nonempty few follows
  have exits_eq : exits = n + 1 := by
    show run.2.2.toList.countP Event.isExit = n + 1
    rw [trace]
    exact count
  refine ⟨?_, ?_, ?_, ?_⟩
  · show (placed entries).cursor.current = 0
    rw [cursor_placed few]
  · intro i outcome room none judged
    obtain ⟨rfl, same⟩ := ended.eq_of_verdict (Nat.lt_sub_of_add_lt room) none judged
    exact ⟨exits_eq, same⟩
  · intro m none
    rcases ended.le_or_fault fun j (less : j < m - 1) => none j (by omega) with more | fault
    · exact Or.inl (by omega)
    · exact Or.inr ⟨by omega, fault.2⟩
  · intro ok
    rw [show run.1.1 = .ok () from ok] at ended
    have judged := ended.verdict_eq_ok
    rw [exits_eq]
    refine ⟨fun i h => ?_, lt_of_verdict_eq_ok judged⟩
    rcases Nat.lt_succ_iff_lt_or_eq.mp h with earlier | rfl
    · exact accepted_of_verdict (Or.inl (ended.before i earlier))
    · exact accepted_of_verdict (Or.inr judged)

/-- A hypervisor that puts a header on a cleared page: its first exit gets as far as the last
of three entries, and every later one goes back to the entry before. -/
def rewinding : Program.World calls Nat
  | .exit _ _, 0 => (Ghcb.zero.putHeader ⟨2, 2⟩, 1)
  | .exit _ _, n + 1 => (Ghcb.zero.putHeader ⟨1, 2⟩, n + 2)
  | .pvalidate .., n => (.ok (), n)
  | .maskInterrupts, n => ((), n)
  | .unmaskInterrupts, n => ((), n)
  | .terminate, n => ((), n)
  | .log _, n => ((), n)

theorem exchange_of_world_rewinding :
    let p : Protocol := { gpa := ⟨⟨0x1000, by decide⟩, by decide⟩ }
    let run := ((p.exchange [.zero, .zero, .zero]).play .zero).run rewinding 0 #[]
    run.2.2.toList.countP Event.isExit = 2 ∧
      run.1.1 = .error (.failed (.cursorTampered 1 2)) := by
  intro p
  have start : (p.pageAfter rewinding 0 [.zero, .zero, .zero] 0).cursor = ⟨0, 2⟩ :=
    cursor_placed (by decide)
  have first : p.verdictOn rewinding 0 [.zero, .zero, .zero] 0 = none := by
    unfold verdictOn
    rw [start]
    show verdict none 2 0 1 (Ghcb.zero.putHeader ⟨2, 2⟩) = none
    unfold verdict
    simp [Ghcb.read_putHeader, Ghcb.read_zero, Ghcb.cursor_putHeader]
  have second : p.verdictOn rewinding 0 [.zero, .zero, .zero] 1 =
      some (.error (.cursorTampered 1 2)) := by
    show verdict none 2 (Ghcb.zero.putHeader ⟨2, 2⟩).cursor.current 2
      (Ghcb.zero.putHeader ⟨1, 2⟩) = _
    unfold verdict
    simp [Ghcb.read_putHeader, Ghcb.read_zero, Ghcb.cursor_putHeader]
  have before : ∀ j < 1, p.verdictOn rewinding 0 [.zero, .zero, .zero] j = none := by
    intro j less
    obtain rfl : j = 0 := by omega
    exact first
  have range : 1 + 1 < p.counterRange := by
    show 2 < wordLimit
    decide
  exact (exchange_of_world p rewinding 0 .zero (by decide) (by decide)).2.1 1 _ range before second

end SnpMemory.Protocol

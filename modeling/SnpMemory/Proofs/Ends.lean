/-
# `SnpMemory.Proofs.Ends` — guest programs from their first state to their last

A run of a program is told by the events on the way and by what it ends with.
This module takes runs apart where programs are put together:

    p.Reaches es (done a)         some answers lead `p` to its end `a`
    g.Ends s es result s'         the same for a guest program with a state
    Follows world s es s'         the answers in `es` are those of a world

A run of `p >>= f` is a run of `p` and then one of `f a`, and its events are
those of the two, one after the other (`reaches_bind_done`, `Guest.ends_bind`).
What holds of all complete runs holds at every point of every run, because each
point can be gone on from to an end (`Reaches.exists_end`); and a run in a world
is a complete run whose answers follow the world (`reaches_of_run`).
-/
import SnpMemory.Guest

namespace SnpMemory

namespace Program

variable {I : Interface} {α β σ : Type}

/-! ## Complete runs -/

theorem reaches_done_done {a b : α} {events : List I.Event} :
    (done a : Program I α).Reaches events (.done b) ↔ events = [] ∧ b = a := by
  constructor
  · intro h
    cases h
    exact ⟨rfl, rfl⟩
  · rintro ⟨rfl, rfl⟩
    exact .here _

theorem reaches_ask_done {r : I.Request} {k : I.Answer r → Program I α} {b : α}
    {events : List I.Event} :
    (ask r k).Reaches events (.done b) ↔
      ∃ answer rest, (k answer).Reaches rest (.done b) ∧ events = ⟨r, answer⟩ :: rest := by
  constructor
  · intro h
    cases h with
    | step answer tail => exact ⟨answer, _, tail, rfl⟩
  · rintro ⟨answer, rest, tail, rfl⟩
    exact .step answer tail

theorem reaches_bind_done {p : Program I α} {f : α → Program I β} {b : β}
    {events : List I.Event} :
    (p >>= f).Reaches events (.done b) ↔
      ∃ a first last, p.Reaches first (.done a) ∧ (f a).Reaches last (.done b) ∧
        events = first ++ last := by
  constructor
  · intro h
    induction p generalizing events with
    | done a => exact ⟨a, [], events, .here _, h, rfl⟩
    | ask r k ih =>
        obtain ⟨answer, rest, tail, rfl⟩ := reaches_ask_done.mp h
        obtain ⟨a, first, last, h₁, h₂, rfl⟩ := ih answer tail
        exact ⟨a, ⟨r, answer⟩ :: first, last, .step answer h₁, h₂, rfl⟩
  · rintro ⟨a, first, last, h₁, h₂, rfl⟩
    exact (h₁.bind f).trans h₂

/-- A point of `p >>= f` is a point of `p`, or one of `f a` after a run of `p`. -/
theorem Reaches.of_bind {p : Program I α} {f : α → Program I β} {q : Program I β}
    {events : List I.Event} (h : (p >>= f).Reaches events q) :
    (∃ mid, p.Reaches events mid) ∨
      ∃ a first last, p.Reaches first (.done a) ∧ (f a).Reaches last q ∧
        events = first ++ last := by
  induction p generalizing events with
  | done a => exact Or.inr ⟨a, [], events, .here _, h, rfl⟩
  | ask r k ih =>
      cases h with
      | here => exact Or.inl ⟨_, .here _⟩
      | step answer tail =>
          rcases ih answer tail with ⟨mid, h'⟩ | ⟨a, first, last, h₁, h₂, rfl⟩
          · exact Or.inl ⟨mid, .step answer h'⟩
          · exact Or.inr ⟨a, _ :: first, last, .step answer h₁, h₂, rfl⟩

/-! ## From a point of a run to its end -/

section Inhabited

variable [∀ r : I.Request, Nonempty (I.Answer r)]

theorem exists_end (p : Program I α) : ∃ events a, p.Reaches events (.done a) := by
  induction p with
  | done a => exact ⟨[], a, .here _⟩
  | ask r k ih =>
      obtain ⟨answer⟩ : Nonempty (I.Answer r) := inferInstance
      obtain ⟨events, a, h⟩ := ih answer
      exact ⟨⟨r, answer⟩ :: events, a, .step answer h⟩

/-- Every point of a run lies on a complete run. -/
theorem Reaches.exists_end {p q : Program I α} {before : List I.Event}
    (h : p.Reaches before q) : ∃ after a, p.Reaches (before ++ after) (.done a) := by
  obtain ⟨after, a, h'⟩ := q.exists_end
  exact ⟨after, a, h.trans h'⟩

/-- A request is answered, in some way, on a complete run. -/
theorem Reaches.exists_answered {p : Program I α} {before : List I.Event} {r : I.Request}
    {k : I.Answer r → Program I α} (h : p.Reaches before (.ask r k)) :
    ∃ answer after a, p.Reaches (before ++ ⟨r, answer⟩ :: after) (.done a) := by
  obtain ⟨answer⟩ : Nonempty (I.Answer r) := inferInstance
  obtain ⟨after, a, h'⟩ := (k answer).exists_end
  exact ⟨answer, after, a, h.trans (.step answer h')⟩

end Inhabited

/-- A point of a run can be gone on from with answers that are all allowed, if each request
has an allowed answer. -/
theorem Reaches.exists_end_of_allowed {p q : Program I α} {before : List I.Event}
    (h : p.Reaches before q) {Allowed : I.Event → Prop}
    (some : ∀ r : I.Request, ∃ answer : I.Answer r, Allowed ⟨r, answer⟩) :
    ∃ after a, (∀ ev ∈ after, Allowed ev) ∧ p.Reaches (before ++ after) (.done a) := by
  suffices later : ∃ after a, (∀ ev ∈ after, Allowed ev) ∧ q.Reaches after (.done a) by
    obtain ⟨after, a, allowed, h'⟩ := later
    exact ⟨after, a, allowed, h.trans h'⟩
  clear h
  induction q with
  | done a => exact ⟨[], a, fun _ mem => absurd mem List.not_mem_nil, .here _⟩
  | ask r k ih =>
      obtain ⟨answer, here⟩ := some r
      obtain ⟨after, a, later, h⟩ := ih answer
      refine ⟨⟨r, answer⟩ :: after, a, ?_, .step answer h⟩
      intro ev mem
      rcases List.mem_cons.mp mem with rfl | mem
      · exact here
      · exact later ev mem

/-- Before an event the program had come to the point of making the request. -/
theorem Reaches.exists_ask {p q : Program I α} {before after : List I.Event} {r : I.Request}
    {answer : I.Answer r} (h : p.Reaches (before ++ ⟨r, answer⟩ :: after) q) :
    ∃ k, p.Reaches before (.ask r k) ∧ (k answer).Reaches after q := by
  induction before generalizing p with
  | nil =>
      cases h with
      | step _ tail => exact ⟨_, .here _, tail⟩
  | cons e before ih =>
      cases h with
      | step answer' tail =>
          obtain ⟨k, h₁, h₂⟩ := ih tail
          exact ⟨k, .step answer' h₁, h₂⟩

/-! ## Runs in a world -/

/-- The world gives the answers in the events, and its memory goes from `s` to `s'`. -/
def Follows (world : World I σ) : (s : σ) → List I.Event → (s' : σ) → Prop
  | s, [], s' => s' = s
  | s, ⟨r, answer⟩ :: rest, s' =>
    answer = (world r s).1 ∧ Follows world (world r s).2 rest s'

theorem follows_append {world : World I σ} {first last : List I.Event} {s s' : σ} :
    Follows world s (first ++ last) s' ↔
      ∃ mid, Follows world s first mid ∧ Follows world mid last s' := by
  induction first generalizing s with
  | nil =>
      constructor
      · intro h
        exact ⟨s, rfl, h⟩
      · rintro ⟨mid, rfl, h⟩
        exact h
  | cons e first ih =>
      constructor
      · rintro ⟨same, h⟩
        obtain ⟨mid, h₁, h₂⟩ := ih.mp h
        exact ⟨mid, ⟨same, h₁⟩, h₂⟩
      · rintro ⟨mid, ⟨same, h₁⟩, h₂⟩
        exact ⟨same, ih.mpr ⟨mid, h₁, h₂⟩⟩

/-- A run in a world is a complete run that follows the world. -/
theorem exists_follows_of_run (world : World I σ) (p : Program I α) (s : σ)
    (past : Array I.Event) :
    ∃ events, p.Reaches events (.done (p.run world s past).1) ∧
      Follows world s events (p.run world s past).2.1 ∧
      (p.run world s past).2.2.toList = past.toList ++ events := by
  induction p generalizing s past with
  | done a => exact ⟨[], .here _, rfl, (List.append_nil _).symm⟩
  | ask r k ih =>
      obtain ⟨events, reaches, follows, whole⟩ :=
        ih _ (world r s).2 (past.push ⟨r, (world r s).1⟩)
      refine ⟨⟨r, (world r s).1⟩ :: events, .step _ reaches, ⟨rfl, follows⟩, ?_⟩
      show ((k (world r s).1).run world (world r s).2 _).2.2.toList = _
      rw [whole, Array.toList_push, List.append_assoc]
      rfl

theorem reaches_of_run (world : World I σ) (p : Program I α) (s : σ) :
    let run := p.run world s #[]
    p.Reaches run.2.2.toList (.done run.1) ∧ Follows world s run.2.2.toList run.2.1 := by
  intro run
  obtain ⟨events, reaches, follows, trace⟩ := exists_follows_of_run world p s #[]
  have whole : run.2.2.toList = events := trace
  rw [whole]
  exact ⟨reaches, follows⟩

/-- A complete run whose answers are those of a world is the run in that world. -/
theorem run_eq_of_follows {world : World I σ} {p : Program I α} {events : List I.Event} {a : α}
    {s s' : σ} (h : p.Reaches events (.done a)) (follows : Follows world s events s')
    (past : Array I.Event) : p.run world s past = (a, s', past ++ events.toArray) := by
  induction p generalizing events s past with
  | done b =>
      obtain ⟨rfl, rfl⟩ := reaches_done_done.mp h
      obtain rfl : s' = s := follows
      exact congrArg (fun trace => (a, s', trace)) Array.append_empty.symm
  | ask r k ih =>
      obtain ⟨answer, rest, tail, rfl⟩ := reaches_ask_done.mp h
      obtain ⟨rfl, follows⟩ := follows
      show (k (world r s).1).run world (world r s).2 _ = _
      rw [ih _ tail follows, Array.push_eq_append, Array.append_assoc, ← List.toArray_cons]

end Program

namespace Guest

variable {I : Interface} {σ α β : Type}

/-- Some answers take the program from the state `s` to its end, with the given events,
and leave the state `s'`. -/
def Ends (g : Guest I σ α) (s : σ) (events : List I.Event) (result : Except Stop α)
    (s' : σ) : Prop :=
  (g.play s).Reaches events (.done (result, s'))

variable {s s' : σ} {events : List I.Event}

@[simp] theorem ends_pure {a : α} {result : Except Stop α} :
    (pure a : Guest I σ α).Ends s events result s' ↔ events = [] ∧ result = .ok a ∧ s' = s := by
  simp [Ends, Program.reaches_done_done]

@[simp] theorem ends_throw {stop : Stop} {result : Except Stop α} :
    (throw stop : Guest I σ α).Ends s events result s' ↔
      events = [] ∧ result = .error stop ∧ s' = s := by
  simp [Ends, Program.reaches_done_done]

@[simp] theorem ends_fail {error : ChangeError} {result : Except Stop α} :
    (fail error : Guest I σ α).Ends s events result s' ↔
      events = [] ∧ result = .error (.failed error) ∧ s' = s :=
  ends_throw

@[simp] theorem ends_fault {limit : Fault} {result : Except Stop α} :
    (fault limit : Guest I σ α).Ends s events result s' ↔
      events = [] ∧ result = .error (.fault limit) ∧ s' = s :=
  ends_throw

@[simp] theorem ends_look {result : Except Stop σ} :
    (look : Guest I σ σ).Ends s events result s' ↔ events = [] ∧ result = .ok s ∧ s' = s := by
  simp [Ends, Program.reaches_done_done]

@[simp] theorem ends_put {t : σ} {result : Except Stop Unit} :
    (put t : Guest I σ Unit).Ends s events result s' ↔
      events = [] ∧ result = .ok () ∧ s' = t := by
  simp [Ends, Program.reaches_done_done]

@[simp] theorem ends_update {f : σ → σ} {result : Except Stop Unit} :
    (update f : Guest I σ Unit).Ends s events result s' ↔
      events = [] ∧ result = .ok () ∧ s' = f s := by
  simp [Ends, Program.reaches_done_done]

@[simp] theorem ends_request {r : I.Request} {result : Except Stop (I.Answer r)} :
    (perform (.request r) : Guest I σ (I.Answer r)).Ends s events result s' ↔
      ∃ answer, events = [⟨r, answer⟩] ∧ result = .ok answer ∧ s' = s := by
  constructor
  · intro h
    obtain ⟨answer, rest, tail, rfl⟩ := Program.reaches_ask_done.mp h
    obtain ⟨rfl, last⟩ := Program.reaches_done_done.mp tail
    obtain ⟨rfl, rfl⟩ := Prod.mk.inj last
    exact ⟨answer, rfl, rfl, rfl⟩
  · rintro ⟨answer, rfl, rfl, rfl⟩
    exact .step answer (.here _)

/-- A sequence of programs stops in the first, or ends it and goes on with the second. -/
theorem ends_bind {g : Guest I σ α} {f : α → Guest I σ β} {result : Except Stop β} :
    (g >>= f).Ends s events result s' ↔
      (∃ stop, g.Ends s events (.error stop) s' ∧ result = .error stop) ∨
      ∃ a first mid last, g.Ends s first (.ok a) mid ∧ (f a).Ends mid last result s' ∧
        events = first ++ last := by
  unfold Ends
  rw [play_bind, Program.reaches_bind_done]
  constructor
  · rintro ⟨⟨_ | a, mid⟩, first, last, h₁, h₂, rfl⟩
    · obtain ⟨rfl, same⟩ := Program.reaches_done_done.mp h₂
      obtain ⟨rfl, rfl⟩ := Prod.mk.inj same
      exact Or.inl ⟨_, by rwa [List.append_nil], rfl⟩
    · exact Or.inr ⟨a, first, mid, last, h₁, h₂, rfl⟩
  · rintro (⟨stop, h, rfl⟩ | ⟨a, first, mid, last, h₁, h₂, rfl⟩)
    · exact ⟨_, events, [], h, .here _, (List.append_nil _).symm⟩
    · exact ⟨_, first, last, h₁, h₂, rfl⟩

/-- A request does not stop, and what follows it gets the answer. -/
theorem ends_request_bind {r : I.Request} {f : I.Answer r → Guest I σ β}
    {result : Except Stop β} :
    ((perform (.request r) : Guest I σ (I.Answer r)) >>= f).Ends s events result s' ↔
      ∃ answer rest, (f answer).Ends s rest result s' ∧ events = ⟨r, answer⟩ :: rest := by
  rw [ends_bind]
  constructor
  · rintro (⟨stop, h, -⟩ | ⟨a, first, mid, last, h, h', rfl⟩)
    · obtain ⟨answer, -, same, -⟩ := ends_request.mp h
      cases same
    · obtain ⟨answer, rfl, same, rfl⟩ := ends_request.mp h
      cases same
      exact ⟨a, last, h', rfl⟩
  · rintro ⟨answer, rest, h, rfl⟩
    exact Or.inr ⟨answer, [⟨r, answer⟩], s, rest, ends_request.mpr ⟨answer, rfl, rfl, rfl⟩, h, rfl⟩

@[simp] theorem ends_look_bind {f : σ → Guest I σ β} {result : Except Stop β} :
    (look >>= f).Ends s events result s' ↔ (f s).Ends s events result s' := by
  simp [Ends, play_bind]

@[simp] theorem ends_put_bind {t : σ} {f : Unit → Guest I σ β} {result : Except Stop β} :
    (put t >>= f).Ends s events result s' ↔ (f ()).Ends t events result s' := by
  simp [Ends, play_bind]

@[simp] theorem ends_update_bind {g : σ → σ} {f : Unit → Guest I σ β}
    {result : Except Stop β} :
    (update g >>= f).Ends s events result s' ↔ (f ()).Ends (g s) events result s' := by
  simp [Ends, play_bind]

/-- A program whose stop is caught ends where it stopped. -/
theorem ends_attempt {g : Guest I σ α} {result : Except Stop (Except Stop α)} :
    g.attempt.Ends s events result s' ↔
      ∃ outcome, g.Ends s events outcome s' ∧ result = .ok outcome := by
  unfold Ends
  rw [play_attempt, Program.reaches_bind_done]
  constructor
  · rintro ⟨⟨outcome, mid⟩, first, last, h₁, h₂, rfl⟩
    obtain ⟨rfl, same⟩ := Program.reaches_done_done.mp h₂
    obtain ⟨rfl, rfl⟩ := Prod.mk.inj same
    exact ⟨outcome, by rwa [List.append_nil], rfl⟩
  · rintro ⟨outcome, h, rfl⟩
    exact ⟨_, events, [], h, .here _, (List.append_nil _).symm⟩

end Guest

end SnpMemory

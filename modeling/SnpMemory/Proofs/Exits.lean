/-
# `SnpMemory.Proofs.Exits` — the exits of a run, and what they do to the page

At an exit the hypervisor is shown the page and leaves a page.  The exits of a run, in
order, are what the hypervisor sees of it (`exits`).  The guest works on the page
between two exits only to fill in the fields of the next one, so the exits of a request
hang together like the links of a chain (`Linked`):

    g --fill in--> shown₁ ~~hypervisor~~> left₁ --fill in--> shown₂ ~~> ... ~~> g'

An exchange of a permitted number of entries starts from the page with just its request
on it, and its masking of interrupts and its log line are no exits
(`ExchangeRun.exists_exitsRun`).  It can end badly in a few ways only, and all of them
need an exit (`AtExit`).
-/
import SnpMemory.Proofs.ExchangeRuns

namespace SnpMemory.Protocol

/-! ## Exits -/

/-- The page that the hypervisor is shown, at its address, and the page that it leaves. -/
structure Exit where
  gpa : Frame .small
  shown : Ghcb
  left : Ghcb

def Event.exit? : Event → Option Exit
  | ⟨.exit gpa page, back⟩ => some ⟨gpa, page, back⟩
  | _ => none

/-- The exits among some events, in order. -/
def exits (events : List Event) : List Exit := events.filterMap Event.exit?

section

variable {events more : List Event}

@[simp] theorem exits_nil : exits [] = [] := rfl

@[simp] theorem exits_append : exits (events ++ more) = exits events ++ exits more :=
  List.filterMap_append

@[simp] theorem exits_mask : exits (.mask :: events) = exits events := rfl

@[simp] theorem exits_unmask : exits (.unmask :: events) = exits events := rfl

/-- The unmasking of interrupts at the end of a bracket is no exit either. -/
theorem exits_bracket : exits (.mask :: (events ++ [.unmask])) = exits events := by
  rw [exits_mask, exits_append, exits_unmask, exits_nil, List.append_nil]

@[simp] theorem exits_log (line : LogLine) : exits (.log line :: events) = exits events := rfl

end

variable {p : Protocol} {last room n : Nat} {g g' : Ghcb} {events : List Event}

/-- Exits of a protocol in a row, from a page on to the page that the last one leaves. -/
def Linked (p : Protocol) : (g : Ghcb) → List Exit → (g' : Ghcb) → Prop
  | g, [], g' => g' = g
  | g, e :: rest, g' =>
    e.gpa = p.gpa ∧ e.shown = g.prepareExit p.scratch ∧ Linked p e.left rest g'

theorem ExitsRun.linked {result : Except Stop Nat}
    (run : ExitsRun p last room n g events result g') : Linked p g (exits events) g' := by
  induction run with
  | overflow => exact ⟨rfl, rfl, rfl⟩
  | done => exact ⟨rfl, rfl, rfl⟩
  | failed => exact ⟨rfl, rfl, rfl⟩
  | again _ _ ih => exact ⟨rfl, rfl, ih⟩

theorem ExitsRun.exits_ne_nil {result : Except Stop Nat}
    (run : ExitsRun p last room n g events result g') : exits events ≠ [] := by
  cases run with
  | overflow => exact List.cons_ne_nil _ _
  | done => exact List.cons_ne_nil _ _
  | failed => exact List.cons_ne_nil _ _
  | again => exact List.cons_ne_nil _ _

section

variable {taken : List Exit}

theorem Linked.gpa_eq (h : Linked p g taken g') : ∀ e ∈ taken, e.gpa = p.gpa := by
  induction taken generalizing g with
  | nil => exact fun _ mem => absurd mem List.not_mem_nil
  | cons first rest ih =>
      intro e mem
      rcases List.mem_cons.mp mem with rfl | later
      · exact h.1
      · exact ih h.2.2 e later

/-- What is shown next is what was left, with the fields of an exit filled in. -/
theorem Linked.shown_eq {before after : List Exit} {e e' : Exit}
    (h : Linked p g (before ++ e :: e' :: after) g') : e'.shown = e.left.prepareExit p.scratch := by
  induction before generalizing g with
  | nil => exact h.2.2.2.1
  | cons first rest ih => exact ih h.2.2

theorem Linked.left_eq {before : List Exit} {e : Exit} (h : Linked p g (before ++ [e]) g') :
    e.left = g' := by
  induction before generalizing g with
  | nil => exact h.2.2.symm
  | cons first rest ih => exact ih h.2.2

end

/-! ## The exits of an exchange -/

theorem Bracketed.exists_during {α : Type} {body : List Event → Except Stop α → Ghcb → Prop}
    {outcome : Except Stop α} (run : Bracketed body events outcome g') :
    ∃ during, body during outcome g' ∧ exits events = exits during := by
  cases run with
  | done inside => exact ⟨_, inside, exits_bracket⟩
  | failed _ inside => exact ⟨_, inside, exits_bracket⟩
  | faulted inside => exact ⟨_, inside, exits_mask⟩

variable {entries : List Entry} {result : Except Stop Unit}

theorem ExchangeRun.exists_exitsRun (run : ExchangeRun p entries g events result g')
    (nonempty : 0 < entries.length) (few : entries.length ≤ Change.maxEntries) :
    ∃ during outcome,
      ExitsRun p (entries.length - 1) (p.counterRange - 1) 0 (placed entries) during outcome g' ∧
      exits events = exits during ∧ result = outcome.map fun _ => () := by
  cases run with
  | done bracket =>
      obtain ⟨during, ends, same⟩ := bracket.exists_during
      refine ⟨during, _, (ends_request_iff nonempty few).mp ends, ?_, rfl⟩
      rw [exits_append, exits_log, exits_nil, List.append_nil, same]
  | stopped bracket =>
      obtain ⟨during, ends, same⟩ := bracket.exists_during
      exact ⟨during, _, (ends_request_iff nonempty few).mp ends, same, rfl⟩

/-! ## Ends for the worse -/

/-- The ways in which a request can be ended by what an exit brings. -/
inductive AtExit : Stop → Prop
  | exitFailed (code : Nat) : AtExit (.failed (.exitFailed code))
  | requestRejected (code : Nat) : AtExit (.failed (.requestRejected code))
  | cursorTampered (current last : Nat) : AtExit (.failed (.cursorTampered current last))
  | exitLimitExceeded (limit : Nat) : AtExit (.failed (.exitLimitExceeded limit))
  | overflow : AtExit (.fault .wordOverflow)

theorem atExit_of_verdict {limit : Option ExitLimit} {seen : Nat} {error : ChangeError}
    (h : verdict limit last seen n g = some (.error error)) : AtExit (.failed error) := by
  unfold verdict at h
  split at h
  · cases h
    exact .exitFailed _
  · split at h
    · cases h
      exact .requestRejected _
    · split at h
      · cases h
        exact .cursorTampered _ _
      · split at h
        · cases h
        · split at h
          · cases h
            exact .exitLimitExceeded _
          · cases h

theorem ExitsRun.atExit {result : Except Stop Nat}
    (run : ExitsRun p last room n g events result g') {stop : Stop} (ended : result = .error stop) :
    AtExit stop := by
  induction run with
  | overflow =>
      cases ended
      exact .overflow
  | done => cases ended
  | failed judged =>
      cases ended
      exact atExit_of_verdict judged
  | again _ _ ih => exact ih ended

theorem ExchangeRun.atExit {stop : Stop} (run : ExchangeRun p entries g events (.error stop) g')
    (nonempty : 0 < entries.length) (few : entries.length ≤ Change.maxEntries) : AtExit stop := by
  obtain ⟨during, outcome, exitsRun, -, ended⟩ := run.exists_exitsRun nonempty few
  cases outcome with
  | ok count => cases ended
  | error stop' =>
      cases ended
      exact exitsRun.atExit rfl

end SnpMemory.Protocol

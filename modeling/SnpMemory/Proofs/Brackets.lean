/-
# `SnpMemory.Proofs.Brackets` — what an exchange looks like from outside

Whatever the hypervisor does, an exchange is one of three things:

    mask  exit ... exit  unmask  log       it went well, and the line counts the exits
    mask  exit ... exit  unmask            it failed
    mask  exit ... exit                    the counter of exits came to its end

The exits are all to the page of the protocol, and there may be none: a request of a
length that is not permitted fails before the first exit (`refused_or_exitsRun`).  How
many there are at most is for the limit on exits to say (`ExitsRun.length_exits_add_le`),
and how many there are at least in the last case is for the counter.
-/
import SnpMemory.Proofs.Exits

namespace SnpMemory.Protocol

/-- The exit as an event. -/
def Exit.event (e : Exit) : Event := .exit e.gpa e.shown e.left

variable {p : Protocol} {last room n : Nat} {g g' : Ghcb} {events : List Event}
  {limit : ExitLimit}

@[simp] theorem exits_exit (gpa : Frame .small) (page back : Ghcb) :
    exits (.exit gpa page back :: events) = ⟨gpa, page, back⟩ :: exits events := rfl

theorem exits_map_event (taken : List Exit) : exits (taken.map Exit.event) = taken := by
  induction taken with
  | nil => rfl
  | cons e rest ih => exact congrArg (e :: ·) ih

/-! ## The exits of a request -/

section

variable {outcome : Except Stop Nat}

/-- During the exits of a request nothing else happens. -/
theorem ExitsRun.eq_map_event (run : ExitsRun p last room n g events outcome g') :
    events = (exits events).map Exit.event := by
  induction run with
  | overflow => rfl
  | done => rfl
  | failed => rfl
  | again _ _ ih => exact congrArg (_ :: ·) ih

/-- When all entries are done, the exits have been counted. -/
theorem ExitsRun.count_eq (run : ExitsRun p last room n g events outcome g') {count : Nat}
    (ended : outcome = .ok count) : count = n + (exits events).length := by
  induction run with
  | overflow => cases ended
  | done =>
      cases ended
      rfl
  | failed => cases ended
  | again _ _ ih =>
      rw [ih ended, exits_exit, List.length_cons]
      omega

/-- Exits that do not get all entries done end with an error, or with the counter. -/
theorem ExitsRun.failed_or_overflow (run : ExitsRun p last room n g events outcome g')
    {stop : Stop} (ended : outcome = .error stop) :
    (∃ error, stop = .failed error) ∨
      stop = .fault .wordOverflow ∧ (exits events).length = room + 1 := by
  induction run with
  | overflow =>
      cases ended
      exact .inr ⟨rfl, rfl⟩
  | done => cases ended
  | failed =>
      cases ended
      exact .inl ⟨_, rfl⟩
  | again _ _ ih =>
      rcases ih ended with error | ⟨overflow, all⟩
      · exact .inl error
      · exact .inr ⟨overflow, congrArg (· + 1) all⟩

theorem ne_of_verdict_eq_none {seen : Nat} (h : verdict (some limit) last seen n g = none) :
    n ≠ limit.count := by
  rintro rfl
  unfold verdict at h
  split at h
  · cases h
  · split at h
    · cases h
    · split at h
      · cases h
      · split at h
        · cases h
        · rw [Option.map_some, if_pos rfl] at h
          cases h

/-- The exit that reaches the limit is the last one. -/
theorem ExitsRun.length_exits_add_le (run : ExitsRun p last room n g events outcome g')
    (limited : p.exitLimit = some limit) (below : n < limit.count) :
    (exits events).length + n ≤ limit.count := by
  have one : 1 + n ≤ limit.count := by omega
  induction run with
  | overflow => exact one
  | done => exact one
  | failed => exact one
  | again judged _ ih =>
      rw [limited] at judged
      have other := ne_of_verdict_eq_none judged
      have later := ih (by omega) (by omega)
      rw [exits_exit, List.length_cons]
      omega

/-- A request is refused for its length before anything happens, or it is exits only. -/
theorem refused_or_exitsRun {entries : List Entry}
    (ends : (p.request entries).Ends g events outcome g') :
    (events = [] ∧ ∃ error, outcome = .error (.failed error)) ∨
      ExitsRun p (entries.length - 1) (p.counterRange - 1) 0 (placed entries) events outcome
        g' := by
  by_cases empty : entries.length = 0
  · rw [request, if_pos empty] at ends
    obtain ⟨rfl, rfl, -⟩ := Guest.ends_fail.mp ends
    exact .inl ⟨rfl, _, rfl⟩
  · by_cases many : Change.maxEntries < entries.length
    · rw [request, if_neg empty, if_pos many] at ends
      obtain ⟨rfl, rfl, -⟩ := Guest.ends_fail.mp ends
      exact .inl ⟨rfl, _, rfl⟩
    · exact .inr ((ends_request_iff (Nat.pos_of_ne_zero empty) (Nat.not_lt.mp many)).mp ends)

end

/-! ## Exchanges -/

/-- Exits that a protocol can take for one request. -/
structure Taken (p : Protocol) (taken : List Exit) : Prop where
  gpa_eq : ∀ e ∈ taken, e.gpa = p.gpa
  length_le : ∀ limit, p.exitLimit = some limit → taken.length ≤ limit.count

/-- The events of an exchange that took the given exits, by its result. -/
inductive Bracket (p : Protocol) (entries : List Entry) (taken : List Exit) :
    List Event → Except Stop Unit → Prop
  | done : Bracket p entries taken
      (.mask :: (taken.map Exit.event ++
        [.unmask, .log (.exchanged entries.length taken.length)])) (.ok ())
  | failed (error : ChangeError) :
      Bracket p entries taken (.mask :: (taken.map Exit.event ++ [.unmask]))
        (.error (.failed error))
  | overflow : p.counterRange ≤ taken.length →
      Bracket p entries taken (.mask :: taken.map Exit.event) (.error (.fault .wordOverflow))

theorem Bracket.exits_eq {entries : List Entry} {taken : List Exit} {result : Except Stop Unit}
    (h : Bracket p entries taken events result) : exits events = taken := by
  cases h with
  | done => rw [exits_mask, exits_append, exits_map_event, exits_unmask, exits_log, exits_nil,
      List.append_nil]
  | failed => rw [exits_bracket, exits_map_event]
  | overflow => rw [exits_mask, exits_map_event]

/-- What holds of masking and unmasking, of exits and of the line at the end holds of every event
of an exchange. -/
theorem Bracket.forall_mem {entries : List Entry} {taken : List Exit} {result : Except Stop Unit}
    {P : Event → Prop} (mask : P .mask) (unmask : P .unmask)
    (exit : ∀ gpa page back, P (.exit gpa page back))
    (log : ∀ entries exits, P (.log (.exchanged entries exits)))
    (h : Bracket p entries taken events result) : ∀ ev ∈ events, P ev := by
  have during : ∀ ev ∈ taken.map Exit.event, P ev := by
    intro ev mem
    obtain ⟨e, -, rfl⟩ := List.mem_map.mp mem
    exact exit _ _ _
  cases h with
  | done =>
      have after : ∀ ev ∈ [Event.unmask, .log (.exchanged entries.length taken.length)], P ev :=
        List.forall_mem_cons.mpr ⟨unmask, List.forall_mem_singleton.mpr (log _ _)⟩
      exact List.forall_mem_cons.mpr ⟨mask, List.forall_mem_append.mpr ⟨during, after⟩⟩
  | failed =>
      have after := List.forall_mem_singleton.mpr unmask
      exact List.forall_mem_cons.mpr ⟨mask, List.forall_mem_append.mpr ⟨during, after⟩⟩
  | overflow => exact List.forall_mem_cons.mpr ⟨mask, during⟩

/-- The exits of a request, and how it ends after them. -/
theorem exists_taken {entries : List Entry} {outcome : Except Stop Nat}
    (ends : (p.request entries).Ends g events outcome g') :
    ∃ taken, Taken p taken ∧ events = taken.map Exit.event ∧
      (outcome = .ok taken.length ∨ (∃ error, outcome = .error (.failed error)) ∨
        outcome = .error (.fault .wordOverflow) ∧ p.counterRange ≤ taken.length) := by
  rcases refused_or_exitsRun ends with ⟨rfl, error, rfl⟩ | run
  · exact ⟨[], ⟨List.forall_mem_nil _, fun limit _ => Nat.zero_le _⟩, rfl, .inr (.inl ⟨error, rfl⟩)⟩
  · refine ⟨exits events, ⟨run.linked.gpa_eq, fun limit limited => ?_⟩, run.eq_map_event, ?_⟩
    · exact run.length_exits_add_le limited limit.pos
    · cases outcome with
      | ok count =>
          rw [run.count_eq rfl, Nat.zero_add]
          exact .inl rfl
      | error stop =>
          rcases run.failed_or_overflow rfl with ⟨error, rfl⟩ | ⟨rfl, all⟩
          · exact .inr (.inl ⟨error, rfl⟩)
          · exact .inr (.inr ⟨rfl, by omega⟩)

/-- Whatever the hypervisor does, an exchange is one of the three things. -/
theorem ExchangeRun.exists_bracket {entries : List Entry} {result : Except Stop Unit}
    (run : ExchangeRun p entries g events result g') :
    ∃ taken, Taken p taken ∧ Bracket p entries taken events result := by
  cases run with
  | done bracket =>
      cases bracket with
      | done ends =>
          obtain ⟨taken, within, rfl, counted | ⟨error, other⟩ | ⟨other, -⟩⟩ := exists_taken ends
          · cases counted
            refine ⟨taken, within, ?_⟩
            rw [List.cons_append, List.append_assoc]
            exact .done
          · cases other
          · cases other
  | stopped bracket =>
      cases bracket with
      | failed other ends =>
          obtain ⟨taken, within, rfl, counted | ⟨error, failed⟩ | ⟨fault, -⟩⟩ := exists_taken ends
          · cases counted
          · cases failed
            exact ⟨taken, within, .failed error⟩
          · cases fault
            exact absurd rfl (other .wordOverflow)
      | faulted ends =>
          obtain ⟨taken, within, rfl, counted | ⟨error, failed⟩ | ⟨fault, all⟩⟩ := exists_taken ends
          · cases counted
          · cases failed
          · cases fault
            exact ⟨taken, within, .overflow all⟩

end SnpMemory.Protocol

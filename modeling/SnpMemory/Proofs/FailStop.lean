/-
# `SnpMemory.Proofs.FailStop` — a change stops at the first fatal answer, and only there

An answer is fatal if nothing is left to be done about it.  That is so of every
exchange that failed, and of every PVALIDATE call that failed, with one exception:
the call for a 2MiB block that is held in another size.  `Event.fatal?` is what such
an answer stops a change with.

    FailStop es (.ok ())         no answer among `es` is fatal
    FailStop es (.error stop)    the last answer among `es` is fatal and stops the run
                                 with `stop`; none before it is

A part of a run that was not stopped can be followed by another (`FailStop.append`),
and so the rule climbs from the pages of a block to a whole order, level by level.
What it needs at the bottom is that a run has no other way to stop: an entry that
asks for something and ends in memory (`Entry.Proper`) is never found invalid, and
none of its pages lies beyond memory.  The entries of a tiling are like that
(`Goal.Tiles.proper`).
-/
import SnpMemory.Proofs.Marking

namespace SnpMemory

/-! ## Entries that cannot fail by themselves -/

/-- The entry asks for an assignment, of a block that ends in memory. -/
structure Entry.Proper (e : Entry) : Prop where
  asks : ∃ assignment, e.assignment? = some assignment
  within : e.address.val + e.size.bytes ≤ physicalLimit

theorem Goal.Tiles.proper {goal : Goal} {address : Nat} {entries : List Entry}
    (tiles : goal.Tiles address entries) (within : goal.stop ≤ physicalLimit) :
    ∀ e ∈ entries, e.Proper := by
  intro e mem
  obtain ⟨place, fits, -, inside⟩ := tiles.exists_fits mem
  refine ⟨⟨_, fits.assignment_eq⟩, ?_⟩
  rw [fits.address_eq]
  exact Nat.le_trans inside within

namespace Change

/-! ## Fatal answers -/

/-- What the answer stops a change with, if it is fatal. -/
def Event.fatal? : Event → Option Stop
  | ⟨.pvalidate address size v, answer⟩ =>
    match (answer : Except PvalidateError Unit) with
    | .ok () => none
    | .error error =>
      if error = .sizeMismatch ∧ size = .large then none
      else some (.failed (.pvalidate address size v error))
  | ⟨.exchange _, answer⟩ =>
    match (answer : Except Stop Unit) with
    | .ok () => none
    | .error stop => some stop
  | _ => none

section

variable {address : PhysAddr} {size : PageSize} {v : Validation} {error : PvalidateError}
  {entries : List Entry} {stop : Stop}

@[simp] theorem fatal?_pvalidate_ok : Event.fatal? (.pvalidate address size v (.ok ())) = none :=
  rfl

theorem fatal?_pvalidate_error (other : ¬ (error = .sizeMismatch ∧ size = .large)) :
    Event.fatal? (.pvalidate address size v (.error error)) =
      some (.failed (.pvalidate address size v error)) :=
  if_neg other

@[simp] theorem fatal?_split :
    Event.fatal? (.pvalidate address .large v (.error .sizeMismatch)) = none := rfl

@[simp] theorem fatal?_exchange_ok : Event.fatal? (.exchange entries (.ok ())) = none := rfl

@[simp] theorem fatal?_exchange_error :
    Event.fatal? (.exchange entries (.error stop)) = some stop := rfl

@[simp] theorem fatal?_log (line : LogLine) : Event.fatal? (.log line) = none := rfl

end

/-- A run with these events and this result stops at the first fatal answer, or else not
at all. -/
inductive FailStop : List Event → Except Stop Unit → Prop
  | ended {events : List Event} :
      (∀ ev ∈ events, ev.fatal? = none) → FailStop events (.ok ())
  | stopped {before : List Event} {last : Event} {stop : Stop} :
      (∀ ev ∈ before, ev.fatal? = none) → last.fatal? = some stop →
      FailStop (before ++ [last]) (.error stop)

section

variable {events more : List Event} {result : Except Stop Unit} {ev : Event} {stop : Stop}

theorem FailStop.nil : FailStop [] (.ok ()) := .ended (List.forall_mem_nil _)

theorem FailStop.fatal (h : ev.fatal? = some stop) : FailStop [ev] (.error stop) :=
  .stopped (List.forall_mem_nil _) h

/-- One part of a run after another. -/
theorem FailStop.append (first : FailStop events (.ok ())) (h : FailStop more result) :
    FailStop (events ++ more) result := by
  cases first with
  | ended none =>
      cases h with
      | ended none' => exact .ended (List.forall_mem_append.mpr ⟨none, none'⟩)
      | stopped none' last =>
          rw [← List.append_assoc]
          exact .stopped (List.forall_mem_append.mpr ⟨none, none'⟩) last

theorem FailStop.cons (none : ev.fatal? = none) (h : FailStop more result) :
    FailStop (ev :: more) result := by
  have first : FailStop [ev] (.ok ()) := .ended (List.forall_mem_singleton.mpr none)
  exact first.append h

theorem FailStop.eq_ok_iff (h : FailStop events result) :
    result = .ok () ↔ ∀ ev ∈ events, ev.fatal? = none := by
  cases h with
  | ended none => exact ⟨fun _ => none, fun _ => rfl⟩
  | @stopped before last stop _ fatal =>
      constructor
      · intro ok
        cases ok
      · intro none
        cases fatal.symm.trans (none last (List.mem_append_right _ List.mem_cons_self))

theorem FailStop.exists_fatal (h : FailStop events (.error stop)) :
    ∃ ev ∈ events, ev.fatal? = some stop := by
  cases h with
  | stopped _ fatal => exact ⟨_, List.mem_append_right _ List.mem_cons_self, fatal⟩

/-- After a fatal answer comes nothing, and it is the first. -/
theorem FailStop.eq_of_fatal {before after : List Event}
    (h : FailStop (before ++ ev :: after) result) (fatal : ev.fatal? = some stop) :
    after = [] ∧ (∀ ev' ∈ before, ev'.fatal? = none) ∧ result = .error stop := by
  generalize whole : before ++ ev :: after = events at h
  cases h with
  | ended none =>
      subst whole
      cases fatal.symm.trans (none ev (List.mem_append_right _ List.mem_cons_self))
  | @stopped before' last stop' none last' =>
      rcases List.eq_nil_or_concat after with rfl | ⟨after', final, rfl⟩
      · obtain ⟨rfl, same⟩ := List.append_inj' whole rfl
        cases same
        cases fatal.symm.trans last'
        exact ⟨rfl, none, rfl⟩
      · -- the answer would be one of those before the last
        have split : before ++ ev :: after' ++ [final] = before' ++ [last] := by
          rw [← whole, List.append_assoc, List.cons_append, List.concat_eq_append]
        obtain ⟨rfl, -⟩ := List.append_inj' split rfl
        cases fatal.symm.trans (none ev (List.mem_append_right _ List.mem_cons_self))

end

/-! ## Each part of a run fail-stops -/

variable {events : List Event} {result : Except Stop Unit} {entries : List Entry}

theorem PagesRun.failStop {first : PhysAddr} {v : Validation} {ns : List Nat}
    (run : PagesRun first v ns events result)
    (within : ∀ n ∈ ns, first.val + n * PageSize.small.bytes < physicalLimit) :
    FailStop events result := by
  induction run with
  | done => exact .nil
  | beyond place =>
      have inside := within _ List.mem_cons_self
      have outside := PhysAddr.ofNat?_eq_none_iff.mp place
      exact absurd inside (Nat.not_lt.mpr outside)
  | failed error place =>
      refine .fatal (fatal?_pvalidate_error ?_)
      rintro ⟨-, large⟩
      cases large
  | next _ _ ih =>
      exact .cons fatal?_pvalidate_ok (ih fun n mem => within n (List.mem_cons_of_mem _ mem))

theorem BlockRun.failStop {address : PhysAddr} {size : PageSize} {v : Validation}
    (run : BlockRun address v size events result)
    (within : address.val + size.bytes ≤ physicalLimit) : FailStop events result := by
  cases run with
  | whole => exact .cons fatal?_pvalidate_ok .nil
  | failed other => exact .fatal (fatal?_pvalidate_error other)
  | split pages =>
      refine .cons fatal?_split (.cons (fatal?_log _) (pages.failStop ?_))
      intro n mem
      have few := List.mem_range.mp mem
      simp only [PageSize.bytes, smallPagesPerLarge] at *
      omega

theorem EntriesRun.failStop (run : EntriesRun entries events result)
    (proper : ∀ e ∈ entries, e.Proper) : FailStop events result := by
  induction run with
  | done => exact .nil
  | @invalid e _ nothing =>
      obtain ⟨assignment, asks⟩ := (proper e List.mem_cons_self).asks
      cases nothing.symm.trans asks
  | stopped _ block => exact block.failStop (proper _ List.mem_cons_self).within
  | next _ block _ ih =>
      obtain ⟨proper, proper'⟩ := List.forall_mem_cons.mp proper
      exact (block.failStop proper.within).append (ih proper')

theorem RequestsRun.failStop {requests : List (List Entry)}
    (run : RequestsRun requests events result) : FailStop events result := by
  induction run with
  | done => exact .nil
  | failed stop => exact .fatal fatal?_exchange_error
  | next _ ih => exact .cons fatal?_exchange_ok ih

theorem InTurn.failStop {first second : List Event → Except Stop Unit → Prop}
    (run : InTurn first second events result)
    (h : ∀ {events result}, first events result → FailStop events result)
    (h' : ∀ {events result}, second events result → FailStop events result) :
    FailStop events result := by
  cases run with
  | stopped run => exact h run
  | through run run' => exact (h run).append (h' run')

theorem BatchRun.failStop {assignment : Assignment}
    (run : BatchRun entries assignment events result) (proper : ∀ e ∈ entries, e.Proper) :
    FailStop events result := by
  cases assignment with
  | shared => exact InTurn.failStop run (fun h => h.failStop proper) fun h => h.failStop
  | guestOnly => exact InTurn.failStop run (fun h => h.failStop) fun h => h.failStop proper

theorem RangeRun.failStop {goal : Goal} {capacity address : Nat}
    (run : RangeRun goal capacity address events result) (memory : goal.InMemory)
    (proper : ∀ e ∈ goal.tiling address, e.Proper) : FailStop events result := by
  induction run with
  | done => exact .nil
  | @limited address _ _ _ walked =>
      obtain ⟨_, _, walked'⟩ := Goal.exists_walk_eq memory capacity address
      cases walked.symm.trans walked'
  | stopped _ walked batch =>
      rw [Goal.tiling_eq_append walked] at proper
      exact batch.failStop (List.forall_mem_append.mp proper).1
  | next _ walked batch _ ih =>
      rw [Goal.tiling_eq_append walked] at proper
      obtain ⟨proper, proper'⟩ := List.forall_mem_append.mp proper
      exact (batch.failStop proper).append (ih proper')

theorem Order.proper_tiling {order : Order} (within : order.stop ≤ physicalLimit) :
    ∀ e ∈ order.goal.tiling order.start.start.val, e.Proper :=
  (Order.tiles within).proper within

theorem OrderRun.failStop {order : Order} {capacity : Nat}
    (run : OrderRun order capacity events result) (room : 0 < capacity)
    (within : order.stop ≤ physicalLimit) : FailStop events result := by
  obtain ⟨rest, rfl, rangeRun⟩ := run.exists_rangeRun room within
  exact .cons (fatal?_log _)
    (rangeRun.failStop (Order.goal_inMemory within) (Order.proper_tiling within))

end Change

end SnpMemory

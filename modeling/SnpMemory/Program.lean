/-
# `SnpMemory.Program` — programs that ask their surroundings for things

A guest program computes, and now and then makes a request of its surroundings:
run an instruction, hand something to the hypervisor, write a log line.  An
`Interface` says which requests there are and what answers each admits; a
`Program` is the tree of everything the program may do, one branch per answer.

    done a        the program has ended with result a
    ask r k       it makes the request r and goes on as k, applied to the answer

Two things are done with a program.  `run` plays it against a world that gives
the answers, and keeps the events.  `interpret` replaces every request by a
program over other requests, so that one level of the guest can be built on
another.  `Reaches p es q` says that some answers lead `p` to `q` with the events
`es`; it speaks about every point of every run, finished or not.
-/

namespace SnpMemory

/-- The requests that a program may make, and the answers to each. -/
structure Interface where
  Request : Type
  Answer : Request → Type

/-- A request together with the answer it was given. -/
abbrev Interface.Event (I : Interface) : Type := (r : I.Request) × I.Answer r

/-- A program over an interface, with results in `α`. -/
inductive Program (I : Interface) (α : Type) : Type where
  | done (result : α)
  | ask (request : I.Request) (next : I.Answer request → Program I α)

namespace Program

variable {I J : Interface} {α β γ : Type}

/-- One program after the other. -/
def bind : Program I α → (α → Program I β) → Program I β
  | done a, f => f a
  | ask r k, f => ask r fun answer => (k answer).bind f

instance : Monad (Program I) where
  pure := done
  bind := bind

/-- The program that makes one request and returns the answer. -/
def request (r : I.Request) : Program I (I.Answer r) := ask r done

@[simp] theorem pure_eq (a : α) : (pure a : Program I α) = done a := rfl

@[simp] theorem done_bind (a : α) (f : α → Program I β) : (done a >>= f) = f a := rfl

@[simp] theorem ask_bind (r : I.Request) (k : I.Answer r → Program I α) (f : α → Program I β) :
    (ask r k >>= f) = ask r fun answer => k answer >>= f := rfl

protected theorem bind_done (p : Program I α) : (p >>= done) = p := by
  induction p with
  | done a => rfl
  | ask r k ih => exact congrArg (ask r) (funext ih)

protected theorem bind_assoc (p : Program I α) (f : α → Program I β) (g : β → Program I γ) :
    ((p >>= f) >>= g) = (p >>= fun a => f a >>= g) := by
  induction p with
  | done a => rfl
  | ask r k ih => exact congrArg (ask r) (funext ih)

instance : LawfulMonad (Program I) :=
  LawfulMonad.mk' _ Program.bind_done done_bind Program.bind_assoc

/-! ## Running against a world -/

/-- A world that answers requests, and may remember what it was asked. -/
abbrev World (I : Interface) (σ : Type) : Type := (r : I.Request) → σ → I.Answer r × σ

/-- Runs a program against a world.  The events of the run are added to `past`. -/
def run {σ : Type} (world : World I σ) :
    Program I α → σ → (past : Array I.Event) → α × σ × Array I.Event
  | done a, s, past => (a, s, past)
  | ask r k, s, past =>
    let (answer, s) := world r s
    (k answer).run world s (past.push ⟨r, answer⟩)

theorem run_bind {σ : Type} (world : World I σ) (p : Program I α) (f : α → Program I β) (s : σ)
    (past : Array I.Event) : (p >>= f).run world s past =
      (f (p.run world s past).1).run world (p.run world s past).2.1 (p.run world s past).2.2 := by
  induction p generalizing s past with
  | done a => rfl
  | ask r k ih => exact ih _ _ _

/-! ## Building one level on another -/

/-- Carries out every request of a program by the given handler. -/
def interpret {m : Type → Type} [Monad m] (handle : (r : I.Request) → m (I.Answer r)) :
    Program I α → m α
  | done a => pure a
  | ask r k => handle r >>= fun answer => (k answer).interpret handle

theorem interpret_bind {m : Type → Type} [Monad m] [LawfulMonad m]
    (handle : (r : I.Request) → m (I.Answer r)) (p : Program I α) (f : α → Program I β) :
    (p >>= f).interpret handle = p.interpret handle >>= fun a => (f a).interpret handle := by
  induction p with
  | done a =>
    show (f a).interpret handle = pure a >>= fun a => (f a).interpret handle
    rw [pure_bind]
  | ask r k ih =>
    show (handle r >>= fun answer => (k answer >>= f).interpret handle) =
      (handle r >>= fun answer => (k answer).interpret handle) >>= _
    rw [bind_assoc]
    exact bind_congr ih

/-! ## Points of a run -/

/-- Some answers lead the first program to the second, with these events. -/
inductive Reaches : Program I α → List I.Event → Program I α → Prop where
  | here (p : Program I α) : Reaches p [] p
  | step {r : I.Request} {k : I.Answer r → Program I α} (answer : I.Answer r)
      {events : List I.Event} {q : Program I α} (tail : Reaches (k answer) events q) :
      Reaches (ask r k) (⟨r, answer⟩ :: events) q

theorem Reaches.trans {p q r : Program I α} {events more : List I.Event}
    (h : p.Reaches events q) (h' : q.Reaches more r) : p.Reaches (events ++ more) r := by
  induction h with
  | here p => exact h'
  | step answer tail ih => exact .step answer (ih h')

/-- What a program reaches, it reaches with another program after it. -/
theorem Reaches.bind {p q : Program I α} {events : List I.Event} (h : p.Reaches events q)
    (f : α → Program I β) : (p >>= f).Reaches events (q >>= f) := by
  induction h with
  | here p => exact .here _
  | step answer tail ih => exact .step answer ih

end Program

end SnpMemory

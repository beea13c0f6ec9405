/-
# `SnpMemory.Guest` — guest programs with a state of their own

A guest program works on a state (a buffer of entries, a page) and may stop
before its last step.  The state outlives a stop: whoever looks at it afterwards
sees what the program had written by then.
-/
import SnpMemory.Error
import SnpMemory.Program

namespace SnpMemory

/-- Programs over an interface that work on a state in `σ` and may stop early. -/
abbrev Guest (I : Interface) (σ α : Type) : Type := ExceptT Stop (StateT σ (Program I)) α

namespace Guest

variable {I : Interface} {σ α β : Type}

/-- The program from a given state on; it ends with the result and the last state. -/
def play (g : Guest I σ α) (s : σ) : Program I (Except Stop α × σ) := g.run.run s

/-- Carries out a program that has no state and does not stop. -/
def perform (p : Program I α) : Guest I σ α := fun s => p >>= fun a => .done (.ok a, s)

def ask (r : I.Request) : Guest I σ (I.Answer r) := perform (.request r)

def fail (error : ChangeError) : Guest I σ α := throw (.failed error)

def fault (fault : Fault) : Guest I σ α := throw (.fault fault)

/-- Takes a value that may be a fault instead. -/
def ofExcept : Except Fault α → Guest I σ α
  | .ok a => pure a
  | .error limit => fault limit

/-- Goes on with the outcome of a program, even if that was a stop. -/
def attempt (g : Guest I σ α) : Guest I σ (Except Stop α) :=
  fun s => g.play s >>= fun (result, s) => .done (.ok result, s)

def look : Guest I σ σ := fun s => .done (.ok s, s)

def put (s : σ) : Guest I σ Unit := fun _ => .done (.ok (), s)

def update (f : σ → σ) : Guest I σ Unit := fun s => .done (.ok (), f s)

/-! ## What each step does to the state -/

@[simp] theorem play_pure (a : α) (s : σ) : (pure a : Guest I σ α).play s = .done (.ok a, s) := rfl

@[simp] theorem play_throw (stop : Stop) (s : σ) :
    (throw stop : Guest I σ α).play s = .done (.error stop, s) := rfl

theorem play_bind (g : Guest I σ α) (f : α → Guest I σ β) (s : σ) :
    (g >>= f).play s = g.play s >>= fun
      | (.ok a, s) => (f a).play s
      | (.error stop, s) => .done (.error stop, s) := by
  show Program.bind _ _ = Program.bind _ _
  congr 1
  funext ⟨result, s⟩
  cases result <;> rfl

@[simp] theorem play_perform (p : Program I α) (s : σ) :
    (perform p : Guest I σ α).play s = p >>= fun a => .done (.ok a, s) := rfl

@[simp] theorem ask_eq (r : I.Request) :
    (ask r : Guest I σ (I.Answer r)) = perform (.ask r .done) := rfl

@[simp] theorem play_fail (error : ChangeError) (s : σ) :
    (fail error : Guest I σ α).play s = .done (.error (.failed error), s) := rfl

@[simp] theorem play_fault (limit : Fault) (s : σ) :
    (fault limit : Guest I σ α).play s = .done (.error (.fault limit), s) := rfl

@[simp] theorem play_attempt (g : Guest I σ α) (s : σ) :
    g.attempt.play s = g.play s >>= fun (result, s) => .done (.ok result, s) := rfl

@[simp] theorem play_look (s : σ) : (look : Guest I σ σ).play s = .done (.ok s, s) := rfl

@[simp] theorem play_put (s t : σ) : (put t : Guest I σ Unit).play s = .done (.ok (), t) := rfl

@[simp] theorem play_update (f : σ → σ) (s : σ) :
    (update f : Guest I σ Unit).play s = .done (.ok (), f s) := rfl

end Guest

end SnpMemory

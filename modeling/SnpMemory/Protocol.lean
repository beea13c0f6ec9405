/-
# `SnpMemory.Protocol` — page state changes through the communication page

A `Protocol` knows the address at which the hypervisor finds the page, and how
many exits one request may take.  `exchange` writes a request on the page and
exits until the hypervisor has moved past the last entry.  The hypervisor is not
trusted: after each exit the page is looked at again, and whatever does not fit
ends the exchange.  Interrupts are off from the first write to the last look: the
surroundings are told where this begins and where it ends, and how they see to it is
left to them (`Call.maskInterrupts`).

`serve` carries out the requests of a change of memory (`Change.Call`) in this
way.
-/
import SnpMemory.Change
import SnpMemory.Ghcb.Request

namespace SnpMemory

/-! ## Setting up -/

/-- Why there is no protocol over a page. -/
inductive SetupError where
  /-- The page has no guest-physical address. -/
  | untranslated
  /-- The page does not start at a multiple of its size. -/
  | unaligned
deriving DecidableEq

def SetupError.message : SetupError → String
  | untranslated => "couldn't translate the GHCB virtual address to a physical address"
  | unaligned => "GHCB must be 4KiB-aligned"

/-- A number of exits, at least one. -/
structure ExitLimit where
  count : Nat
  pos : 0 < count
deriving DecidableEq

/-- The limit of so many exits; zero is no limit. -/
def ExitLimit.ofNat? (n : Nat) : Option ExitLimit := if h : 0 < n then some ⟨n, h⟩ else none

structure Protocol where
  /-- Where the hypervisor finds the page. -/
  gpa : Frame .small
  /-- How many exits a request may take; any number if there is no limit. -/
  exitLimit : Option ExitLimit := none
  /-- How many values the counter of exits has; counting past the last is a fault. -/
  counterRange : Nat := wordLimit

namespace Protocol

/-- The address of a page as the hypervisor has to be told it. -/
def pageAddress (address : PhysAddr) : Except SetupError (Frame .small) :=
  match Frame.ofStart? address with
  | some frame => .ok frame
  | none => .error .unaligned

/-- The protocol over the page at an address, if it has one. -/
def ofAddress : Option PhysAddr → Except SetupError Protocol
  | none => .error .untranslated
  | some address => (pageAddress address).map fun gpa => { gpa }

/-! ## What the protocol needs of its surroundings -/

/-- The requests made while the protocol runs. -/
inductive Call where
  | pvalidate (address : PhysAddr) (size : PageSize) (validation : Validation)
  /-- From here on interrupts are to be off. -/
  | maskInterrupts
  /-- From here on they are to be as they were before. -/
  | unmaskInterrupts
  /-- Gives the page to the hypervisor and gets it back. -/
  | exit (gpa : Frame .small) (page : Ghcb)
  | terminate
  | log (line : LogLine)

@[reducible] def Call.Answer : Call → Type
  | pvalidate .. => Except PvalidateError Unit
  | maskInterrupts => Unit
  | unmaskInterrupts => Unit
  | exit .. => Ghcb
  | terminate => Unit
  | log _ => Unit

abbrev calls : Interface := ⟨Call, Call.Answer⟩

abbrev Event : Type := calls.Event

instance : Validating calls where
  pvalidate address size validation := .request (I := calls) (.pvalidate address size validation)
  log line := .request (I := calls) (.log line)

abbrev OnPage (α : Type) : Type := Guest calls Ghcb α

/-! ## One request -/

/-- What the header says before an exit. -/
inductive Progress where
  | finished
  | refused (error : ChangeError)
  /-- The entry at this position is next. -/
  | unfinished (current : Nat)
deriving DecidableEq

/-- Judges a header, after `exits` exits.  The last position must be the one that was
written, and the position in work must not be behind the one seen before. -/
def progress (limit : Option ExitLimit) (last seen exits : Nat) (c : Ghcb.Cursor) : Progress :=
  if c.last ≠ last ∨ c.current < seen then .refused (.cursorTampered c.current c.last)
  else if c.last < c.current then .finished
  else
    match limit with
    | none => .unfinished c.current
    | some limit =>
      if exits < limit.count then .unfinished c.current
      else .refused (.exitLimitExceeded limit.count)

/-- What the exit information says after an exit.  Of the first word only the low half
counts, but the whole word is reported. -/
def exitError? (g : Ghcb) : Option ChangeError :=
  if g.read .exitInfo1 % 0x100000000 ≠ 0 then some (.exitFailed (g.read .exitInfo1))
  else if g.read .exitInfo2 ≠ 0 then some (.requestRejected (g.read .exitInfo2))
  else none

variable (p : Protocol)

/-- Fills in the fields of an exit and gives the page to the hypervisor. -/
def exitOnce (scratch : Nat) : OnPage Unit := do
  .update fun g => g.prepareExit scratch
  .put (← Guest.ask (I := calls) (.exit p.gpa (← .look)))

/-- Exits until the header says that all is done, and returns the number of exits.
The counter can be raised `room` times before it has no next value. -/
def exitUntilDone (scratch last : Nat) : (room seen exits : Nat) → OnPage Nat
  | room, seen, exits => do
    match progress p.exitLimit last seen exits (← Guest.look).cursor with
    | .finished => pure exits
    | .refused error => .fail error
    | .unfinished current =>
      p.exitOnce scratch
      match room with
      | 0 => .fault .wordOverflow
      | room + 1 =>
        match exitError? (← Guest.look) with
        | some error => .fail error
        | none => exitUntilDone scratch last room current (exits + 1)

/-- Writes a request for the entries on a cleared page. -/
def placeRequest (entries : List Entry) : OnPage Unit := do
  .update Ghcb.reset
  .update fun g => g.putHeader ⟨0, entries.length - 1⟩
  .put (← .ofExcept ((← Guest.look).putEntries entries))

/-- Has the hypervisor process a request, and returns the number of exits it took. -/
def request (entries : List Entry) : OnPage Nat :=
  if entries.length = 0 then .fail .noEntries
  else if Change.maxEntries < entries.length then .fail (.tooManyEntries entries.length)
  else do
    placeRequest entries
    let scratch ← .ofExcept (addWord p.gpa.start.val Ghcb.Field.sharedBuffer.offset)
    p.exitUntilDone scratch (entries.length - 1) (p.counterRange - 1) 0 0

/-- Runs a program with interrupts off.  They are as before again after a failure, but not
after a fault. -/
def withoutInterrupts {α : Type} (body : OnPage α) : OnPage α := do
  Guest.ask (I := calls) .maskInterrupts
  match ← Guest.attempt body with
  | .ok a => do
    Guest.ask (I := calls) .unmaskInterrupts
    pure a
  | .error (.fault limit) => .fault limit
  | .error stop => do
    Guest.ask (I := calls) .unmaskInterrupts
    throw stop

/-- Has the hypervisor process entries, with interrupts off. -/
def exchange (entries : List Entry) : OnPage Unit := do
  let exits ← withoutInterrupts (p.request entries)
  Guest.ask (I := calls) (.log (.exchanged entries.length exits))

def changeFrame {size : PageSize} (frame : Frame size) (assignment : Assignment) : OnPage Unit :=
  p.exchange [.ofPage frame.start size assignment]

def terminate : OnPage Unit := do
  Guest.ask (I := calls) .terminate
  throw .terminated

/-! ## Changes of memory over the protocol -/

def serve : (call : Change.Call) → StateT Ghcb (Program calls) call.Answer
  | .pvalidate address size validation =>
    StateT.lift (.request (I := calls) (.pvalidate address size validation))
  | .exchange entries => (p.exchange entries).run
  | .terminate => StateT.lift (.request (I := calls) .terminate)
  | .log line => StateT.lift (.request (I := calls) (.log line))

/-- Runs a change of memory over the protocol, from a buffer and a page on.  It ends
with the result, the buffer and the page. -/
def playChange {α : Type} (change : Change.OnBuffer α) (buffer : List Entry) (page : Ghcb) :
    Program calls ((Except Stop α × List Entry) × Ghcb) :=
  ((change.play buffer).interpret (I := Change.calls) p.serve).run page

end Protocol

end SnpMemory

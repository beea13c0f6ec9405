/-
# `SnpMemory.Proofs.RegisterChanges` — pages changed through the register alone

Before there is a communication page, the guest has single pages changed by messages in
the protocol register.  Here such changes are made one after the other:

    changePages requests       the program
    asked.events               what one request does, if the hypervisor leaves `asked.left`
    asked.result               how it ends

A request for an address that is not that of a page does nothing.  Any other writes the
register, exits, and reads the register, and there is nothing else in a run
(`reaches_changePages_iff`).  What is read may be any word, and one word only says that the
page was changed (`pageChanged_eq_ok_iff`); the request itself, left where it was, does not
(`pageChanged_value`).  On a processor with such a register, what is read is what the
hypervisor has left (`leaves_of_follows`).
-/
import SnpMemory.Proofs.Instructions

namespace SnpMemory.Msr

/-! ## What the answers mean -/

/-- The low half of a word says whether it is a response, and the high half what it says. -/
theorem pageChanged_eq (value : UInt64) : pageChanged value =
    if value.toNat % 0x100000000 = 0x15 then
      if value.toNat / 0x100000000 = 0 then .ok () else .error .refused
    else .error .notResponse := by
  have low : (value.toNat % 0x1000 = 0x015 ∧ value.toNat / 0x1000 % 0x100000 = 0) ↔
      value.toNat % 0x100000000 = 0x15 := by omega
  simp only [pageChanged, Response.ofValue?, low]
  by_cases response : value.toNat % 0x100000000 = 0x15
  · simp only [response, if_true]
  · simp only [response, if_false]

/-- One word says that the page was changed. -/
theorem pageChanged_eq_ok_iff {value : UInt64} : pageChanged value = .ok () ↔ value = 0x15 := by
  rw [pageChanged_eq, ← UInt64.toNat_inj, show (0x15 : UInt64).toNat = 0x15 from rfl]
  split
  · split <;> simp <;> omega
  · simp
    omega

theorem pageChanged_eq_refused_iff {value : UInt64} :
    pageChanged value = .error .refused ↔
      value.toNat % 0x100000000 = 0x15 ∧ 0x100000000 ≤ value.toNat := by
  rw [pageChanged_eq]
  split
  · split <;> simp <;> omega
  · simp [*]

theorem pageChanged_eq_notResponse_iff {value : UInt64} :
    pageChanged value = .error .notResponse ↔ value.toNat % 0x100000000 ≠ 0x15 := by
  rw [pageChanged_eq]
  split
  · split <;> simp [*]
  · simp [*]

/-- No message is taken for a response, and so none for the news that a page was changed. -/
theorem pageChanged_value (m : Message) : pageChanged m.value = .error .notResponse := by
  simp only [pageChanged, m.ofValue?_response]

/-- The errors have different texts. -/
theorem PageError.message_inj {error error' : PageError} :
    error.message = error'.message ↔ error = error' := by
  cases error <;> cases error' <;> simp [message]

variable {result : Except PageError Unit}

theorem mapError_message_eq_ok_iff :
    result.mapError PageError.message = .ok () ↔ result = .ok () := by
  cases result with
  | ok u => exact ⟨fun _ => rfl, fun _ => rfl⟩
  | error e => exact ⟨nofun, nofun⟩

theorem mapError_message_eq_error_iff {error : PageError} :
    result.mapError PageError.message = .error error.message ↔ result = .error error := by
  cases result with
  | ok u => exact ⟨nofun, nofun⟩
  | error e =>
      show Except.error e.message = Except.error error.message ↔ _
      rw [Except.error.injEq, Except.error.injEq, PageError.message_inj]

end SnpMemory.Msr

namespace SnpMemory.Processor

/-! ## Requests, one after the other -/

/-- The change of the page at an address. -/
structure PageRequest where
  address : PhysAddr
  assignment : Assignment

/-- A request, and what the hypervisor leaves in the register if it comes to that. -/
structure Asked extends PageRequest where
  left : UInt64

/-- Makes requests, one after the other. -/
def changePages : List PageRequest → Code (List (Except Msr.PageError Unit))
  | [] => pure []
  | request :: rest => do
    let result ← changePage request.address request.assignment
    let results ← changePages rest
    return result :: results

/-- Whether a page starts at the address. -/
def PageRequest.Aligned (request : PageRequest) : Prop := 0x1000 ∣ request.address.val

instance (request : PageRequest) : Decidable request.Aligned :=
  inferInstanceAs (Decidable (_ ∣ _))

/-- The word that asks for the change: the kind, the address and the operation. -/
def PageRequest.word (request : PageRequest) : UInt64 :=
  UInt64.ofNat (0x014 ||| request.address.val ||| request.assignment.code <<< 52)

namespace Asked

/-- The instructions of a request, with what they leave behind. -/
def events (asked : Asked) : List Event :=
  if asked.Aligned then
    [⟨.wrmsr 0xc0010130 asked.word, ()⟩, ⟨.vmgexit, ()⟩, ⟨.rdmsr 0xc0010130, asked.left⟩]
  else []

/-- How a request ends. -/
def result (asked : Asked) : Except Msr.PageError Unit :=
  if asked.Aligned then Msr.pageChanged asked.left else .error .unaligned

end Asked

/-! ## The runs -/

theorem changePage_of_aligned {request : PageRequest} (aligned : request.Aligned) :
    changePage request.address request.assignment =
      .ask (.wrmsr 0xc0010130 request.word) fun _ => .ask .vmgexit fun _ =>
        .ask (.rdmsr 0xc0010130) fun value => .done (Msr.pageChanged value) := by
  let page : Frame .small := ⟨request.address, aligned⟩
  have made : Msr.changePageAt request.address request.assignment =
      .ok (.changePage page request.assignment) :=
    Msr.changePageAt_eq_ok_iff.mpr ⟨page, rfl, rfl⟩
  have word : request.word = (Msr.Message.changePage page request.assignment).value :=
    (Msr.Message.value_changePage page request.assignment).symm
  rw [word]
  simp only [changePage, made]
  rfl

theorem changePage_of_not_aligned {request : PageRequest} (unaligned : ¬ request.Aligned) :
    changePage request.address request.assignment = .done (.error .unaligned) := by
  simp only [changePage, Msr.changePageAt_of_not_dvd unaligned]
  rfl

theorem reaches_changePage_iff {request : PageRequest} {events : List Event}
    {result : Except Msr.PageError Unit} :
    (changePage request.address request.assignment).Reaches events (.done result) ↔
      ∃ asked : Asked, asked.toPageRequest = request ∧ events = asked.events ∧
        result = asked.result := by
  by_cases aligned : request.Aligned
  · rw [changePage_of_aligned aligned]
    constructor
    · intro h
      obtain ⟨u, rest, written, rfl⟩ := Program.reaches_ask_done.mp h
      obtain ⟨u', rest, left, rfl⟩ := Program.reaches_ask_done.mp written
      obtain ⟨value, rest, read, rfl⟩ := Program.reaches_ask_done.mp left
      obtain ⟨rfl, rfl⟩ := Program.reaches_done_done.mp read
      refine ⟨⟨request, value⟩, rfl, ?_, ?_⟩
      · exact (if_pos aligned).symm
      · exact (if_pos aligned).symm
    · rintro ⟨asked, rfl, rfl, rfl⟩
      rw [Asked.events, Asked.result, if_pos aligned, if_pos aligned]
      refine Program.reaches_ask_done.mpr ⟨(), _, ?_, rfl⟩
      refine Program.reaches_ask_done.mpr ⟨(), _, ?_, rfl⟩
      exact Program.reaches_ask_done.mpr ⟨asked.left, _, .here _, rfl⟩
  · rw [changePage_of_not_aligned aligned, Program.reaches_done_done]
    constructor
    · rintro ⟨rfl, rfl⟩
      -- nothing is left in the register, so any word stands for it
      refine ⟨⟨request, 0⟩, rfl, ?_, ?_⟩
      · exact (if_neg aligned).symm
      · exact (if_neg aligned).symm
    · rintro ⟨asked, rfl, rfl, rfl⟩
      rw [Asked.events, Asked.result, if_neg aligned, if_neg aligned]
      exact ⟨rfl, rfl⟩

theorem reaches_changePages_cons {request : PageRequest} {rest : List PageRequest}
    {events : List Event} {results : List (Except Msr.PageError Unit)} :
    (changePages (request :: rest)).Reaches events (.done results) ↔
      ∃ result others first more,
        (changePage request.address request.assignment).Reaches first (.done result) ∧
        (changePages rest).Reaches more (.done others) ∧
        results = result :: others ∧ events = first ++ more := by
  rw [changePages, Program.reaches_bind_done]
  constructor
  · rintro ⟨result, first, last, here, later, rfl⟩
    obtain ⟨others, more, none, there, ended, rfl⟩ := Program.reaches_bind_done.mp later
    obtain ⟨rfl, rfl⟩ := Program.reaches_done_done.mp ended
    rw [List.append_nil]
    exact ⟨result, others, first, more, here, there, rfl, rfl⟩
  · rintro ⟨result, others, first, more, here, there, rfl, rfl⟩
    refine ⟨result, first, more, here, ?_, rfl⟩
    exact Program.reaches_bind_done.mpr
      ⟨others, more, [], there, .here _, (List.append_nil _).symm⟩

/-- The runs of requests are those of each request, one after the other. -/
theorem reaches_changePages_iff {requests : List PageRequest} {events : List Event}
    {results : List (Except Msr.PageError Unit)} :
    (changePages requests).Reaches events (.done results) ↔
      ∃ steps : List Asked, steps.map Asked.toPageRequest = requests ∧
        events = steps.flatMap Asked.events ∧ results = steps.map Asked.result := by
  induction requests generalizing events results with
  | nil =>
      rw [changePages, Program.pure_eq, Program.reaches_done_done]
      constructor
      · rintro ⟨rfl, rfl⟩
        exact ⟨[], rfl, rfl, rfl⟩
      · rintro ⟨steps, none, rfl, rfl⟩
        cases List.map_eq_nil_iff.mp none
        exact ⟨rfl, rfl⟩
  | cons request rest ih =>
      rw [reaches_changePages_cons]
      constructor
      · rintro ⟨result, others, first, more, here, there, rfl, rfl⟩
        obtain ⟨asked, rfl, rfl, rfl⟩ := reaches_changePage_iff.mp here
        obtain ⟨steps, rfl, rfl, rfl⟩ := ih.mp there
        exact ⟨asked :: steps, rfl, rfl, rfl⟩
      · rintro ⟨steps, same, rfl, rfl⟩
        obtain ⟨asked, steps, rfl, rfl, rfl⟩ := List.map_eq_cons_iff.mp same
        exact ⟨_, _, _, _, reaches_changePage_iff.mpr ⟨asked, rfl, rfl, rfl⟩,
          ih.mpr ⟨steps, rfl, rfl, rfl⟩, rfl, rfl⟩

/-! ## What the hypervisor leaves -/

variable {σ : Type}

/-- A processor on which the hypervisor sees the register at VMGEXIT, and leaves a value in it.
Apart from the interrupt flag, the other instructions do nothing. -/
def onRegister (hypervisor : UInt64 → σ → UInt64 × σ) : Program.World calls (Machine σ)
  | .wrmsr register value, m =>
    ((), if register = Msr.register then { m with register := value } else m)
  | .rdmsr register, m => (if register = Msr.register then m.register else 0, m)
  | .vmgexit, m =>
    let (register, outside) := hypervisor m.register m.outside
    ((), { m with register, outside })
  | .vmgexitWith page, m => (page, m)
  | .pvalidate .., m => ((0, false), m)
  | .cli, m => ((), { m with interrupts := false })
  | .sti, m => ((), { m with interrupts := true })
  | .hlt, m => ((), m)
  | .log _, m => ((), m)

/-- The hypervisor, whose memory goes from `s` to `s'`, is shown the word of each request that
is made, and leaves what is left. -/
def Leaves (hypervisor : UInt64 → σ → UInt64 × σ) : (s : σ) → List Asked → (s' : σ) → Prop
  | s, [], s' => s' = s
  | s, asked :: rest, s' =>
    if asked.Aligned then
      asked.left = (hypervisor asked.word s).1 ∧
        Leaves hypervisor (hypervisor asked.word s).2 rest s'
    else Leaves hypervisor s rest s'

theorem leaves_of_follows {hypervisor : UInt64 → σ → UInt64 × σ} {steps : List Asked}
    {m m' : Machine σ}
    (follows : Program.Follows (onRegister hypervisor) m (steps.flatMap Asked.events) m') :
    Leaves hypervisor m.outside steps m'.outside := by
  induction steps generalizing m with
  | nil =>
      obtain rfl : m' = m := follows
      rfl
  | cons asked rest ih =>
      rw [List.flatMap_cons, Asked.events] at follows
      by_cases aligned : asked.Aligned
      · rw [if_pos aligned] at follows
        obtain ⟨-, -, left, later⟩ := follows
        rw [Leaves, if_pos aligned]
        exact ⟨left, ih later⟩
      · rw [if_neg aligned] at follows
        rw [Leaves, if_neg aligned]
        exact ih follows

/-- **Changes through the register.**  Let changes of pages be asked for one after the other.
A complete run is made up of the requests.  One for an address that is not a multiple of
4KiB is an error, and has no events.  Any other writes the word that asks for the change to
the register `0xc0010130`, exits once, reads the register once, and ends as the word says
that is read, which can be any word.  If a hypervisor sees and sets the register, whatever
it remembers, that is the word that it has left there.

The change was made if and only if the word is `0x15`.  It was refused if and only if the low
half of the word is `0x15` and the high half is not zero.  All other words are no response,
and the word that asks for the change is one of them. -/
theorem changed_through_register :
    (∀ (requests : List PageRequest) (events : List Event)
      (results : List (Except Msr.PageError Unit)),
      (changePages requests).Reaches events (.done results) ↔
        ∃ steps : List Asked, steps.map Asked.toPageRequest = requests ∧
          events = steps.flatMap Asked.events ∧ results = steps.map Asked.result) ∧
    (∀ (σ : Type) (hypervisor : UInt64 → σ → UInt64 × σ) (m : Machine σ)
      (requests : List PageRequest),
      let run := (changePages requests).run (onRegister hypervisor) m #[]
      ∃ steps : List Asked, steps.map Asked.toPageRequest = requests ∧
        Leaves hypervisor m.outside steps run.2.1.outside ∧
        run.2.2.toList = steps.flatMap Asked.events ∧ run.1 = steps.map Asked.result) ∧
    ∀ asked : Asked,
      let told := asked.result.mapError Msr.PageError.message
      (¬ asked.Aligned → asked.events = [] ∧ told = .error "page must be 4KiB-aligned") ∧
      (asked.Aligned →
        (told = .ok () ↔ asked.left = 0x15) ∧
        (told = .error "page state change failed" ↔
          asked.left.toNat % 0x100000000 = 0x15 ∧ 0x100000000 ≤ asked.left.toNat) ∧
        (told = .error "value is not a valid SNP Page State Change response" ↔
          asked.left.toNat % 0x100000000 ≠ 0x15) ∧
        (asked.left = asked.word →
          told = .error "value is not a valid SNP Page State Change response")) := by
  refine ⟨fun _ _ _ => reaches_changePages_iff, ?_, ?_⟩
  · intro σ hypervisor m requests run
    obtain ⟨reaches, follows⟩ :=
      Program.reaches_of_run (onRegister hypervisor) (changePages requests) m
    obtain ⟨steps, same, events, results⟩ := reaches_changePages_iff.mp reaches
    rw [events] at follows
    exact ⟨steps, same, leaves_of_follows follows, events, results⟩
  · intro asked told
    have failed (error : Msr.PageError) :
        told = .error error.message ↔ asked.result = .error error :=
      Msr.mapError_message_eq_error_iff
    refine ⟨fun unaligned => ⟨if_neg unaligned, ?_⟩, fun aligned => ?_⟩
    · exact (failed .unaligned).mpr (if_neg unaligned)
    have result : asked.result = Msr.pageChanged asked.left := if_pos aligned
    rw [result] at failed
    refine ⟨?_, ?_, ?_, ?_⟩
    · rw [Msr.mapError_message_eq_ok_iff, result, Msr.pageChanged_eq_ok_iff]
    · exact (failed .refused).trans Msr.pageChanged_eq_refused_iff
    · exact (failed .notResponse).trans Msr.pageChanged_eq_notResponse_iff
    · intro untouched
      have word : asked.left = (Msr.Message.changePage ⟨_, aligned⟩ asked.assignment).value := by
        rw [Msr.Message.value_changePage]
        exact untouched
      refine (failed .notResponse).mpr ?_
      rw [word, Msr.pageChanged_value]

/-- A page that is to be shared. -/
def sharePage : PageRequest where
  address := ⟨0x6000, by decide⟩
  assignment := .shared

/-- An address inside of that page. -/
def shareInside : PageRequest where
  address := ⟨0x6004, by decide⟩
  assignment := .shared

/-- The request that is left in place is no response, and one with an error code is a refusal.
Nothing is asked for an address inside of the page. -/
theorem changed_through_register_sharePage :
    let untouched : Asked := ⟨sharePage, sharePage.word⟩
    let between : Asked := ⟨shareInside, 0x15⟩
    let refused : Asked := ⟨sharePage, 0x700000015⟩
    (changePages [sharePage, shareInside, sharePage]).Reaches
        (untouched.events ++ refused.events)
        (.done [untouched.result, between.result, refused.result]) ∧
      untouched.result.mapError Msr.PageError.message =
        .error "value is not a valid SNP Page State Change response" ∧
      between.result.mapError Msr.PageError.message = .error "page must be 4KiB-aligned" ∧
      refused.result.mapError Msr.PageError.message = .error "page state change failed" := by
  intro untouched between refused
  obtain ⟨runs, -, results⟩ := changed_through_register
  have aligned : sharePage.Aligned := by decide
  obtain ⟨none, unaligned⟩ := (results between).1 (by decide)
  obtain ⟨-, -, -, inPlace⟩ := (results untouched).2 aligned
  obtain ⟨-, code, -, -⟩ := (results refused).2 aligned
  refine ⟨?_, inPlace rfl, unaligned, code.mpr ⟨by decide, by decide⟩⟩
  refine (runs _ _ _).mpr ⟨[untouched, between, refused], rfl, ?_, rfl⟩
  simp only [List.flatMap_cons, List.flatMap_nil, none, List.nil_append, List.append_nil]

end SnpMemory.Processor

/-
# `SnpMemory.Ghcb.Layout` — the fields of the communication page

The page is 4096 bytes.  Its fields follow each other without gaps
(`consecutive_all`): what has no meaning is a reserved field, which must be zero.
-/

namespace SnpMemory.Ghcb

def pageSize : Nat := 4096

inductive Field where
  /-- The privilege level of the running code. -/
  | cpl
  | xss
  | dr7
  | rax
  | rcx
  | rdx
  | rbx
  /-- Why the guest exits. -/
  | exitCode
  /-- What the guest adds to the exit code, and what the hypervisor says about the exit. -/
  | exitInfo1
  /-- What the guest adds to the exit code, and what the hypervisor says about the request. -/
  | exitInfo2
  /-- Where the guest keeps further information. -/
  | scratch
  | xcr0
  /-- Which words of the first part of the page are valid. -/
  | validBitmap
  /-- Where the saved floating-point state is. -/
  | x87StateGpa
  /-- Room for requests that need more than the fields above. -/
  | sharedBuffer
  | protocolVersion
  /-- How the page is used; zero for the use described here. -/
  | usage
  /-- A part without meaning. -/
  | reserved (index : Fin 9)
deriving DecidableEq

namespace Field

def offset : Field → Nat
  | reserved 0 => 0
  | cpl => 203
  | reserved 1 => 204
  | xss => 320
  | reserved 2 => 328
  | dr7 => 352
  | reserved 3 => 360
  | rax => 504
  | reserved 4 => 512
  | rcx => 776
  | rdx => 784
  | rbx => 792
  | reserved 5 => 800
  | exitCode => 912
  | exitInfo1 => 920
  | exitInfo2 => 928
  | scratch => 936
  | reserved 6 => 944
  | xcr0 => 1000
  | validBitmap => 1008
  | x87StateGpa => 1024
  | reserved 7 => 1032
  | sharedBuffer => 2048
  | reserved 8 => 4080
  | protocolVersion => 4090
  | usage => 4092

def width : Field → Nat
  | reserved 0 => 203
  | cpl => 1
  | reserved 1 => 116
  | xss => 8
  | reserved 2 => 24
  | dr7 => 8
  | reserved 3 => 144
  | rax => 8
  | reserved 4 => 264
  | rcx => 8
  | rdx => 8
  | rbx => 8
  | reserved 5 => 112
  | exitCode => 8
  | exitInfo1 => 8
  | exitInfo2 => 8
  | scratch => 8
  | reserved 6 => 56
  | xcr0 => 8
  | validBitmap => 16
  | x87StateGpa => 8
  | reserved 7 => 1016
  | sharedBuffer => 2032
  | reserved 8 => 10
  | protocolVersion => 2
  | usage => 4

/-- The fields in the order in which they lie on the page. -/
def all : List Field :=
  [reserved 0, cpl, reserved 1, xss, reserved 2, dr7, reserved 3, rax, reserved 4, rcx, rdx, rbx,
    reserved 5, exitCode, exitInfo1, exitInfo2, scratch, reserved 6, xcr0, validBitmap,
    x87StateGpa, reserved 7, sharedBuffer, reserved 8, protocolVersion, usage]

theorem mem_all (f : Field) : f ∈ all := by
  cases f with
  | reserved index => revert index; decide
  | _ => decide

/-- Whether a byte of the page belongs to a field. -/
def Covers (f : Field) (i : Nat) : Prop := f.offset ≤ i ∧ i < f.offset + f.width

instance (f : Field) (i : Nat) : Decidable (f.Covers i) := inferInstanceAs (Decidable (_ ∧ _))

/-- Fields that follow each other without gaps from one offset to another. -/
def Consecutive (start : Nat) : List Field → (stop : Nat) → Prop
  | [], stop => start = stop
  | f :: rest, stop => f.offset = start ∧ Consecutive (start + f.width) rest stop

instance decidableConsecutive : (start : Nat) → (fields : List Field) → (stop : Nat) →
    Decidable (Consecutive start fields stop)
  | start, [], stop => inferInstanceAs (Decidable (start = stop))
  | start, f :: rest, stop =>
    have := decidableConsecutive (start + f.width) rest stop
    inferInstanceAs (Decidable (_ ∧ _))

/-- The fields make up the page. -/
theorem consecutive_all : Consecutive 0 all pageSize := by decide

/-- Consecutive fields leave no byte out. -/
theorem Consecutive.exists_covers {start stop i : Nat} {fields : List Field}
    (h : Consecutive start fields stop) (low : start ≤ i) (high : i < stop) :
    ∃ f ∈ fields, f.Covers i := by
  induction fields generalizing start with
  | nil =>
    have : start = stop := h
    omega
  | cons f rest ih =>
    obtain ⟨first, after⟩ := h
    by_cases here : i < start + f.width
    · exact ⟨f, List.mem_cons_self, by unfold Covers; omega⟩
    · obtain ⟨f', mem, covers⟩ := ih after (by omega)
      exact ⟨f', List.mem_cons_of_mem _ mem, covers⟩

theorem end_le (f : Field) : f.offset + f.width ≤ pageSize := by
  cases f with
  | reserved index => revert index; decide
  | _ => decide

end Field

end SnpMemory.Ghcb

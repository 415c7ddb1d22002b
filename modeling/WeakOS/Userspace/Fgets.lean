import Mathlib
import WeakOS.Libc.CString
import WeakOS.Stdio.Model
import WeakOS.Syscall.User

namespace WeakOS

open X86

namespace Userspace

/-!
# Reading a line

`fgets` of the user's library, the system call that it makes, and `getline` of
the kernel, which does the work.  The characters that successive calls of
`wait_char` return are a sequence, and the result is what is written to memory
and what is echoed, in order.
-/

/-- A byte that is written. -/
structure Store where
  addr : BitVec 32
  byte : BitVec 8
  deriving DecidableEq

/-- Writes one after the other. -/
def Store.perform (stores : List Store) (mem : Mem) : Mem :=
  stores.foldl (fun mem store => Function.update mem store.addr store.byte) mem

structure Line where
  stores : List Store
  echoed : List (BitVec 8)

/-! ## The kernel -/

/-- The loop of `getline`, which has `left` iterations left when it is at `i`. -/
def getlineLoop (typed : Nat → BitVec 8) (ch : BitVec 32) : (left i : Nat) → Line
  | 0, i => ⟨[⟨ch + BitVec.ofNat 32 i, 0⟩], []⟩
  | left + 1, i =>
      if typed i = Stdio.newline then ⟨[⟨ch + BitVec.ofNat 32 i, 0⟩], [typed i]⟩
      else
        let rest := getlineLoop typed ch left (i + 1)
        ⟨⟨ch + BitVec.ofNat 32 i, typed i⟩ :: rest.stores, typed i :: rest.echoed⟩

def getline (typed : Nat → BitVec 8) (ch size : BitVec 32) : Line :=
  getlineLoop typed ch (size - 1).toNat 0

structure GetTermFrame where
  argc : BitVec 32
  pstr : BitVec 32

/-- The frame at an address. -/
def GetTermFrame.read (mem : Mem) (pframe : BitVec 32) : GetTermFrame :=
  ⟨read32 mem pframe, read32 mem (pframe + 4)⟩

/-- What `syscall_get_term` does with its frame. -/
def GetTermFrame.line (typed : Nat → BitVec 8) (frame : GetTermFrame) : Line :=
  getline typed frame.pstr 100

def syscallGetTerm (typed : Nat → BitVec 8) : Syscall.SyscallFunction := fun pframe mem =>
  (0, Store.perform ((GetTermFrame.read mem pframe).line typed).stores mem)

/-! ## The library -/

/-- The system call that `fgets` makes. -/
def fgetsCmd : BitVec 32 := 2

/-- The arguments that it passes. -/
def fgetsArg (str : BitVec 32) (_num : Int) : List (BitVec 32) := [str]

/-- `fgets`, with the frame that the kernel gets. -/
def fgets (typed : Nat → BitVec 8) (str : BitVec 32) (num : Int) : Line :=
  (GetTermFrame.line typed ⟨BitVec.ofNat 32 (fgetsArg str num).length,
    (fgetsArg str num).headD 0⟩)

section Served

open Syscall

variable {kernel : Kernel} {operands : SyscallOperands} {machine : Machine} {str : BitVec 32}
  {num : Int} {typed : Nat → BitVec 8}

/-- When `syscall` is called like that, the handler calls `syscall_get_term`, and
this writes what `fgets` is said to write. -/
theorem fgets_served (ring0 : machine.cs = 8)
    (registered : kernel.function fgetsCmd = some (syscallGetTerm typed))
    (passed : Passed operands machine fgetsCmd (fgetsArg str num))
    (taskClear : ClearOfStack machine 1 kernel.task 40) {fuel : Nat} (enough : 12 ≤ fuel)
    (esp0 : BitVec 32) (ss0 : BitVec 16) (eip : BitVec 32) : ∃ caller entered,
      run (syscallCode operands) fuel 0 machine = some (.interrupt 0xc9 12, caller) ∧
      kernel.enter (caller.interrupt (syscallGate esp0 ss0) eip) = some entered ∧
      kernel.function (kernel.cmd entered.mem) = some (syscallGetTerm typed) ∧
      syscallGetTerm typed (kernel.stackframe entered.mem) entered.mem =
        (0, Store.perform (fgets typed str num).stores entered.mem) := by
  rcases @Kernel.syscall_entered kernel operands machine fgetsCmd [str] ring0 passed taskClear fuel
    enough esp0 ss0 eip with ⟨caller, entered, pushed, _, _, enters, _, found, argc, words⟩
  have pstr := words 0 Nat.one_pos
  have frame : GetTermFrame.read entered.mem (kernel.stackframe entered.mem) = ⟨1, str⟩ := by
    simp only [GetTermFrame.read, argc]
    simpa using pstr
  refine ⟨caller, entered, pushed, enters, ?_, ?_⟩
  · rw [found, registered]
  · rw [syscallGetTerm, frame]
    rfl

end Served

/-! ## What is written -/

section Written

variable (typed : Nat → BitVec 8)

/-- The characters up to a newline or up to the last but one place are written,
and then the terminator. -/
theorem getlineLoop_eq (ch : BitVec 32) (left i : Nat) : ∃ count ≤ left,
    (getlineLoop typed ch left i).stores = (List.range' i count).map (fun k =>
        ⟨ch + BitVec.ofNat 32 k, typed k⟩) ++ [⟨ch + BitVec.ofNat 32 (i + count), 0⟩] ∧
      (count < left → typed (i + count) = Stdio.newline) ∧
      ∀ k, i ≤ k → k < i + count → typed k ≠ Stdio.newline := by
  induction left generalizing i with
  | zero => exact ⟨0, Nat.le_refl 0, rfl, fun more => absurd more (Nat.lt_irrefl 0), by omega⟩
  | succ left inductionHypothesis =>
      by_cases ends : typed i = Stdio.newline
      · refine ⟨0, Nat.zero_le _, ?_, fun _ => ends, by omega⟩
        rw [getlineLoop, if_pos ends]
        rfl
      · rcases inductionHypothesis (i + 1) with ⟨count, few, stores, stopped, earlier⟩
        have position : i + (count + 1) = i + 1 + count := by omega
        refine ⟨count + 1, Nat.succ_le_succ few, ?_, ?_, fun k from' before => ?_⟩
        · rw [getlineLoop, if_neg ends, position, List.range'_succ, List.map_cons, List.cons_append,
            ← stores]
        · intro more
          rw [position]
          exact stopped (Nat.lt_of_succ_lt_succ more)
        · rcases Nat.lt_or_eq_of_le from' with later | rfl
          · exact earlier k later (by omega)
          · exact ends

/-- At most `num` bytes are written, from `str` on, and the last one is the terminator. -/
structure KeepsTo (str : BitVec 32) (num : Int) (stores : List Store) : Prop where
  few : stores.length ≤ num
  consecutive : stores.map Store.addr =
    (List.range stores.length).map (fun i => str + BitVec.ofNat 32 i)
  terminated : stores.getLast?.map Store.byte = some 0

/-- A text and its terminator keep to as many bytes as they have. -/
theorem keepsTo_terminated_iff (str : BitVec 32) (num : Int) (count : Nat) :
    KeepsTo str num ((List.range' 0 count).map (fun k => ⟨str + BitVec.ofNat 32 k, typed k⟩) ++
      [⟨str + BitVec.ofNat 32 (0 + count), 0⟩]) ↔ count + 1 ≤ num := by
  constructor
  · intro keeps
    have few := keeps.few
    simpa using few
  · intro fits
    refine ⟨by simpa using fits, ?_, ?_⟩
    · rw [← List.range_eq_range', Nat.zero_add, List.map_append, List.map_map, List.length_append,
        List.length_map, List.length_range, List.length_singleton, List.range_succ, List.map_append]
      rfl
    · rw [List.getLast?_append, List.getLast?_singleton]
      rfl

/-- The size that `fgets` is given is not passed on, so it is kept to if it is at least
the one that the kernel uses, or if the line is shorter. -/
theorem fgets_keepsTo_iff (str : BitVec 32) (num : Int) :
    KeepsTo str num (fgets typed str num).stores ↔
      100 ≤ num ∨ ∃ i : Nat, i < num ∧ typed i = Stdio.newline := by
  rcases getlineLoop_eq typed str 99 0 with ⟨count, few, stores, stopped, earlier⟩
  have written : (fgets typed str num).stores = _ := stores
  rw [written, keepsTo_terminated_iff]
  constructor
  · intro fits
    rcases Nat.lt_or_eq_of_le few with shorter | rfl
    · have newline := stopped shorter
      rw [Nat.zero_add] at newline
      exact Or.inr ⟨count, by omega, newline⟩
    · exact Or.inl fits
  · rintro (large | ⟨i, inside, newline⟩)
    · omega
    · have late : count ≤ i := by
        by_contra before
        exact earlier i (Nat.zero_le i) (by omega) newline
      omega

/-- A buffer of five bytes gets a hundred when no newline is typed. -/
theorem fgets_not_keepsTo : ¬ KeepsTo 0x10000 5 (fgets (fun _ => chr 'a') 0x10000 5).stores :=
  fun keeps => absurd keeps.few (by decide)

end Written

end Userspace

end WeakOS

import Mathlib
import WeakOS.X86.Machine

namespace X86

/-!
# Arithmetic between blocks

The instructions that compute with more than one register.  A division can
fault, so that they stand between the blocks of code and not inside them; local
labels are local to a block.
-/

/-- Instructions, with the operands in the order of the AT&T syntax. -/
inductive Arith where
  | inc (dest : Reg)
  | xor (src : Reg) (dest : Reg)
  | xchg (src : Reg) (dest : Reg)
  | mul (src : Reg)
  | div (src : Reg)
  deriving DecidableEq, Repr

namespace Arith

/-- What an instruction does; there is no result when it faults. -/
def execute : Arith → Machine → Option Machine
  | .inc dest, machine => some (machine.setResult (machine.regs.get dest + 1) dest)
  | .xor src dest, machine =>
      some (machine.setResult (machine.regs.get dest ^^^ machine.regs.get src) dest)
  | .xchg src dest, machine =>
      some ((machine.setReg (machine.regs.get dest) src).setReg (machine.regs.get src) dest)
  | .mul src, machine =>
      let product := machine.regs.eax.setWidth 64 * (machine.regs.get src).setWidth 64
      some ((machine.setReg (product.setWidth 32) .eax).setReg (product.extractLsb' 32 32) .edx)
  | .div src, machine =>
      let dividend := machine.regs.edx ++ machine.regs.eax
      let divisor := (machine.regs.get src).setWidth 64
      if divisor = 0 then none
      else if 2 ^ 32 ≤ (dividend / divisor).toNat then none
      else some ((machine.setReg ((dividend / divisor).setWidth 32) .eax).setReg
        ((dividend % divisor).setWidth 32) .edx)

end Arith

/-- A piece of code. -/
inductive Part where
  | block (code : List Instr)
  | arith (instr : Arith)

/-- Execute pieces one after the other, each block with the same fuel. -/
def runParts (fuel : Nat) : List Part → Machine → Option (Exit × Machine)
  | [], machine => some (.fallThrough, machine)
  | .block code :: rest, machine =>
      match run code fuel 0 machine with
      | some (.fallThrough, machine) => runParts fuel rest machine
      | other => other
  | .arith instr :: rest, machine => (instr.execute machine).bind (runParts fuel rest)

section Parts

variable {fuel : Nat} {code : List Instr} {instr : Arith} {rest : List Part} {machine after : Machine}

/-- A block that is left by its end. -/
theorem runParts_block (ends : run code fuel 0 machine = some (.fallThrough, after)) :
    runParts fuel (.block code :: rest) machine = runParts fuel rest after := by
  rw [runParts, ends]

/-- A block that is left by a jump. -/
theorem runParts_jump {target : BitVec 32}
    (leaves : run code fuel 0 machine = some (.jump target, after)) :
    runParts fuel (.block code :: rest) machine = some (.jump target, after) := by
  rw [runParts, leaves]

theorem runParts_arith_eq :
    runParts fuel (.arith instr :: rest) machine = (instr.execute machine).bind (runParts fuel rest) :=
  rfl

theorem runParts_arith (executed : instr.execute machine = some after) :
    runParts fuel (.arith instr :: rest) machine = runParts fuel rest after := by
  rw [runParts, executed, Option.bind_some]

/-- A straight block is executed as a whole. -/
theorem runParts_straight (straight : code.all Instr.isStraight = true) (enough : code.length < fuel) :
    runParts fuel (.block code :: rest) machine = runParts fuel rest (executeAll code machine) := by
  apply runParts_block
  obtain ⟨more, rfl⟩ : ∃ more, fuel = more + 1 + code.length := ⟨fuel - code.length - 1, by omega⟩
  have ended : code.drop (0 + code.length) = [] := by
    rw [Nat.zero_add, List.drop_length]
  exact (@run_straight code code [] (more + 1) 0 machine (List.append_nil code).symm straight).trans
    (run_end ended)

end Parts

/-! ## The results -/

section Results

/-- The low word of a product. -/
theorem setWidth_mul_setWidth (left right : BitVec 32) :
    (left.setWidth 64 * right.setWidth 64).setWidth 32 = left * right := by
  rw [BitVec.setWidth_mul _ _ (by decide), BitVec.setWidth_setWidth_of_le _ (by decide),
    BitVec.setWidth_setWidth_of_le _ (by decide), BitVec.setWidth_eq, BitVec.setWidth_eq]

/-- With nothing in `edx` a division by anything but 0 is a division of `eax`. -/
theorem execute_div {src : Reg} {machine : Machine} (high : machine.regs.edx = 0)
    (nonzero : machine.regs.get src ≠ 0) :
    (Arith.div src).execute machine =
      some ((machine.setReg (machine.regs.eax / machine.regs.get src) .eax).setReg
        (machine.regs.eax % machine.regs.get src) .edx) := by
  have wide : ∀ word : BitVec 32, (word.setWidth 64).toNat = word.toNat := by
    intro word
    exact BitVec.toNat_setWidth_of_le (by decide)
  have dividend : machine.regs.edx ++ machine.regs.eax = machine.regs.eax.setWidth 64 := by
    rw [high]
    apply BitVec.eq_of_toNat_eq
    rw [wide, BitVec.toNat_append, show (0 : BitVec 32).toNat = 0 by decide, Nat.zero_shiftLeft,
      Nat.zero_or]
  have divisor : ¬ (machine.regs.get src).setWidth 64 = 0 := by
    intro zero
    apply nonzero
    apply BitVec.eq_of_toNat_eq
    rw [← wide, zero]
    rfl
  have small : (machine.regs.eax.setWidth 64 / (machine.regs.get src).setWidth 64).toNat =
      (machine.regs.eax / machine.regs.get src).toNat := by
    rw [BitVec.toNat_udiv, BitVec.toNat_udiv, wide, wide]
  have quotient : (machine.regs.eax.setWidth 64 / (machine.regs.get src).setWidth 64).setWidth 32 =
      machine.regs.eax / machine.regs.get src := by
    apply BitVec.eq_of_toNat_eq
    rw [BitVec.toNat_setWidth, small, Nat.mod_eq_of_lt (BitVec.isLt _)]
  have remainder : (machine.regs.eax.setWidth 64 % (machine.regs.get src).setWidth 64).setWidth 32 =
      machine.regs.eax % machine.regs.get src := by
    apply BitVec.eq_of_toNat_eq
    rw [BitVec.toNat_setWidth, BitVec.toNat_umod, BitVec.toNat_umod, wide, wide, ← BitVec.toNat_umod,
      Nat.mod_eq_of_lt (BitVec.isLt _)]
  have fits : ¬ 2 ^ 32 ≤ (machine.regs.eax.setWidth 64 / (machine.regs.get src).setWidth 64).toNat := by
    rw [small]
    exact Nat.not_le.mpr (BitVec.isLt _)
  simp only [Arith.execute, dividend, if_neg divisor, if_neg fits, quotient, remainder]

end Results

/-! ## The same code elsewhere -/

/-- Jumps that do not go back. -/
def Instr.isForward : Instr → Bool
  | .loop _ => false
  | _ => true

section Congr

variable {code other : List Instr} {pc : Nat}

theorem forward_congr (same : code.drop pc = other.drop pc) (number : Nat) :
    forward code pc number = forward other pc number := by
  unfold forward
  rw [← List.drop_drop, ← List.drop_drop, same]

/-- A step does the same, and does not go back. -/
theorem step_congr (same : code.drop pc = other.drop pc) {instr : Instr}
    (ahead : instr.isForward = true) (machine : Machine) :
    step code pc instr machine = step other pc instr machine ∧
      ∀ next, (step code pc instr machine).1 = .goto next → pc ≤ next := by
  have target := forward_congr same
  have jumps : ∀ number, pc ≤ forward code pc number := by
    intro number
    unfold forward
    omega
  cases instr with
  | loop _ => cases ahead
  | jz number =>
      refine ⟨by rw [step, step, target], fun next goes => ?_⟩
      have both : (if machine.eflags &&& zeroFlag ≠ 0 then Next.goto (forward code pc number)
        else .goto (pc + 1)) = .goto next := goes
      have forwards := jumps number
      split at both
      · cases both
        exact forwards
      · cases both
        omega
  | jmp number =>
      refine ⟨by rw [step, step, target], fun next goes => ?_⟩
      cases goes
      exact jumps number
  | jmpl _ | int _ | iret => exact ⟨rfl, fun next goes => by cases goes⟩
  | _ =>
      refine ⟨rfl, fun next goes => ?_⟩
      cases goes
      omega

/-- When nothing goes back, code is the same from where it is the same on. -/
theorem run_congr (same : code.drop pc = other.drop pc)
    (ahead : (code.drop pc).all Instr.isForward = true) (fuel : Nat) (machine : Machine) :
    run code fuel pc machine = run other fuel pc machine := by
  induction fuel generalizing pc machine with
  | zero => rfl
  | succ fuel inductionHypothesis =>
      have fetched : code[pc]? = other[pc]? := by
        rw [← List.head?_drop, same, List.head?_drop]
      rw [run, run, ← fetched]
      cases found : code[pc]? with
      | none => rfl
      | some instr =>
          have member : instr ∈ code.drop pc :=
            List.mem_of_mem_head? (by rw [List.head?_drop, found]; rfl)
          rcases step_congr same (List.all_eq_true.mp ahead instr member) machine with ⟨steps, behind⟩
          simp only [← steps]
          cases taken : step code pc instr machine with
          | mk next after =>
              cases next with
              | exit _ => rfl
              | goto next =>
                  obtain ⟨count, rfl⟩ := Nat.exists_eq_add_of_le (behind next (by rw [taken]))
                  apply inductionHypothesis
                  · rw [← List.drop_drop, ← List.drop_drop, same]
                  · rw [← List.drop_drop]
                    exact List.all_eq_true.mpr (fun instr later =>
                      List.all_eq_true.mp ahead instr (List.mem_of_mem_drop later))

end Congr

end X86

import SmlnjCfg.Lib.Memory

/-!
# `SmlnjCfg.Target.Info`: target descriptions and the CMachine registers

`TargetInfo` is the record of `target-info.hpp` without the LLVM
initialization functions and the textual fields the code generator does not
compute with. Both supported targets have 64-bit words, so the word size is
fixed here. `CMRegs` is derived from the record: a special register is a
machine register exactly when its stack offset is zero.
-/

set_option autoImplicit false

namespace SmlnjCfg

/-- The special registers of the CMachine, in the order of their numbers. Every transfer of
control passes those of them that live in machine registers, in this order. -/
inductive CMRegId where
  | ALLOC_PTR | LIMIT_PTR | STORE_PTR | EXN_HNDLR | VAR_PTR
  deriving DecidableEq, Repr

/-- The registers in the order of their numbers, which is the order the source loops over them. -/
def CMRegId.all : List CMRegId := [.ALLOC_PTR, .LIMIT_PTR, .STORE_PTR, .EXN_HNDLR, .VAR_PTR]

/-- The list leaves no register out, so a loop over it reaches every one. -/
theorem CMRegId.mem_all (r : CMRegId) : r ∈ CMRegId.all := by cases r <;> decide

/-- The list names no register twice, so a loop over it sets every one once. -/
theorem CMRegId.nodup_all : CMRegId.all.Nodup := by decide

/-- The size of an ML word in bytes, `wordSzB`. Both targets have 64-bit words. -/
def wordSzB : Nat := 8

/-- `TargetInfo`: what the code generator asks of a target. A negative number of argument
registers stands for a target that passes arguments on the stack, so the two counts are
integers. -/
structure TargetInfo where
  /-- The general-purpose registers for arguments, without the implicit
  CMachine arguments. -/
  numGPArgRegs : Int
  /-- The floating-point registers for arguments. -/
  numFPArgRegs : Int
  /-- The registers used for the SML callee-saves. -/
  numCalleeSaves : Nat
  /-- The target supports PC-relative addressing. -/
  hasPCRel : Bool
  /-- The offset from the stack pointer of a stack-allocated register, and zero
  for a machine register. -/
  stkOffset : CMRegId → Int
  /-- The stack offset of the call-gc entry address. -/
  callGCOffset : Int
  /-- The stack offset of the raise_overflow entry address. -/
  raiseOvflwOffset : Int
  /-- The allocation slop in bytes. -/
  allocSlopSzb : Nat

/-- The AArch64 target. It has registers enough for the whole CMachine, so no special register
lives in the stack frame. -/
def arm64Info : TargetInfo :=
  { numGPArgRegs := 22, numFPArgRegs := 32, numCalleeSaves := 3, hasPCRel := true,
    stkOffset := fun _ => 0, callGCOffset := 8216, raiseOvflwOffset := 8208,
    allocSlopSzb := 8 * 1024 }

/-- The x86-64 target: the exception handler and the variable pointer live in
the stack frame. -/
def x86_64Info : TargetInfo :=
  { numGPArgRegs := 11, numFPArgRegs := 16, numCalleeSaves := 3, hasPCRel := true,
    stkOffset := fun
      | .ALLOC_PTR => 0
      | .LIMIT_PTR => 0
      | .STORE_PTR => 0
      | .EXN_HNDLR => 8224
      | .VAR_PTR => 8232,
    callGCOffset := 8240, raiseOvflwOffset := 8248, allocSlopSzb := 8 * 1024 }

namespace TargetInfo

/-- `CMRegInfo::isMachineReg`: the offset zero is the mark of a machine register, since no slot of
the frame that the generator uses has it. -/
def isMachineReg (t : TargetInfo) (r : CMRegId) : Bool := t.stkOffset r == 0

/-- `_hwRegs`: the special registers mapped to machine registers, in order. It is a filter of the
whole list, so the order of the numbers is kept. -/
def machineRegs (t : TargetInfo) : List CMRegId := CMRegId.all.filter t.isMachineReg

/-- `numMachineRegs`: the number of arguments that every convention starts with. -/
def numMachineRegs (t : TargetInfo) : Nat := t.machineRegs.length

/-- `CMRegs::usesBasePtr`: without PC-relative addressing the code address of the cluster is
passed along, and labels are computed from it. -/
def usesBasePtr (t : TargetInfo) : Bool := !t.hasPCRel

/-- `numGCRoots`: std-link, std-clos, std-cont, the callee-saves and std-arg. -/
def numGCRoots (t : TargetInfo) : Nat := t.numCalleeSaves + 4

/-- A register is passed in a machine register exactly when the target says that it is one. -/
theorem mem_machineRegs {t : TargetInfo} {r : CMRegId} :
    r ∈ t.machineRegs ↔ t.isMachineReg r = true := by
  rw [machineRegs, List.mem_filter]
  exact and_iff_right r.mem_all

/-- No register is passed twice, so the position of a register in the arguments is well
defined. -/
theorem nodup_machineRegs (t : TargetInfo) : t.machineRegs.Nodup :=
  CMRegId.nodup_all.filter _

end TargetInfo

end SmlnjCfg

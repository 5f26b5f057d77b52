import Mathlib.Data.Nat.Bitwise
import Mathlib.Data.Nat.Notation

/-!
# Classic BPF

The packet filter's byte loads, comparisons with a constant and returns. A program runs forward over
its instructions, so a jump only says how many of the next ones it skips, and every run ends.
-/

namespace Bpf

/-- An instruction as the kernel takes it. -/
structure Filter where
  code : ℕ
  jt : ℕ
  jf : ℕ
  k : ℕ
deriving DecidableEq, Repr

/-! ## Instruction codes -/

def opLd : ℕ := 0x00

def opJmp : ℕ := 0x05

def opRet : ℕ := 0x06

/-- A byte load. -/
def opB : ℕ := 0x10

/-- A load from an offset into the packet. -/
def opAbs : ℕ := 0x20

def opJeq : ℕ := 0x10

def opJgt : ℕ := 0x20

def opJge : ℕ := 0x30

def opJset : ℕ := 0x40

/-- The operand is the instruction's constant. -/
def opK : ℕ := 0x00

/-- The operand is the accumulator. -/
def opA : ℕ := 0x10

inductive Cond where
  | eq
  | gt
  | ge
  | set
deriving DecidableEq, Repr

/-- Compares the accumulator with a constant. -/
def Cond.holds (cond : Cond) (acc k : ℕ) : Bool :=
  match cond with
  | .eq => acc = k
  | .gt => k < acc
  | .ge => k ≤ acc
  | .set => acc &&& k ≠ 0

inductive Insn where
  | loadByte (offset : ℕ)
  | jump (cond : Cond) (k jt jf : ℕ)
  | retConst (k : ℕ)
  | retAcc
deriving DecidableEq, Repr

/-- Reads an instruction's code. -/
def Filter.decode (filter : Filter) : Option Insn :=
  if filter.code = opLd ||| opB ||| opAbs then some (.loadByte filter.k)
  else if filter.code = opJmp ||| opJeq ||| opK then some (.jump .eq filter.k filter.jt filter.jf)
  else if filter.code = opJmp ||| opJgt ||| opK then some (.jump .gt filter.k filter.jt filter.jf)
  else if filter.code = opJmp ||| opJge ||| opK then some (.jump .ge filter.k filter.jt filter.jf)
  else if filter.code = opJmp ||| opJset ||| opK then some (.jump .set filter.k filter.jt filter.jf)
  else if filter.code = opRet ||| opK then some (.retConst filter.k)
  else if filter.code = opRet ||| opA then some .retAcc
  else none

/-- Runs the instructions after the next `skip` with the accumulator `acc`. A load past the packet
ends the program with 0; `none` is a program that ends without returning. -/
def exec (packet : List UInt8) : List Filter → ℕ → ℕ → Option ℕ
  | [], _, _ => none
  | _ :: rest, skip + 1, acc => exec packet rest skip acc
  | filter :: rest, 0, acc =>
    match filter.decode with
    | none => none
    | some (.loadByte offset) =>
      match packet[offset]? with
      | none => some 0
      | some byte => exec packet rest 0 byte.toNat
    | some (.jump cond k jt jf) => exec packet rest (if cond.holds acc k then jt else jf) acc
    | some (.retConst k) => some k
    | some .retAcc => some acc

/-- What a program returns for a packet. -/
def run (program : List Filter) (packet : List UInt8) : Option ℕ := exec packet program 0 0

/-! ## One instruction -/

variable {packet : List UInt8} {filter : Filter} {rest : List Filter} {acc : ℕ}

/-- Loading a byte goes on with it, or returns zero past the packet. -/
theorem exec_loadByte {offset : ℕ} (h : filter.decode = some (.loadByte offset)) :
    exec packet (filter :: rest) 0 acc =
      match packet[offset]? with
      | none => some 0
      | some byte => exec packet rest 0 byte.toNat := by
  rw [exec, h]

/-- A jump skips as its condition says. -/
theorem exec_jump {cond : Cond} {k jt jf : ℕ} (h : filter.decode = some (.jump cond k jt jf)) :
    exec packet (filter :: rest) 0 acc =
      exec packet rest (if cond.holds acc k then jt else jf) acc := by
  rw [exec, h]

/-- Returning a constant ends the program. -/
theorem exec_retConst {k : ℕ} (h : filter.decode = some (.retConst k)) :
    exec packet (filter :: rest) 0 acc = some k := by
  rw [exec, h]

/-- Returning the accumulator ends the program. -/
theorem exec_retAcc (h : filter.decode = some .retAcc) :
    exec packet (filter :: rest) 0 acc = some acc := by
  rw [exec, h]

@[simp] theorem exec_skip (skip : ℕ) :
    exec packet (filter :: rest) (skip + 1) acc = exec packet rest skip acc := by
  rw [exec]

end Bpf

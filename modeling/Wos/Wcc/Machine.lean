import Mathlib.Data.BitVec

/-!
# The machine the compiler writes code for

The instructions `gen.c` emits, each under the text of its comment there, on registers of 64 bits
and a memory of bytes. A jump names its target by the number of a label, as the compiler does before
`resolve_labels` fills the distances in; labels take no time and no room that anything depends on.

An instruction that writes the 32-bit half of a register clears the upper half. This, and which
instructions work on 64 bits, is what the values of expressions hang on.

## Main definitions

* `Instr`, `State`, `step`: one instruction;
* `Steps`: a run;
* `CodeAt`: some code stands at a place in a program.
-/

namespace Wos.Wcc

/-- The registers the generated code uses. -/
inductive Reg
  | rax | rcx | rdx | rsp | rbp | rsi | rdi | r8 | r9 | r10
  deriving DecidableEq, Repr

/-- The conditions of `setcc` and `jcc`. -/
inductive Cond
  | e | ne | l | le | b | be
  deriving DecidableEq, Repr

/-- What `cmp` and `test` leave for them. -/
structure Flags where
  equal : Bool
  less : Bool
  below : Bool
  deriving DecidableEq, Repr

def Cond.holds : Cond → Flags → Bool
  | e, f => f.equal
  | ne, f => !f.equal
  | l, f => f.less
  | le, f => f.less || f.equal
  | b, f => f.below
  | be, f => f.below || f.equal

/-- Two-operand arithmetic on `rax` and `rdi`. -/
inductive Alu
  | add | sub | imul | and | or | xor
  deriving DecidableEq, Repr

def Alu.apply {w : ℕ} : Alu → BitVec w → BitVec w → BitVec w
  | add, a, b => a + b
  | sub, a, b => a - b
  | imul, a, b => a * b
  | and, a, b => a &&& b
  | or, a, b => a ||| b
  | xor, a, b => a ^^^ b

/-- Shifts of `rax` by `cl`. -/
inductive Shift
  | shl | shr | sar
  deriving DecidableEq, Repr

def Shift.apply {w : ℕ} : Shift → BitVec w → ℕ → BitVec w
  | shl, a, n => a <<< n
  | shr, a, n => a >>> n
  | sar, a, n => a.sshiftRight n

/-- The instructions. `long` says that the 64-bit form is meant, and not the 32-bit one. -/
inductive Instr
  | movImm32 (v : BitVec 32)                      -- mov $imm32, %eax
  | movImmSigned (v : BitVec 32)                  -- mov $imm32, %rax
  | movabs (v : BitVec 64)                        -- movabs $imm64, %rax
  | leaFrame (dst : Reg) (offset : BitVec 32)     -- lea offset(%rbp), %dst
  | load (size : ℕ) (unsigned : Bool)             -- mov.. (%rax), %rax
  | store (size : ℕ)                              -- mov %rdi, (%rax)
  | storeFrame (size : ℕ) (src : Reg) (offset : BitVec 32)  -- mov %src, offset(%rbp)
  | extend (size : ℕ) (unsigned : Bool)           -- movzbq %al, %rax and the like
  | push                                          -- push %rax
  | pop (dst : Reg)
  | mov (dst src : Reg)
  | test                                          -- test %rax, %rax
  | cmp                                           -- cmp %rdi, %rax
  | setcc (c : Cond)                              -- setcc %al
  | movzbl                                        -- movzbl %al, %eax
  | neg
  | not
  | alu (op : Alu) (long : Bool)
  | clearDx                                       -- xor %edx, %edx
  | signDx (long : Bool)                          -- cqo, cdq
  | div (long : Bool)
  | idiv (long : Bool)
  | shift (op : Shift) (long : Bool)
  | jmp (label : ℕ)
  | jcc (c : Cond) (label : ℕ)
  | label (id : ℕ)
  deriving DecidableEq, Repr

/-- The state of the machine. -/
structure State where
  pc : ℕ
  reg : Reg → BitVec 64
  mem : BitVec 64 → BitVec 8
  flags : Flags

namespace State

/-- Go on to the next instruction. -/
def next (s : State) : State := { s with pc := s.pc + 1 }

/-- Write a register. -/
def set (s : State) (r : Reg) (v : BitVec 64) : State :=
  { s with reg := fun r' => if r' = r then v else s.reg r' }

/-- Write the 32-bit half of a register, which clears the upper one. -/
def set32 (s : State) (r : Reg) (v : BitVec 32) : State := s.set r (v.setWidth 64)

end State

/-- So many bytes of memory, the lowest first, as a number. -/
def readBytes (mem : BitVec 64 → BitVec 8) (at_ : BitVec 64) : ℕ → ℕ
  | 0 => 0
  | n + 1 => (mem at_).toNat + 256 * readBytes mem (at_ + 1) n

/-- Memory after so many bytes of a number were written, the lowest first. -/
def writeBytes (mem : BitVec 64 → BitVec 8) (at_ : BitVec 64) (v : BitVec 64) (n : ℕ) :
    BitVec 64 → BitVec 8 :=
  fun a => if (a - at_).toNat < n then (v >>> (8 * (a - at_).toNat)).setWidth 8 else mem a

/-- A number of so many bytes in a register of 64 bits. -/
def extended (size : ℕ) (unsigned : Bool) (v : BitVec 64) : BitVec 64 :=
  if unsigned then (v.setWidth (8 * size)).setWidth 64 else (v.setWidth (8 * size)).signExtend 64

/-- What `cmp` finds out of two numbers. -/
def compare (a b : BitVec 64) : Flags := ⟨a = b, a.slt b, a.ult b⟩

/-- Where a label stands in a program. -/
def labelAt (code : List Instr) (id : ℕ) : ℕ := code.idxOf (.label id)

open Reg in
/-- One instruction, apart from jumps: the registers, the memory and the flags after it. There is
none after a division that the processor refuses. -/
def Instr.exec (i : Instr) (s : State) : Option State :=
  match i with
  | movImm32 v => some (s.set32 rax v)
  | movImmSigned v => some (s.set rax (v.signExtend 64))
  | movabs v => some (s.set rax v)
  | leaFrame dst offset => some (s.set dst (s.reg rbp + offset.signExtend 64))
  | load size unsigned =>
    some (s.set rax (extended size unsigned (BitVec.ofNat 64 (readBytes s.mem (s.reg rax) size))))
  | store size => some { s with mem := writeBytes s.mem (s.reg rax) (s.reg rdi) size }
  | storeFrame size src offset =>
    some { s with mem := writeBytes s.mem (s.reg rbp + offset.signExtend 64) (s.reg src) size }
  | extend size unsigned => some (s.set rax (extended size unsigned (s.reg rax)))
  | push =>
    let s' := s.set rsp (s.reg rsp - 8)
    some { s' with mem := writeBytes s.mem (s.reg rsp - 8) (s.reg rax) 8 }
  | pop dst =>
    let v := BitVec.ofNat 64 (readBytes s.mem (s.reg rsp) 8)
    some ((s.set rsp (s.reg rsp + 8)).set dst v)
  | mov dst src => some (s.set dst (s.reg src))
  | test => some { s with flags := compare (s.reg rax) 0 }
  | cmp => some { s with flags := compare (s.reg rax) (s.reg rdi) }
  | setcc c =>
    -- the other bytes of the register stay
    let bit : BitVec 64 := if c.holds s.flags then 1 else 0
    some (s.set rax ((s.reg rax >>> 8) <<< 8 ||| bit))
  | movzbl => some (s.set rax (extended 1 true (s.reg rax)))
  | neg => some (s.set rax (-(s.reg rax)))
  | not => some (s.set rax (~~~(s.reg rax)))
  | alu op true => some (s.set rax (op.apply (s.reg rax) (s.reg rdi)))
  | alu op false =>
    some (s.set32 rax (op.apply ((s.reg rax).setWidth 32) ((s.reg rdi).setWidth 32)))
  | clearDx => some (s.set32 rdx 0)
  | signDx true => some (s.set rdx ((s.reg rax).sshiftRight 63))
  | signDx false => some (s.set32 rdx (((s.reg rax).setWidth 32).sshiftRight 31))
  | div true =>
    -- `rdx` is zero wherever `div` is emitted, so the dividend is `rax`
    if s.reg rdi = 0 ∨ s.reg rdx ≠ 0 then none
    else some ((s.set rax (s.reg rax / s.reg rdi)).set rdx (s.reg rax % s.reg rdi))
  | div false =>
    let a := (s.reg rax).setWidth 32
    let b := (s.reg rdi).setWidth 32
    if b = 0 ∨ (s.reg rdx).setWidth 32 ≠ 0 then none
    else some ((s.set32 rax (a / b)).set32 rdx (a % b))
  | idiv true =>
    -- the quotient of the least number by minus one does not fit, and is refused
    let a := s.reg rax
    let b := s.reg rdi
    if b = 0 ∨ s.reg rdx ≠ a.sshiftRight 63 ∨ (a = BitVec.intMin 64 ∧ b = -1) then none
    else some ((s.set rax (a.sdiv b)).set rdx (a.srem b))
  | idiv false =>
    let a := (s.reg rax).setWidth 32
    let b := (s.reg rdi).setWidth 32
    if b = 0 ∨ (s.reg rdx).setWidth 32 ≠ a.sshiftRight 31 ∨ (a = BitVec.intMin 32 ∧ b = -1) then none
    else some ((s.set32 rax (a.sdiv b)).set32 rdx (a.srem b))
  | shift op true =>
    -- the processor looks at six bits of the count, or at five
    some (s.set rax (op.apply (s.reg rax) ((s.reg rcx).toNat % 64)))
  | shift op false =>
    some (s.set32 rax (op.apply ((s.reg rax).setWidth 32) ((s.reg rcx).toNat % 32)))
  | jmp _ | jcc _ _ | label _ => some s

/-- One step of a program. -/
def step (code : List Instr) (s : State) : Option State :=
  match code[s.pc]? with
  | none => none
  | some (.jmp id) => some { s with pc := labelAt code id }
  | some (.jcc c id) => some (if c.holds s.flags then { s with pc := labelAt code id } else s.next)
  | some i => (i.exec s).map State.next

/-- A run of a program. -/
def Steps (code : List Instr) : State → State → Prop :=
  Relation.ReflTransGen fun s t => step code s = some t

/-- Some code stands in a program at a place. -/
def CodeAt (code : List Instr) (pc : ℕ) (part : List Instr) : Prop :=
  ∃ before after, code = before ++ part ++ after ∧ before.length = pc

end Wos.Wcc

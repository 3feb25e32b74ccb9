import Mathlib
import WordC.Assembly.Line
import WordC.Expression.Builder
/-!
# A machine for expression code

What the lines of an expression do, and what the expression means, over an
arbitrary type of words. `Target` fixes what is left open: the words of
immediates, the arithmetic, and what callees do.

A variable's word is reached by its storage and a pushed word by its distance
from the top of the stack. What is reached through an address is apart from
both, which is the `heap` of a `Memory`.

`Machine.run` follows lines. `Evaluation.run` follows the linear form itself:
operands wait for their operator, which reads them, and results are kept under
their numbers.
-/

namespace WordC

/-- The words that an expression can reach by name or by address. -/
structure Memory (W : Type) where
  /-- By the offset from the frame pointer. -/
  frame : Int64 → W
  /-- By the label of a file-scope word. -/
  file : String → W
  /-- By address. -/
  heap : W → W

/-- What is left open about the machine. -/
structure Target (W : Type) where
  /-- The word of an immediate. -/
  imm : Int64 → W
  /-- The operations on two words. -/
  alu : Mnemonic → W → W → W
  /-- The operations on one word. -/
  alu₁ : Mnemonic → W → W
  /-- The frame pointer. -/
  base : W
  /-- What a call of a name with arguments makes of the file-scope words and of
  the words behind addresses: the value it returns, and both anew. -/
  callee : String → List W → (String → W) → (W → W) → W × (String → W) × (W → W)

variable {W : Type}

namespace Memory

/-- The word of a variable. -/
def read (mem : Memory W) : Storage → W
  | .frame offset => mem.frame offset
  | .global label => mem.file label

/-- Memory with another word for a variable. -/
def write (mem : Memory W) (s : Storage) (w : W) : Memory W :=
  match s with
  | .frame offset => { mem with frame := Function.update mem.frame offset w }
  | .global label => { mem with file := Function.update mem.file label w }

/-- Memory with another word behind an address. -/
def poke [DecidableEq W] (mem : Memory W) (address w : W) : Memory W :=
  { mem with heap := Function.update mem.heap address w }

@[simp] theorem read_write_self (mem : Memory W) (s : Storage) (w : W) :
    (mem.write s w).read s = w := by
  cases s <;> simp [write, read]

theorem read_write_of_ne (mem : Memory W) {s s' : Storage} (h : s' ≠ s) (w : W) :
    (mem.write s w).read s' = mem.read s' := by
  cases s <;> cases s' <;> simp [write, read, Function.update_apply] <;> grind

@[simp] theorem heap_write (mem : Memory W) (s : Storage) (w : W) :
    (mem.write s w).heap = mem.heap := by
  cases s <;> rfl

@[simp] theorem read_poke [DecidableEq W] (mem : Memory W) (address w : W) (s : Storage) :
    (mem.poke address w).read s = mem.read s := by
  cases s <;> rfl

end Memory

namespace Target

/-- What a variable evaluates to: an array of the frame is its address. -/
def value (T : Target W) (mem : Memory W) (v : Variable) : W :=
  match v.isArray, v.storage with
  | true, .frame offset => T.alu .add T.base (T.imm offset)
  | _, s => mem.read s

/-- What a call makes of memory. The caller's frame stays as it is. -/
def call (T : Target W) (name : String) (args : List W) (mem : Memory W) : W × Memory W :=
  let (w, file, heap) := T.callee name args mem.file mem.heap
  (w, { mem with file, heap })

end Target

/-- The machine between two lines. -/
structure Machine (W : Type) where
  regs : Reg → W
  /-- The pushed words, the top first. -/
  stack : List W
  memory : Memory W
  /-- How many words each coming call takes off the stack. -/
  calls : List Nat

namespace Machine

/-- The machine with another word in a register. -/
def set (m : Machine W) (r : Reg) (w : W) : Machine W :=
  { m with regs := Function.update m.regs r w }

@[simp] theorem set_regs_self (m : Machine W) (r : Reg) (w : W) : (m.set r w).regs r = w := by
  simp [set]

theorem set_regs_of_ne (m : Machine W) {r r' : Reg} (h : r' ≠ r) (w : W) :
    (m.set r w).regs r' = m.regs r' := by
  simp [set, h]

variable [DecidableEq W] (T : Target W)

/-- The word of an operand that is no memory. -/
def value? (m : Machine W) : Arg → Option W
  | .reg r => some (m.regs r)
  | .imm n => some (T.imm n)
  | _ => none

/-- The word that a load reads. -/
def load? (m : Machine W) : Arg → Option W
  | .global label => some (m.memory.read (.global label))
  | .mem .ebp offset => some (m.memory.read (.frame offset))
  | .mem .esp offset => m.stack[offset.toNatClampNeg]?
  | .mem (.general n) offset => if offset = 0 then some (m.memory.heap (m.regs (.general n))) else none
  | _ => none

/-- The machine after a store. -/
def store? (m : Machine W) (w : W) : Arg → Option (Machine W)
  | .global label => some { m with memory := m.memory.write (.global label) w }
  | .mem .ebp offset => some { m with memory := m.memory.write (.frame offset) w }
  | .mem (.general n) offset =>
    if offset = 0 then some { m with memory := m.memory.poke (m.regs (.general n)) w } else none
  | _ => none

/-- The machine after words have been dropped from the stack. -/
def drop? (m : Machine W) (count : Nat) : Option (Machine W) :=
  if count ≤ m.stack.length then some { m with stack := m.stack.drop count } else none

/-- The machine after a call. The callee gets the words that it takes, the one
pushed first in front, and leaves its value in the accumulator. -/
def call? (m : Machine W) (name : String) : Option (Machine W) :=
  match m.calls with
  | [] => none
  | count :: calls =>
    if count ≤ m.stack.length then
      let (w, memory) := T.call name (m.stack.take count).reverse m.memory
      some { { m with stack := m.stack.drop count, memory, calls } with
        regs := Function.update m.regs .eax w }
    else none

/-- One line. Lines that no expression has are not followed. -/
def step (m : Machine W) : Line → Option (Machine W)
  | .instruction .push [.reg r] _ => some { m with stack := m.regs r :: m.stack }
  | .instruction .pop [.reg r] _ =>
    match m.stack with
    | w :: stack => some ({ m with stack }.set r w)
    | [] => none
  | .instruction .mov [.reg d, a] _ => (m.value? T a).map (m.set d)
  | .instruction .load [.reg d, a] _ => (m.load? a).map (m.set d)
  | .instruction .store [a, .reg r] _ => m.store? (m.regs r) a
  | .instruction .call [.label name] _ => m.call? T name
  | .instruction .not [.reg d, a] _ => (m.value? T a).map fun w => m.set d (T.alu₁ .not w)
  | .instruction .neg [.reg d, a] _ => (m.value? T a).map fun w => m.set d (T.alu₁ .neg w)
  | .instruction .add [.reg .esp, .reg .esp, .imm n] _ => m.drop? n.toNatClampNeg
  | .instruction op [.reg d, .reg a, b] _ =>
    if op.isAlu then (m.value? T b).map fun w => m.set d (T.alu op (m.regs a) w) else none
  | _ => none

/-- Lines in order. -/
def run : List Line → Machine W → Option (Machine W)
  | [], m => some m
  | l :: ls, m => (m.step T l).bind (run ls)

theorem run_append (ls ls' : List Line) (m : Machine W) :
    run T (ls ++ ls') m = (run T ls m).bind (run T ls') := by
  induction ls generalizing m with
  | nil => rfl
  | cons l ls ih =>
    simp only [List.cons_append, run]
    cases m.step T l with
    | none => rfl
    | some m' => exact ih m'

theorem run_singleton (l : Line) (m : Machine W) : run T [l] m = m.step T l := by
  simp only [run]
  cases m.step T l <;> rfl

end Machine

/-! ## What an expression means -/

/-- The evaluation of an expression between two elements of its linear form. -/
structure Evaluation (W : Type) where
  /-- The operands that wait for their operator, the last one first. -/
  pending : List Operand := []
  /-- The number of the next result. -/
  count : Nat := 0
  /-- The result last produced under each number. -/
  results : Nat → W
  /-- The arguments passed to calls that are still to come, the last one
  first. -/
  args : List W := []
  memory : Memory W

namespace Evaluation

variable [DecidableEq W] (T : Target W)

/-- The word of an operand, read now. -/
def value? (x : Evaluation W) : Operand → Option W
  | .var v => some (T.value x.memory v)
  | .constant c => some (T.imm c.value)
  | .intermediate n => some (x.results n.toNat)
  | _ => none

/-- Takes `operands` and puts the result under the lowest number that is free
then. -/
def yield (x : Evaluation W) (operands : List Operand) (w : W) : Evaluation W :=
  let n := x.count - operands.countP Operand.isIntermediate
  { x with
    pending := x.pending.drop operands.length
    count := n + 1
    results := Function.update x.results n w }

/-- What an operator makes of one word. -/
def unary? (x : Evaluation W) (op : Operator) (a : W) : Option W :=
  match op with
  | .logicalNot => some (T.alu .eq a (T.imm 0))
  | .unaryPlus => some (T.alu .add a (T.imm 0))
  | .bitwiseNot => some (T.alu₁ .not a)
  | .unaryMinus => some (T.alu₁ .neg a)
  | .dereference => some (x.memory.heap a)
  | .dereferenceStore => some a
  | _ => none

/-- The operation that an operator between two values stands for. Logical and
bitwise operators are the same on words. -/
def operation? : Operator → Option Mnemonic
  | .multiply => some .mul
  | .plus => some .add
  | .minus => some .sub
  | .shiftLeft => some .shl
  | .shiftRight => some .shr
  | .rotateLeft => some .rol
  | .rotateRight => some .ror
  | .less => some .lt
  | .lessEqual => some .lte
  | .greater => some .gt
  | .greaterEqual => some .gte
  | .equal => some .eq
  | .notEqual => some .neq
  | .bitwiseAnd | .logicalAnd => some .and
  | .bitwiseXor => some .xor
  | .bitwiseOr | .logicalOr => some .or
  | _ => none

/-- What an operator makes of two words. -/
def binary? (x : Evaluation W) (op : Operator) (a b : W) : Option W :=
  match op with
  | .index => some (x.memory.heap (T.alu .add a b))
  | .indexStore => some (T.alu .add a b)
  | op => (operation? op).map fun operation => T.alu operation a b

/-- Memory after an assignment to a variable or to the address in a result. -/
def assigned? (x : Evaluation W) (target : Operand) (w : W) : Option (Memory W) :=
  match target with
  | .var v => some (x.memory.write v.storage w)
  | .intermediate n => some (x.memory.poke (x.results n.toNat) w)
  | _ => none

/-- Applies an operator to the operands that wait. -/
def applied? (x : Evaluation W) (op : Operator) : Option (Evaluation W) :=
  match op, x.pending with
  | .argument, o :: .parameter _ :: pending => do
    let w ← x.value? T o
    some { x with
      pending
      count := x.count - [o].countP Operand.isIntermediate
      args := w :: x.args }
  | .assign, o :: target :: _ => do
    let w ← x.value? T o
    let memory ← x.assigned? target w
    some ({ x with memory }.yield [target, o] w)
  | op, o :: pending =>
    if op.isUnary then do
      let w ← x.unary? T op (← x.value? T o)
      some (x.yield [o] w)
    else
      match pending with
      | o' :: _ => do
        let w ← x.binary? T op (← x.value? T o') (← x.value? T o)
        some (x.yield [o', o] w)
      | [] => none
  | _, [] => none

/-- A call, which takes its arguments in the order they were passed in. -/
def call? (x : Evaluation W) (c : CallRef) : Option (Evaluation W) :=
  if c.arity.toNat ≤ x.args.length then
    let (w, memory) := T.call c.name (x.args.take c.arity.toNat).reverse x.memory
    some ({ x with memory, args := x.args.drop c.arity.toNat }.yield [] w)
  else none

/-- One element. -/
def step (x : Evaluation W) : Element → Option (Evaluation W)
  | .operand (.result c) => x.call? T c
  | .operand o => some { x with pending := o :: x.pending }
  | .operator op => x.applied? T op
  | _ => none

/-- Elements in order. -/
def run : List Element → Evaluation W → Option (Evaluation W)
  | [], x => some x
  | e :: es, x => (x.step T e).bind (run es)

theorem run_append (es es' : List Element) (x : Evaluation W) :
    run T (es ++ es') x = (run T es x).bind (run T es') := by
  induction es generalizing x with
  | nil => rfl
  | cons e es ih =>
    simp only [List.cons_append, run]
    cases x.step T e with
    | none => rfl
    | some x' => exact ih x'

/-- The value of the expression: the operand that is left over, or the only
result. -/
def outcome? (x : Evaluation W) : Option W :=
  match x.pending with
  | o :: _ => x.value? T o
  | [] => some (x.results 0)

end Evaluation

end WordC

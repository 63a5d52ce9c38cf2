import FsmFabric.Bits.Edit

/-!
# Expressions

An `Expr` is a formula over numbered input bits. Some expressions are vectors (inputs, constants,
bitwise operators), the others are Boolean (comparisons, reductions, logical operators, literals)
and count as vectors of one bit. Any expression can stand as a condition: it holds when one of its
bits is set.
-/

namespace FsmFabric

/-- Operators that work bit by bit. -/
inductive BitOp where
  | and | or | xor | xnor
deriving DecidableEq, Repr

def BitOp.apply : BitOp → Bool → Bool → Bool
  | and, a, b => a && b
  | or, a, b => a || b
  | xor, a, b => a != b
  | xnor, a, b => a == b

/-- What a bit past the end of the shorter operand counts as. -/
def BitOp.missing : BitOp → Bool
  | xnor => true
  | _ => false

/-- Operators that make one bit out of a vector. -/
inductive Reduction where
  /-- Some bit is set. -/
  | or
  /-- Every bit is set. -/
  | and
  /-- An odd number of bits is set. -/
  | xor
deriving DecidableEq, Repr

def Reduction.apply : Reduction → Mask → Bool
  | or, m => m.any
  | and, m => m.count == m.size
  | xor, m => m.count % 2 == 1

inductive Connective where
  | and | or
deriving DecidableEq, Repr

def Connective.apply : Connective → Bool → Bool → Bool
  | and, a, b => a && b
  | or, a, b => a || b

/-- The value that does not matter as an operand. -/
def Connective.unit : Connective → Bool
  | and => true
  | or => false

/-- A formula over input bits. -/
inductive Expr where
  /-- The inputs at the listed positions, lowest bit first. -/
  | inputs (positions : List Nat)
  | constant (mask : Mask)
  /-- Every bit inverted. -/
  | not (operand : Expr)
  | bitwise (op : BitOp) (left right : Expr)
  /-- Equality of the operands as numbers, or its negation. -/
  | compare (negated : Bool) (left right : Expr)
  | reduce (op : Reduction) (operand : Expr)
  | logicNot (operand : Expr)
  | logic (op : Connective) (left right : Expr)
  | literal (value : Bool)
deriving Repr, Inhabited

namespace Expr

def input (position : Nat) : Expr := inputs [position]

def isLogic : Expr → Bool
  | inputs _ | constant _ | not _ | bitwise .. => false
  | compare .. | reduce .. | logicNot _ | logic .. | literal _ => true

/-- The expression as a Boolean one: a vector is replaced by the test for a set bit. -/
def truth (e : Expr) : Expr := if e.isLogic then e else reduce .or e

def negate (e : Expr) : Expr := logicNot e.truth

def both (a b : Expr) : Expr := logic .and a.truth b.truth

def either (a b : Expr) : Expr := logic .or a.truth b.truth

def nodes : Expr → Nat
  | inputs _ | constant _ | literal _ => 1
  | not e | reduce _ e | logicNot e => e.nodes + 1
  | bitwise _ l r | compare _ l r | logic _ l r => l.nodes + r.nodes + 1

/-- Equality of expressions, with constants compared as numbers. -/
def same : Expr → Expr → Bool
  | inputs a, inputs b => a == b
  | constant a, constant b => a.equals b
  | not a, not b => a.same b
  | bitwise op a b, bitwise op' a' b' => op == op' && a.same a' && b.same b'
  | compare n a b, compare n' a' b' => n == n' && a.same a' && b.same b'
  | reduce op a, reduce op' a' => op == op' && a.same a'
  | logicNot a, logicNot b => a.same b
  | logic op a b, logic op' a' b' => op == op' && a.same a' && b.same b'
  | literal a, literal b => a == b
  | _, _ => false

/-! ## Inputs -/

/-- The positions of the inputs that an expression mentions, from left to right. -/
def reads : Expr → List Nat
  | inputs positions => positions
  | constant _ | literal _ => []
  | not e | reduce _ e | logicNot e => e.reads
  | bitwise _ l r | compare _ l r | logic _ l r => l.reads ++ r.reads

/-- The set of the inputs that an expression mentions. -/
def support (e : Expr) : Except Fault Mask :=
  e.reads.foldlM (fun m i => do
    let _ ← Checked.add i 1
    return m.insert i) Mask.empty

/-! ## Values -/

def bit (value : Bool) : Mask := Mask.ofFun 1 fun _ => value

/-- Bit `i` of an operand, or what stands for it past its end. -/
def operandBit (m : Mask) (missing : Bool) (i : Nat) : Bool :=
  if i < m.size then m.get i else missing

/-- The value of an expression for given inputs. -/
def eval (x : Nat → Bool) : Expr → Mask
  | inputs positions => Mask.ofFun positions.length fun i => (positions[i]?).elim false x
  | constant mask => mask
  | not e =>
    let m := e.eval x
    Mask.ofFun m.size fun i => !m.get i
  | bitwise op l r =>
    let a := l.eval x
    let b := r.eval x
    Mask.ofFun (max a.size b.size) fun i =>
      op.apply (operandBit a op.missing i) (operandBit b op.missing i)
  | compare negated l r => bit ((l.eval x).equals (r.eval x) != negated)
  | reduce op e => bit (op.apply (e.eval x))
  | logicNot e => bit (!(e.eval x).any)
  | logic op l r => bit (op.apply (l.eval x).any (r.eval x).any)
  | literal value => bit value

def holds (e : Expr) (x : Nat → Bool) : Bool := (e.eval x).any

end Expr

end FsmFabric

import SpuCompiler.Bytecode.Op
import SpuCompiler.Bytecode.Operand
import SpuCompiler.Trees.StackType

/-!
Expression trees. A node has an operation, an operand, a stack type and the offset of the
instruction it comes from; its children are the values that the operation takes, in the order
in which they were put on the stack.
-/

namespace SpuCompiler.Trees

open Metadata Bytecode

/-- What the operand of a node may refer to. -/
inductive Ref where
  | variable (id : Nat)
  | block (id : Nat)
  deriving DecidableEq

/-- A node without its children. -/
structure Head where
  op : Op
  operand : Operand Ref := .none
  offset : Nat
  type : StackType := .void
  deriving DecidableEq

inductive Node where
  | leaf (head : Head)
  | unary (head : Head) (left : Node)
  /-- A right child without a left one. -/
  | rightOnly (head : Head) (right : Node)
  | binary (head : Head) (left right : Node)
  | call (head : Head) (callee : Method) (args : List Node)

namespace Node

def head : Node → Head
  | .leaf h | .unary h _ | .rightOnly h _ | .binary h _ _ | .call h _ _ => h

def op (n : Node) : Op := n.head.op

def operand (n : Node) : Operand Ref := n.head.operand

def type (n : Node) : StackType := n.head.type

def offset (n : Node) : Nat := n.head.offset

def withType (t : StackType) : Node → Node
  | .leaf h => .leaf { h with type := t }
  | .unary h l => .unary { h with type := t } l
  | .rightOnly h r => .rightOnly { h with type := t } r
  | .binary h l r => .binary { h with type := t } l r
  | .call h m args => .call { h with type := t } m args

/-- A node of an operation other than a call. -/
def plain (h : Head) : (left right : Option Node) → Node
  | none, none => .leaf h
  | some l, none => .unary h l
  | none, some r => .rightOnly h r
  | some l, some r => .binary h l r

def left? : Node → Option Node
  | .leaf _ | .rightOnly _ _ => none
  | .unary _ l | .binary _ l _ => some l
  | .call _ _ args => args.head?

def right? : Node → Option Node
  | .leaf _ | .unary _ _ => none
  | .rightOnly _ r | .binary _ _ r => some r
  | .call _ _ args => args[1]?

def children : Node → List Node
  | .leaf _ => []
  | .unary _ l => [l]
  | .rightOnly _ r => [r]
  | .binary _ l r => [l, r]
  | .call _ _ args => args

def callee? : Node → Option Method
  | .call _ m _ => some m
  | _ => none

def varId? (n : Node) : Option Nat :=
  match n.operand with
  | .ref (.variable v) => some v
  | _ => none

def blockId? (n : Node) : Option Nat :=
  match n.operand with
  | .ref (.block b) => some b
  | _ => none

mutual

/-- All nodes of a tree, children before their parent. -/
def postorder : Node → List Node
  | .leaf h => [.leaf h]
  | .unary h l => postorder l ++ [.unary h l]
  | .rightOnly h r => postorder r ++ [.rightOnly h r]
  | .binary h l r => postorder l ++ postorder r ++ [.binary h l r]
  | .call h m args => postorderList args ++ [.call h m args]

def postorderList : List Node → List Node
  | [] => []
  | n :: ns => postorder n ++ postorderList ns

end

end Node

end SpuCompiler.Trees

import FlatTemplate.Node

namespace FlatTemplate

inductive ExprNode where
  | atom (value : Atom)
  | paren (inner : PipeId)
  deriving DecidableEq, Repr

structure CommandNode where
  head : ExprId
  args : List ExprId
  deriving DecidableEq, Repr

structure PipeNode where
  decls : List String
  commands : List CommandId
  deriving DecidableEq, Repr

inductive StmtNode where
  | text (text : String)
  | action (pipe : PipeId)
  | branch (kind : BranchKind) (pipe : PipeId) (body elseBody : List StmtId)
  | invoke (name : String) (pipe : Option PipeId)
  deriving DecidableEq, Repr

inductive BlockRef where
  | root
  | body (owner : StmtId)
  | elseBody (owner : StmtId)
  deriving DecidableEq, Repr

structure Slot where
  block : BlockRef
  index : Nat
  deriving DecidableEq, Repr

inductive Operand where
  | head
  | arg (index : Nat)
  deriving DecidableEq, Repr

namespace ExprNode

def kindName : ExprNode → String
  | .atom a => a.kindName
  | .paren _ => "Pipe"

def isParen : ExprNode → Bool
  | .atom _ => false
  | .paren _ => true

def isPathRead : ExprNode → Bool
  | .atom a => a.isPathRead
  | .paren _ => false

def isIdentifier : ExprNode → Bool
  | .atom a => a.isIdentifier
  | .paren _ => false

end ExprNode

namespace CommandNode

def operands (c : CommandNode) : List ExprId := c.head :: c.args

def operand? (c : CommandNode) : Operand → Option ExprId
  | .head => some c.head
  | .arg i => c.args[i]?

def setOperand? (c : CommandNode) (o : Operand) (e : ExprId) : Option CommandNode :=
  match o with
  | .head => some { c with head := e }
  | .arg i => if i < c.args.length then some { c with args := c.args.set i e } else none

end CommandNode

namespace StmtNode

def governing? : StmtNode → Option PipeId
  | .text _ => none
  | .action pipe => some pipe
  | .branch _ pipe _ _ => some pipe
  | .invoke _ pipe => pipe

def isBranch : StmtNode → Bool
  | .branch _ _ _ _ => true
  | _ => false

def kindName : StmtNode → String
  | .text _ => "Text"
  | .action _ => "Action"
  | .branch kind _ _ _ => kind.kindName
  | .invoke _ _ => "Invoke"

end StmtNode

def BlockRef.text : BlockRef → String
  | .root => "Root"
  | .body owner => "Body(" ++ owner.text ++ ")"
  | .elseBody owner => "Else(" ++ owner.text ++ ")"

end FlatTemplate

namespace FlatTemplate

inductive NodeKind where
  | stmt
  | pipe
  | command
  | expr
  deriving DecidableEq, Repr

structure Handle (kind : NodeKind) where
  index : Nat
  deriving DecidableEq, Repr

abbrev StmtId := Handle .stmt
abbrev PipeId := Handle .pipe
abbrev CommandId := Handle .command
abbrev ExprId := Handle .expr

def NodeKind.idName : NodeKind → String
  | .stmt => "StmtId"
  | .pipe => "PipeId"
  | .command => "CmdId"
  | .expr => "ExprId"

def Handle.text {kind : NodeKind} (h : Handle kind) : String :=
  kind.idName ++ "(" ++ toString h.index ++ ")"

def rootVariable : String := "$"

inductive Atom where
  | var (path : List String)
  | field (path : List String)
  | dot
  | identifier (name : String)
  | str (text : String)
  | number (spelling : String)
  | bool (value : Bool)
  deriving DecidableEq, Repr

namespace Atom

def isPathRead : Atom → Bool
  | .field _ => true
  | .var path => path.length > 1
  | _ => false

def isIdentifier : Atom → Bool
  | .identifier _ => true
  | _ => false

def kindName : Atom → String
  | .var _ => "Variable"
  | .field _ => "Field"
  | .dot => "Dot"
  | .identifier _ => "Identifier"
  | .str _ => "StringLit"
  | .number _ => "NumberLit"
  | .bool _ => "BoolLit"

end Atom

inductive BranchKind where
  | cond
  | range
  | within
  deriving DecidableEq, Repr

namespace BranchKind

def keyword : BranchKind → String
  | .cond => "if"
  | .range => "range"
  | .within => "with"

def kindName : BranchKind → String
  | .cond => "If"
  | .range => "Range"
  | .within => "With"

end BranchKind

end FlatTemplate

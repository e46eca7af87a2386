import FlatTemplate.Node

namespace FlatTemplate

mutual

inductive Expr (ι : NodeKind → Type) where
  | atom (tag : ι .expr) (value : Atom)
  | paren (tag : ι .expr) (inner : Pipe ι)

inductive Command (ι : NodeKind → Type) where
  | mk (tag : ι .command) (head : Expr ι) (args : List (Expr ι))

inductive Pipe (ι : NodeKind → Type) where
  | mk (tag : ι .pipe) (decls : List String) (commands : List (Command ι))

end

inductive Stmt (ι : NodeKind → Type) where
  | text (tag : ι .stmt) (text : String)
  | action (tag : ι .stmt) (pipe : Pipe ι)
  | branch (tag : ι .stmt) (kind : BranchKind) (pipe : Pipe ι) (body elseBody : List (Stmt ι))
  | invoke (tag : ι .stmt) (name : String) (pipe : Option (Pipe ι))

abbrev Block (ι : NodeKind → Type) := List (Stmt ι)

abbrev Untagged : NodeKind → Type := fun _ => Unit

variable {ι : NodeKind → Type}

namespace Expr

def tag : Expr ι → ι .expr
  | .atom tag _ => tag
  | .paren tag _ => tag

end Expr

namespace Command

def tag : Command ι → ι .command
  | .mk tag _ _ => tag

def head : Command ι → Expr ι
  | .mk _ head _ => head

def args : Command ι → List (Expr ι)
  | .mk _ _ args => args

def isCall : Command ι → Bool
  | .mk _ (.atom _ (.identifier _)) _ => true
  | _ => false

end Command

namespace Pipe

def tag : Pipe ι → ι .pipe
  | .mk tag _ _ => tag

def decls : Pipe ι → List String
  | .mk _ decls _ => decls

def commands : Pipe ι → List (Command ι)
  | .mk _ _ commands => commands

end Pipe

mutual

def Expr.pipes : Expr ι → List (Pipe ι)
  | .atom _ _ => []
  | .paren _ inner => inner.pipes

def argPipes : List (Expr ι) → List (Pipe ι)
  | [] => []
  | e :: es => e.pipes ++ argPipes es

def Command.pipes : Command ι → List (Pipe ι)
  | .mk _ head args => head.pipes ++ argPipes args

def commandPipes : List (Command ι) → List (Pipe ι)
  | [] => []
  | c :: cs => c.pipes ++ commandPipes cs

def Pipe.pipes : Pipe ι → List (Pipe ι)
  | .mk tag decls commands => .mk tag decls commands :: commandPipes commands

end

mutual

def Stmt.pipes : Stmt ι → List (Pipe ι)
  | .text _ _ => []
  | .action _ pipe => pipe.pipes
  | .branch _ _ pipe body elseBody => pipe.pipes ++ blockPipes body ++ blockPipes elseBody
  | .invoke _ _ none => []
  | .invoke _ _ (some pipe) => pipe.pipes

def blockPipes : Block ι → List (Pipe ι)
  | [] => []
  | s :: rest => s.pipes ++ blockPipes rest

end

end FlatTemplate

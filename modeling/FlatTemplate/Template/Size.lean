import FlatTemplate.Template

namespace FlatTemplate

variable {ι : NodeKind → Type}

mutual

def Expr.size : Expr ι → Nat
  | .atom _ _ => 1
  | .paren _ inner => 1 + inner.size

def argsSize : List (Expr ι) → Nat
  | [] => 0
  | e :: es => e.size + argsSize es

def Command.size : Command ι → Nat
  | .mk _ head args => 1 + head.size + argsSize args

def commandsSize : List (Command ι) → Nat
  | [] => 0
  | c :: cs => c.size + commandsSize cs

def Pipe.size : Pipe ι → Nat
  | .mk _ _ commands => 1 + commandsSize commands

end

mutual

def Stmt.size : Stmt ι → Nat
  | .text _ _ => 1
  | .action _ pipe => 1 + pipe.size
  | .branch _ _ pipe body elseBody => 1 + pipe.size + blockSize body + blockSize elseBody
  | .invoke _ _ none => 1
  | .invoke _ _ (some pipe) => 1 + pipe.size

def blockSize : Block ι → Nat
  | [] => 0
  | s :: rest => s.size + blockSize rest

end

end FlatTemplate

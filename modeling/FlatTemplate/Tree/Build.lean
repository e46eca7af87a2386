import FlatTemplate.Template
import FlatTemplate.Tree

namespace FlatTemplate.Tree

variable {ι : NodeKind → Type}

mutual

def storeExpr : Expr ι → Tree → ExprId × Tree
  | .atom _ a, t => t.addExpr (.atom a)
  | .paren _ inner, t =>
    let (pipe, t) := storePipe inner t
    t.addExpr (.paren pipe)

def storeArgs : List (Expr ι) → Tree → List ExprId × Tree
  | [], t => ([], t)
  | e :: es, t =>
    let (id, t) := storeExpr e t
    let (ids, t) := storeArgs es t
    (id :: ids, t)

def storeCommand : Command ι → Tree → CommandId × Tree
  | .mk _ head args, t =>
    let (head, t) := storeExpr head t
    let (args, t) := storeArgs args t
    t.addCommand ⟨head, args⟩

def storeCommands : List (Command ι) → Tree → List CommandId × Tree
  | [], t => ([], t)
  | c :: cs, t =>
    let (id, t) := storeCommand c t
    let (ids, t) := storeCommands cs t
    (id :: ids, t)

def storePipe : Pipe ι → Tree → PipeId × Tree
  | .mk _ decls commands, t =>
    let (commands, t) := storeCommands commands t
    t.addPipe ⟨decls, commands⟩

end

mutual

def storeStmt : Stmt ι → Tree → StmtId × Tree
  | .text _ text, t => t.addStmt (.text text)
  | .action _ pipe, t =>
    let (pipe, t) := storePipe pipe t
    t.addStmt (.action pipe)
  | .branch _ kind pipe body elseBody, t =>
    let (pipe, t) := storePipe pipe t
    let (body, t) := storeBlock body t
    let (elseBody, t) := storeBlock elseBody t
    t.addStmt (.branch kind pipe body elseBody)
  | .invoke _ name none, t => t.addStmt (.invoke name none)
  | .invoke _ name (some pipe), t =>
    let (pipe, t) := storePipe pipe t
    t.addStmt (.invoke name (some pipe))

def storeBlock : Block ι → Tree → List StmtId × Tree
  | [], t => ([], t)
  | s :: rest, t =>
    let (id, t) := storeStmt s t
    let (ids, t) := storeBlock rest t
    (id :: ids, t)

end

def ofBlock (name : String) (block : Block ι) : Tree :=
  let (root, t) := storeBlock block { name }
  { t with root }

end FlatTemplate.Tree

import FlatTemplate.Template.Printer
import FlatTemplate.Tree

namespace FlatTemplate.Tree

def readExpr (t : Tree) (pipe : PipeId → Except Fault (Pipe Handle)) (id : ExprId) :
    Except Fault (Expr Handle) := do
  match ← t.exprs.get id with
  | .atom a => return .atom id a
  | .paren inner => return .paren id (← pipe inner)

def readCommand (t : Tree) (pipe : PipeId → Except Fault (Pipe Handle)) (id : CommandId) :
    Except Fault (Command Handle) := do
  let node ← t.commands.get id
  let head ← t.readExpr pipe node.head
  let args ← node.args.mapM (t.readExpr pipe)
  return .mk id head args

def readPipeWithin (t : Tree) : Nat → PipeId → Except Fault (Pipe Handle)
  | 0, _ => throw .endless
  | depth + 1, id => do
    let node ← t.pipes.get id
    let commands ← node.commands.mapM (t.readCommand (t.readPipeWithin depth))
    return .mk id node.decls commands

def readPipe (t : Tree) (id : PipeId) : Except Fault (Pipe Handle) :=
  t.readPipeWithin (t.pipes.size + 1) id

def readStmtWithin (t : Tree) : Nat → StmtId → Except Fault (Stmt Handle)
  | 0, _ => throw .endless
  | depth + 1, id => do
    match ← t.stmts.get id with
    | .text text => return .text id text
    | .action pipe => return .action id (← t.readPipe pipe)
    | .branch kind pipe body elseBody =>
      let pipe ← t.readPipe pipe
      let body ← body.mapM (t.readStmtWithin depth)
      let elseBody ← elseBody.mapM (t.readStmtWithin depth)
      return .branch id kind pipe body elseBody
    | .invoke name none => return .invoke id name none
    | .invoke name (some pipe) => return .invoke id name (some (← t.readPipe pipe))

def readStmt (t : Tree) (id : StmtId) : Except Fault (Stmt Handle) :=
  t.readStmtWithin (t.stmts.size + 1) id

def read (t : Tree) : Except Fault (Block Handle) :=
  t.root.mapM t.readStmt

/-- The handles of the pipelines of the template, each in front of those nested in it. -/
def reachablePipes (t : Tree) : Except Fault (List PipeId) := do
  return (blockPipes (← t.read)).map Pipe.tag

def text (t : Tree) : Except Fault String := do
  return String.ofList (printBlock (← t.read))

def stmtText (t : Tree) (id : StmtId) : Except Fault String := do
  return String.ofList (← t.readStmt id).print

def pipeText (t : Tree) (id : PipeId) : Except Fault String := do
  return String.ofList (← t.readPipe id).print

def commandText (t : Tree) (id : CommandId) : Except Fault String := do
  return String.ofList (← t.readCommand t.readPipe id).print

def exprText (t : Tree) (id : ExprId) : Except Fault String := do
  return String.ofList (← t.readExpr t.readPipe id).print

def dumpStmt (t : Tree) (id : StmtId) : Except Fault String := do
  let node ← t.stmts.get id
  return id.text ++ " " ++ node.kindName ++ " `" ++ (← t.stmtText id) ++ "`"

end FlatTemplate.Tree

import FlatTemplate.Tree.Arena

/-!
A template in a store. The root block and the nodes refer to nodes by handle; a node that nothing
refers to any more stays where it is.
-/

namespace FlatTemplate

structure Tree where
  name : String
  root : List StmtId := []
  stmts : Arena .stmt StmtNode := {}
  pipes : Arena .pipe PipeNode := {}
  commands : Arena .command CommandNode := {}
  exprs : Arena .expr ExprNode := {}
  deriving DecidableEq

namespace Tree

def addStmt (t : Tree) (node : StmtNode) : StmtId × Tree :=
  (t.stmts.next, { t with stmts := t.stmts.add node })

def addPipe (t : Tree) (node : PipeNode) : PipeId × Tree :=
  (t.pipes.next, { t with pipes := t.pipes.add node })

def addCommand (t : Tree) (node : CommandNode) : CommandId × Tree :=
  (t.commands.next, { t with commands := t.commands.add node })

def addExpr (t : Tree) (node : ExprNode) : ExprId × Tree :=
  (t.exprs.next, { t with exprs := t.exprs.add node })

def addVariable (t : Tree) (name : String) : ExprId × Tree :=
  t.addExpr (.atom (.var [name]))

def addBare (t : Tree) (e : ExprId) : CommandId × Tree :=
  t.addCommand ⟨e, []⟩

def addAction (t : Tree) (decls : List String) (commands : List CommandId) : StmtId × Tree :=
  let (pipe, t) := t.addPipe ⟨decls, commands⟩
  t.addStmt (.action pipe)

def addRead (t : Tree) (name : String) : CommandId × Tree :=
  let (e, t) := t.addVariable name
  t.addBare e

def addPrint (t : Tree) (name : String) : StmtId × Tree :=
  let (read, t) := t.addRead name
  t.addAction [] [read]

def setStmt (t : Tree) (id : StmtId) (node : StmtNode) : Except Fault Tree := do
  return { t with stmts := ← t.stmts.set id node }

def setPipe (t : Tree) (id : PipeId) (node : PipeNode) : Except Fault Tree := do
  return { t with pipes := ← t.pipes.set id node }

def setCommand (t : Tree) (id : CommandId) (node : CommandNode) : Except Fault Tree := do
  return { t with commands := ← t.commands.set id node }

def setExpr (t : Tree) (id : ExprId) (node : ExprNode) : Except Fault Tree := do
  return { t with exprs := ← t.exprs.set id node }

def operand (t : Tree) (id : CommandId) (o : Operand) : Except Fault ExprId := do
  match (← t.commands.get id).operand? o with
  | some e => return e
  | none => throw .missingOperand

def setOperand (t : Tree) (id : CommandId) (o : Operand) (e : ExprId) : Except Fault Tree := do
  match (← t.commands.get id).setOperand? o e with
  | some node => t.setCommand id node
  | none => throw .missingOperand

def block (t : Tree) : BlockRef → Except Fault (List StmtId)
  | .root => return t.root
  | .body owner => do
    match ← t.stmts.get owner with
    | .branch _ _ body _ => return body
    | node => throw (.ownsNoBlock owner node)
  | .elseBody owner => do
    match ← t.stmts.get owner with
    | .branch _ _ _ elseBody => return elseBody
    | node => throw (.ownsNoBlock owner node)

def modifyBlock (t : Tree) (b : BlockRef) (f : List StmtId → List StmtId) : Except Fault Tree :=
  match b with
  | .root => return { t with root := f t.root }
  | .body owner => do
    match ← t.stmts.get owner with
    | .branch kind pipe body elseBody => t.setStmt owner (.branch kind pipe (f body) elseBody)
    | node => throw (.notABlock b owner node)
  | .elseBody owner => do
    match ← t.stmts.get owner with
    | .branch kind pipe body elseBody => t.setStmt owner (.branch kind pipe body (f elseBody))
    | node => throw (.notABlock b owner node)

end Tree

end FlatTemplate

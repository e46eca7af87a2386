import FlatTemplate.Config
import FlatTemplate.Tree.Reading
import FlatTemplate.Variable

namespace FlatTemplate

inductive Violation where
  | compositeNestedPipe (pipe : PipeId)
  | pipeArgument (command : CommandId)
  | pathArgument (command : CommandId)
  | undeclaredTemporary (stmt : StmtId) (name : String)
  deriving DecidableEq, Repr

def Expr.shapeViolations (c : Command Handle) : Expr Handle → List Violation
  | .paren _ inner =>
    .pipeArgument c.tag ::
      if inner.commands.length > 1 then [.compositeNestedPipe inner.tag] else []
  | .atom _ a => if c.isCall && a.isPathRead then [.pathArgument c.tag] else []

def Command.shapeViolations (c : Command Handle) : List Violation :=
  c.args.flatMap (Expr.shapeViolations c)

/-- Every argument of every pipeline of the template is looked at; heads are not. -/
def shapeViolations (block : Block Handle) : List Violation :=
  (blockPipes block).flatMap fun p => p.commands.flatMap Command.shapeViolations

variable {ι : NodeKind → Type}

mutual

def Expr.variables : Expr ι → List String
  | .atom _ (.var path) => path.take 1
  | .atom _ _ => []
  | .paren _ inner => inner.variables

def argVariables : List (Expr ι) → List String
  | [] => []
  | e :: es => e.variables ++ argVariables es

def Command.variables : Command ι → List String
  | .mk _ head args => head.variables ++ argVariables args

def commandVariables : List (Command ι) → List String
  | [] => []
  | c :: cs => c.variables ++ commandVariables cs

def Pipe.variables : Pipe ι → List String
  | .mk _ _ commands => commandVariables commands

end

def Pipe.scopeViolations (stem : String) (visible : List String) (stmt : StmtId)
    (p : Pipe Handle) : List Violation :=
  (p.variables.filter fun name => isTemporary stem name && !visible.contains name).map
    (.undeclaredTemporary stmt)

def Stmt.declared : Stmt ι → List String
  | .action _ pipe => pipe.decls
  | _ => []

mutual

def Stmt.scopeViolations (stem : String) (visible : List String) :
    Stmt Handle → List Violation
  | .text _ _ => []
  | .action id pipe => pipe.scopeViolations stem visible id
  | .branch id _ pipe body elseBody =>
    pipe.scopeViolations stem visible id ++
      scopeViolations stem (pipe.decls ++ visible) body ++
      scopeViolations stem (pipe.decls ++ visible) elseBody
  | .invoke _ _ none => []
  | .invoke id _ (some pipe) => pipe.scopeViolations stem visible id

def scopeViolations (stem : String) (visible : List String) :
    Block Handle → List Violation
  | [] => []
  | s :: rest =>
    s.scopeViolations stem visible ++ scopeViolations stem (s.declared ++ visible) rest

end

def Expr.isNameless : Expr ι → Bool
  | .atom _ (.var []) => true
  | _ => false

def Pipe.readsNameless (p : Pipe ι) : Bool :=
  p.commands.any fun c => c.head.isNameless || c.args.any Expr.isNameless

def Tree.check (config : Config) (t : Tree) : Except Fault (List Violation) := do
  let block ← t.read
  if (blockPipes block).any Pipe.readsNameless then throw .namelessVariable
  return shapeViolations block ++ scopeViolations config.tempStem [] block

end FlatTemplate

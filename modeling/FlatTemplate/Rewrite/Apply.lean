import FlatTemplate.Rewrite.Next
import FlatTemplate.Tree.Place
import FlatTemplate.Tree.Reading
import FlatTemplate.Variable

namespace FlatTemplate

namespace Tree

def insertHoisted (t : Tree) (host new : StmtId) : Except Fault Tree := do
  match ← t.insertBefore host new with
  | some t => return t
  | none => throw (.hostVanished (← t.dumpStmt host) t.name)

def fold (t : Tree) (pipe : PipeId) : Except Fault Tree := do
  let node ← t.pipes.get pipe
  match node.commands with
  | source :: target :: rest =>
    let value := (← t.commands.get source).head
    let call ← t.commands.get target
    let t ← t.setCommand target { call with args := call.args ++ [value] }
    t.setPipe pipe { node with commands := target :: rest }
  | _ => throw .missingCommand

def hoistLeading (t : Tree) (host : StmtId) (pipe : PipeId) (count : Nat) (name : String) :
    Except Fault Tree := do
  let node ← t.pipes.get pipe
  let (assignment, t) := t.addAction [name] (node.commands.take count)
  let (read, t) := t.addRead name
  let t ← t.setPipe pipe { node with commands := read :: node.commands.drop count }
  t.insertHoisted host assignment

/-- Puts the action of `pipe`, which declares `name`, in front of `host` and `name` in the place of
an operand. -/
def hoistPipe (t : Tree) (host : StmtId) (command : CommandId) (operand : Operand) (pipe : PipeId)
    (name : String) : Except Fault Tree := do
  let (assignment, t) := t.addStmt (.action pipe)
  let (e, t) := t.addVariable name
  let t ← t.setOperand command operand e
  t.insertHoisted host assignment

def hoistRead (t : Tree) (host : StmtId) (command : CommandId) (operand : Operand) (value : ExprId)
    (name : String) : Except Fault Tree :=
  let (read, t) := t.addBare value
  let (pipe, t) := t.addPipe ⟨[name], [read]⟩
  t.hoistPipe host command operand pipe name

def hoistParens (t : Tree) (host : StmtId) (command : CommandId) (operand : Operand)
    (inner : PipeId) (name : String) : Except Fault Tree := do
  let node ← t.pipes.get inner
  let t ← t.setPipe inner { node with decls := [name] }
  t.hoistPipe host command operand inner name

def unwrap (t : Tree) (pipe inner : PipeId) : Except Fault Tree := do
  let node ← t.pipes.get inner
  let t ← t.setPipe inner { node with commands := [] }
  let outer ← t.pipes.get pipe
  t.setPipe pipe { outer with commands := node.commands }

def splitPrint (t : Tree) (host : StmtId) (name : String) : Except Fault Tree := do
  match ← t.stmts.get host with
  | .action pipe =>
    let node ← t.pipes.get pipe
    let t ← t.setPipe pipe { node with decls := [name] }
    let (print, t) := t.addPrint name
    match ← t.insertAfter host print with
    | some t => return t
    | none => throw (.splitVanished (← t.dumpStmt host))
  | _ => throw (.splitNonAction (← t.dumpStmt host))

end Tree

def Plan.apply (plan : Plan) (names : Supply) (t : Tree) : Except Fault (Tree × Supply) := do
  match plan.edit with
  | .fold pipe => return (← t.fold pipe, names)
  | .hoistLeading pipe count =>
    return (← t.hoistLeading plan.host pipe count names.next, names.rest)
  | .hoistOperand command operand =>
    let value ← t.operand command operand
    match ← t.exprs.get value with
    | .atom _ => return (← t.hoistRead plan.host command operand value names.next, names.rest)
    | .paren inner =>
      match (← t.pipes.get inner).decls with
      | [] => return (← t.hoistParens plan.host command operand inner names.next, names.rest)
      | name :: _ => return (← t.hoistPipe plan.host command operand inner name, names)
  | .unwrap pipe inner => return (← t.unwrap pipe inner, names)
  | .splitPrint => return (← t.splitPrint plan.host names.next, names.rest)

end FlatTemplate

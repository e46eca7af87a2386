import FlatTemplate.Tree.Reading
import FlatTemplate.Variable

namespace FlatTemplate.Tree

def respellOperand (tag : String) (t : Tree) (e : ExprId) : Except Fault (Tree × Nat) := do
  match ← t.exprs.get e with
  | .atom (.var []) => throw .namelessVariable
  | .atom (.var (first :: path)) =>
    if first = rootVariable then return (t, 0)
    else return (← t.setExpr e (.atom (.var (respell tag first :: path))), 1)
  | _ => return (t, 0)

def countEach {α : Type} (f : Tree → α → Except Fault (Tree × Nat)) :
    Tree → List α → Except Fault (Tree × Nat)
  | t, [] => return (t, 0)
  | t, a :: as => do
    let (t, m) ← f t a
    let (t, n) ← countEach f t as
    return (t, m + n)

def respellPipe (tag : String) (t : Tree) (pipe : PipeId) : Except Fault (Tree × Nat) := do
  let node ← t.pipes.get pipe
  let t ← t.setPipe pipe { node with decls := node.decls.map (respell tag) }
  let (t, reads) ← countEach
    (fun t c => do countEach (respellOperand tag) t (← t.commands.get c).operands) t node.commands
  return (t, node.decls.countP (· ≠ rootVariable) + reads)

def respellVariables (tag : String) (t : Tree) : Except Fault (Tree × Nat) := do
  countEach (respellPipe tag) t (← t.reachablePipes)

end FlatTemplate.Tree

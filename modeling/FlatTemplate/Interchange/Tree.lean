import FlatTemplate.Interchange.Datum
import FlatTemplate.TemplateSet

namespace FlatTemplate

namespace Handle

variable {kind : NodeKind}

def toDatum (h : Handle kind) : Datum := .nat h.index

def ofDatum? (d : Datum) : Option (Handle kind) := d.nat?.map Handle.mk

def listToDatum (hs : List (Handle kind)) : Datum := .list (hs.map toDatum)

def listOfDatum? : Datum → Option (List (Handle kind)) := Datum.listOf? ofDatum?

def optionToDatum : Option (Handle kind) → Datum
  | none => .null
  | some h => h.toDatum

def optionOfDatum? : Datum → Option (Option (Handle kind))
  | .null => some none
  | d => (ofDatum? d).map some

end Handle

namespace ExprNode

def toDatum : ExprNode → Datum
  | .paren inner => .tag "Pipe" inner.toDatum
  | .atom (.var path) => .tag "Variable" (.strings path)
  | .atom (.field path) => .tag "Field" (.strings path)
  | .atom .dot => .str "Dot"
  | .atom (.identifier name) => .tag "Identifier" (.str name)
  | .atom (.str text) => .tag "Str" (.str text)
  | .atom (.number spelling) => .tag "Number" (.str spelling)
  | .atom (.bool value) => .tag "Bool" (.bool value)

def ofDatum? : Datum → Option ExprNode
  | .str s => if s = "Dot" then some (.atom .dot) else none
  | d => do
    let (name, d) ← d.tagged?
    if name = "Pipe" then return .paren (← Handle.ofDatum? d)
    else if name = "Variable" then return .atom (.var (← d.strings?))
    else if name = "Field" then return .atom (.field (← d.strings?))
    else if name = "Identifier" then return .atom (.identifier (← d.str?))
    else if name = "Str" then return .atom (.str (← d.str?))
    else if name = "Number" then return .atom (.number (← d.str?))
    else if name = "Bool" then return .atom (.bool (← d.bool?))
    else none

end ExprNode

namespace CommandNode

def toDatum (c : CommandNode) : Datum :=
  .record [("head", c.head.toDatum), ("args", Handle.listToDatum c.args)]

def ofDatum? (d : Datum) : Option CommandNode := do
  return ⟨← d.fieldAs? Handle.ofDatum? "head", ← d.fieldAs? Handle.listOfDatum? "args"⟩

end CommandNode

namespace PipeNode

def toDatum (p : PipeNode) : Datum :=
  .record [("decls", .strings p.decls), ("cmds", Handle.listToDatum p.commands)]

def ofDatum? (d : Datum) : Option PipeNode := do
  return ⟨← d.fieldAs? Datum.strings? "decls", ← d.fieldAs? Handle.listOfDatum? "cmds"⟩

end PipeNode

namespace StmtNode

def toDatum : StmtNode → Datum
  | .text s => .tag "Text" (.str s)
  | .action pipe => .tag "Action" pipe.toDatum
  | .branch kind pipe body elseBody =>
    .tag kind.kindName (.record [("pipe", pipe.toDatum), ("body", Handle.listToDatum body),
      ("else_body", Handle.listToDatum elseBody)])
  | .invoke name pipe =>
    .tag "Invoke" (.record [("name", .str name), ("pipe", Handle.optionToDatum pipe)])

def branchOfDatum? (kind : BranchKind) (d : Datum) : Option StmtNode := do
  return .branch kind (← d.fieldAs? Handle.ofDatum? "pipe")
    (← d.fieldAs? Handle.listOfDatum? "body") (← d.fieldAs? Handle.listOfDatum? "else_body")

def ofDatum? (d : Datum) : Option StmtNode := do
  let (name, d) ← d.tagged?
  if name = "Text" then return .text (← d.str?)
  else if name = "Action" then return .action (← Handle.ofDatum? d)
  else if name = "If" then branchOfDatum? .cond d
  else if name = "Range" then branchOfDatum? .range d
  else if name = "With" then branchOfDatum? .within d
  else if name = "Invoke" then
    return .invoke (← d.fieldAs? Datum.str? "name") (← d.fieldAs? Handle.optionOfDatum? "pipe")
  else none

end StmtNode

namespace Arena

variable {kind : NodeKind} {α : Type}

def toDatum (write : α → Datum) (a : Arena kind α) : Datum := .list (a.nodes.toList.map write)

def ofDatum? (read : Datum → Option α) (d : Datum) : Option (Arena kind α) := do
  return ⟨(← d.listOf? read).toArray⟩

end Arena

namespace Tree

def toDatum (t : Tree) : Datum :=
  .record [("name", .str t.name), ("root", Handle.listToDatum t.root),
    ("stmts", t.stmts.toDatum StmtNode.toDatum), ("pipes", t.pipes.toDatum PipeNode.toDatum),
    ("cmds", t.commands.toDatum CommandNode.toDatum), ("exprs", t.exprs.toDatum ExprNode.toDatum)]

def ofDatum? (d : Datum) : Option Tree := do
  return {
    name := ← d.fieldAs? Datum.str? "name"
    root := ← d.fieldAs? Handle.listOfDatum? "root"
    stmts := ← d.fieldAs? (Arena.ofDatum? StmtNode.ofDatum?) "stmts"
    pipes := ← d.fieldAs? (Arena.ofDatum? PipeNode.ofDatum?) "pipes"
    commands := ← d.fieldAs? (Arena.ofDatum? CommandNode.ofDatum?) "cmds"
    exprs := ← d.fieldAs? (Arena.ofDatum? ExprNode.ofDatum?) "exprs" }

end Tree

namespace TemplateSet

def toDatum (s : TemplateSet) : Datum :=
  .record [("trees", .list (s.trees.map Tree.toDatum))]

def ofDatum? (d : Datum) : Option TemplateSet := do
  match ← d.fieldAs? (Datum.listOf? Tree.ofDatum?) "trees" with
  | main :: defined => return { main, defined }
  | [] => none

end TemplateSet

end FlatTemplate

import FlatTemplate.Rewrite.Match

/-!
The first rewrite in a template: statements from front to back, the pipeline of each before its
bodies, and every pipeline before those in its operands. The search ends at the first match and does
not read what lies behind it.
-/

namespace FlatTemplate

structure Plan extends Match where
  host : StmtId
  deriving DecidableEq, Repr

namespace Tree

/-- The first match in a pipeline and those in its operands, of which at most `depth` lie within one
another. -/
def matchWithin? (t : Tree) : Nat → Role → PipeId → Except Fault (Option Match)
  | 0, _, _ => throw .endless
  | depth + 1, role, pipe => do
    let commands := (← t.pipes.get pipe).commands
    match ← role.match? t pipe commands with
    | some found => return some found
    | none =>
      commands.findSomeM? fun command => do
        (← t.commands.get command).operands.findSomeM? fun operand => do
          match ← t.exprs.get operand with
          | .atom _ => return none
          | .paren inner => t.matchWithin? depth .nested inner

def planPipe? (t : Tree) (host : StmtId) (role : Role) (pipe : PipeId) :
    Except Fault (Option Plan) := do
  return (← t.matchWithin? (t.pipes.size + 1) role pipe).map fun found => { found with host }

def actionRole (t : Tree) (pipe : PipeId) : Except Fault Role := do
  return if (← t.pipes.get pipe).decls.isEmpty then .print else .assign

def planStmtWithin? (t : Tree) : Nat → StmtId → Except Fault (Option Plan)
  | 0, _ => throw .endless
  | depth + 1, host => do
    match ← t.stmts.get host with
    | .text _ => return none
    | .action pipe => t.planPipe? host (← t.actionRole pipe) pipe
    | .branch _ pipe body elseBody =>
      match ← t.planPipe? host .subject pipe with
      | some plan => return some plan
      | none =>
        match ← body.findSomeM? (t.planStmtWithin? depth) with
        | some plan => return some plan
        | none => elseBody.findSomeM? (t.planStmtWithin? depth)
    | .invoke _ none => return none
    | .invoke _ (some pipe) => t.planPipe? host .subject pipe

def plan? (t : Tree) : Except Fault (Option Plan) :=
  t.root.findSomeM? (t.planStmtWithin? (t.stmts.size + 1))

def isCanonical (t : Tree) : Except Fault Bool := do
  return (← t.plan?).isNone

end Tree

end FlatTemplate

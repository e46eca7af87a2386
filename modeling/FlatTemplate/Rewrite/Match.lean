import FlatTemplate.Rewrite.Rule
import FlatTemplate.Tree

/-!
What is to be changed in one pipeline. Evaluation runs the commands of a pipeline from left to
right, and in each first the arguments, then the head; what is moved in front of the host runs
before all that stays, so nothing may be moved past what runs before it.

Only the nodes that decide the matter are read: of an operand in parentheses not the pipeline in it,
and of the arguments of a command none behind the first to hoist. A handle that dangles among the
others does no harm.
-/

namespace FlatTemplate

inductive Edit where
  | fold (pipe : PipeId)
  | hoistLeading (pipe : PipeId) (count : Nat)
  | hoistOperand (command : CommandId) (operand : Operand)
  | unwrap (pipe inner : PipeId)
  | splitPrint
  deriving DecidableEq, Repr

structure Match where
  rule : Rule
  edit : Edit
  deriving DecidableEq, Repr

namespace ExprNode

def isFoldable : ExprNode → Bool
  | .atom (.var _) | .atom (.field _) | .atom .dot | .atom (.str _) | .atom (.number _) => true
  | _ => false

/-- The values that evaluate without running anything. -/
def isPlain : ExprNode → Bool
  | .atom (.var path) => path.length = 1
  | .atom .dot | .atom (.str _) | .atom (.number _) | .atom (.bool _) => true
  | _ => false

end ExprNode

structure CommandView where
  id : CommandId
  head : ExprNode
  args : List ExprId
  deriving DecidableEq, Repr

namespace CommandView

def isCall (c : CommandView) : Bool := c.head.isIdentifier

def isMethodCall (c : CommandView) : Bool :=
  !c.args.isEmpty && (c.head.isPathRead || c.head = .atom .dot)

def isBare (c : CommandView) : Bool := c.args.isEmpty

def isPlain (c : CommandView) : Bool := c.isBare && c.head.isPlain

/-- The arguments to hoist: those in parentheses, and the path reads that a call takes. -/
def hoists (c : CommandView) (e : ExprNode) : Bool :=
  if c.isCall then e.isParen || e.isPathRead else c.isMethodCall && e.isParen

end CommandView

structure HoistableArg where
  before : Nat
  command : CommandView
  index : Nat
  value : ExprNode
  deriving DecidableEq, Repr

/-- Hoisting the next operand in the order of evaluation. The commands in front of the argument's
own run before it and are hoisted first, unless a plain value is all there is in front. -/
def HoistableArg.toMatch (arg : HoistableArg) (pipe : PipeId) (leading : CommandView) : Match :=
  if arg.before = 0 ∨ arg.before = 1 ∧ leading.isPlain then
    ⟨if arg.value.isParen then .nestedPipe else .argumentRead,
      .hoistOperand arg.command.id (.arg arg.index)⟩
  else if arg.before = 1 ∧ leading.isBare ∧ leading.head.isParen then
    ⟨.parenthesizedHead, .hoistOperand leading.id .head⟩
  else if arg.before = 1 ∧ leading.isBare ∧ leading.head.isPathRead then
    ⟨.argumentRead, .hoistOperand leading.id .head⟩
  else
    ⟨if leading.isMethodCall then .methodCall else .chainedCall, .hoistLeading pipe arg.before⟩

namespace Tree

def viewCommand (t : Tree) (id : CommandId) : Except Fault CommandView := do
  let node ← t.commands.get id
  return ⟨id, ← t.exprs.get node.head, node.args⟩

def findExpr? (t : Tree) (p : ExprNode → Bool) (index : Nat) :
    List ExprId → Except Fault (Option (Nat × ExprNode))
  | [] => return none
  | id :: ids => do
    let e ← t.exprs.get id
    if p e then return some (index, e) else t.findExpr? p (index + 1) ids

def hoistableIn? (t : Tree) (c : CommandView) : Except Fault (Option (Nat × ExprNode)) :=
  if c.isCall || c.isMethodCall then t.findExpr? c.hoists 0 c.args else return none

def hoistsIn (t : Tree) (c : CommandView) : Except Fault Bool := do
  return (← t.hoistableIn? c).isSome

def hoistableArg? (t : Tree) (before : Nat) :
    List CommandId → Except Fault (Option HoistableArg)
  | [] => return none
  | id :: ids => do
    let command ← t.viewCommand id
    match ← t.hoistableIn? command with
    | some (index, value) => return some { before, command, index, value }
    | none => t.hoistableArg? (before + 1) ids

end Tree

abbrev Matcher := Tree → PipeId → List CommandId → Except Fault (Option Match)

namespace Pattern

def redundantParens? : Matcher
  | t, pipe, [id] => do
    let c ← t.viewCommand id
    match c.head with
    | .paren inner =>
      if c.isBare then
        if (← t.pipes.get inner).decls.isEmpty then
          return some ⟨.redundantParens, .unwrap pipe inner⟩
        else return none
      else return none
    | .atom _ => return none
  | _, _, _ => return none

def hoistableOperand? : Matcher
  | t, pipe, first :: rest => do
    match ← t.hoistableArg? 0 (first :: rest) with
    | some arg => return some (arg.toMatch pipe (← t.viewCommand first))
    | none => return none
  | _, _, [] => return none

def leadingMethodCall? : Matcher
  | t, pipe, first :: _ :: _ => do
    if (← t.viewCommand first).isMethodCall then return some ⟨.methodCall, .hoistLeading pipe 1⟩
    else return none
  | _, _, _ => return none

def loneRead? : Matcher
  | t, pipe, [id] => do
    let c ← t.viewCommand id
    if c.head.isPathRead || c.isMethodCall then return some ⟨.compoundHead, .hoistLeading pipe 1⟩
    else return none
  | _, _, _ => return none

def printedCall? : Matcher
  | t, _, commands => do
    if ← commands.anyM fun id => return (← t.viewCommand id).isCall then
      return some ⟨.splitPrint, .splitPrint⟩
    else return none

/-- A value in front of a call. A path read waits until the call has no argument to hoist, which
would then run before it. -/
def pipedValue? : Matcher
  | t, pipe, first :: second :: _ => do
    let call ← t.viewCommand second
    if call.isCall then
      let value ← t.viewCommand first
      if value.isBare && value.head.isFoldable then
        let waits ← if value.head.isPathRead then t.hoistsIn call else pure false
        if waits then return none else return some ⟨.foldPipedValue, .fold pipe⟩
      else return none
    else return none
  | _, _, _ => return none

def leadingParens? : Matcher
  | t, _, first :: _ :: _ => do
    let c ← t.viewCommand first
    if c.head.isParen then return some ⟨.parenthesizedHead, .hoistOperand c.id .head⟩
    else return none
  | _, _, _ => return none

def leadingCalls? : Matcher
  | t, pipe, first :: second :: _ => do
    if (← t.viewCommand first).isCall then
      if (← t.viewCommand second).isCall then return some ⟨.chainedCall, .hoistLeading pipe 1⟩
      else return none
    else return none
  | _, _, _ => return none

def loneCall? : Matcher
  | t, pipe, [id] => do
    let c ← t.viewCommand id
    if c.isCall && !c.isBare then return some ⟨.subjectCall, .hoistLeading pipe 1⟩
    else return none
  | _, _, _ => return none

def match? : Pattern → Matcher
  | .redundantParens => redundantParens?
  | .hoistableOperand => hoistableOperand?
  | .leadingMethodCall => leadingMethodCall?
  | .loneRead => loneRead?
  | .printedCall => printedCall?
  | .pipedValue => pipedValue?
  | .leadingParens => leadingParens?
  | .leadingCalls => leadingCalls?
  | .loneCall => loneCall?

end Pattern

def Role.match? (role : Role) (t : Tree) (pipe : PipeId) (commands : List CommandId) :
    Except Fault (Option Match) :=
  role.patterns.findSomeM? fun pattern => pattern.match? t pipe commands

end FlatTemplate

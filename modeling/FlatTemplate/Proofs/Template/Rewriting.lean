import FlatTemplate.Proofs.Template.Entries
import FlatTemplate.Rewrite.Next
import FlatTemplate.Variable

namespace FlatTemplate

structure Fresh where
  stmt : StmtId
  pipe : PipeId
  command : CommandId
  expr : ExprId
  name : String
  deriving DecidableEq, Repr

/-- A change of an `α`: the match that calls for it, the pipeline of the action that is put in front
of the host, what stays in place, and whether the temporary is taken. -/
structure Rewriting (α : Type) where
  found : Match
  ahead : Option (Pipe Handle)
  rest : α
  taken : Bool

def Rewriting.map {α β : Type} (f : α → β) (r : Rewriting α) : Rewriting β :=
  ⟨r.found, r.ahead, f r.rest, r.taken⟩

def splitFirst {α : Type} (p : α → Bool) : List α → Option (List α × α × List α)
  | [] => none
  | a :: as =>
    if p a then some ([], a, as)
    else (splitFirst p as).map fun (pre, x, post) => (a :: pre, x, post)

namespace Fresh

def reading (f : Fresh) (name : String) : Expr Handle := .atom f.expr (.var [name])

def read (f : Fresh) : Command Handle := .mk f.command (f.reading f.name) []

def print (f : Fresh) : Stmt Handle := .action f.stmt (.mk f.pipe [] [f.read])

end Fresh

namespace Expr

def bound (f : Fresh) : Expr Handle → Pipe Handle
  | .atom id a => .mk f.pipe [f.name] [.mk f.command (.atom id a) []]
  | .paren _ (.mk id [] commands) => .mk id [f.name] commands
  | .paren _ (.mk id (name :: names) commands) => .mk id (name :: names) commands

def takes : Expr Handle → Bool
  | .paren _ (.mk _ (_ :: _) _) => false
  | _ => true

def stub (f : Fresh) : Expr Handle → Expr Handle
  | .paren _ (.mk _ (name :: _) _) => f.reading name
  | _ => f.reading f.name

end Expr

namespace Command

def view (c : Command Handle) : CommandView := ⟨c.tag, c.head.node, c.args.map Expr.tag⟩

@[simp] theorem view_id (c : Command Handle) : c.view.id = c.tag := rfl

@[simp] theorem view_head (c : Command Handle) : c.view.head = c.head.node := rfl

@[simp] theorem view_args (c : Command Handle) : c.view.args = c.args.map Expr.tag := rfl

def hoists (c : Command Handle) (e : Expr Handle) : Bool := c.view.hoists e.node

def hasHoistable (c : Command Handle) : Bool := c.args.any c.hoists

end Command

namespace Pipe

def bindLeading (f : Fresh) (rule : Rule) (id : PipeId) (decls : List String)
    (pre rest : List (Command Handle)) : Rewriting (Pipe Handle) :=
  ⟨⟨rule, .hoistLeading id pre.length⟩, some (.mk f.pipe [f.name] pre),
    .mk id decls (f.read :: rest), true⟩

def bindHead (f : Fresh) (rule : Rule) (id : PipeId) (decls : List String) (c : Command Handle)
    (rest : List (Command Handle)) : Rewriting (Pipe Handle) :=
  ⟨⟨rule, .hoistOperand c.tag .head⟩, some (c.head.bound f),
    .mk id decls (.mk c.tag (c.head.stub f) c.args :: rest), c.head.takes⟩

def bindArg (f : Fresh) (id : PipeId) (decls : List String) (pre : List (Command Handle))
    (c : Command Handle) (before : List (Expr Handle)) (e : Expr Handle)
    (after : List (Expr Handle)) (post : List (Command Handle)) : Rewriting (Pipe Handle) :=
  ⟨⟨if e.node.isParen then .nestedPipe else .argumentRead,
      .hoistOperand c.tag (.arg before.length)⟩, some (e.bound f),
    .mk id decls (pre ++ .mk c.tag c.head (before ++ e.stub f :: after) :: post), e.takes⟩

def bindOperand (f : Fresh) (id : PipeId) (decls : List String) (pre : List (Command Handle))
    (c : Command Handle) (post : List (Command Handle)) : Option (Rewriting (Pipe Handle)) :=
  (splitFirst c.hoists c.args).map fun (before, e, after) =>
    match pre with
    | [] => bindArg f id decls [] c before e after post
    | l :: more =>
      if more.isEmpty && l.view.isPlain then bindArg f id decls (l :: more) c before e after post
      else if more.isEmpty && l.view.isBare && l.head.node.isParen then
        bindHead f .parenthesizedHead id decls l (c :: post)
      else if more.isEmpty && l.view.isBare && l.head.node.isPathRead then
        bindHead f .argumentRead id decls l (c :: post)
      else
        bindLeading f (if l.view.isMethodCall then .methodCall else .chainedCall) id decls
          (l :: more) (c :: post)

end Pipe

namespace Pattern

def rewrite? (f : Fresh) : Pattern → Pipe Handle → Option (Rewriting (Pipe Handle))
  | .redundantParens, .mk id decls [.mk _ (.paren _ (.mk inner [] commands)) []] =>
    some ⟨⟨.redundantParens, .unwrap id inner⟩, none, .mk id decls commands, false⟩
  | .redundantParens, _ => none
  | .hoistableOperand, .mk id decls commands =>
    (splitFirst Command.hasHoistable commands).bind fun (pre, c, post) =>
      Pipe.bindOperand f id decls pre c post
  | .leadingMethodCall, .mk id decls (c :: d :: rest) =>
    if c.view.isMethodCall then some (Pipe.bindLeading f .methodCall id decls [c] (d :: rest))
    else none
  | .leadingMethodCall, _ => none
  | .loneRead, .mk id decls [c] =>
    if c.head.node.isPathRead || c.view.isMethodCall then
      some (Pipe.bindLeading f .compoundHead id decls [c] [])
    else none
  | .loneRead, _ => none
  | .printedCall, .mk id _ commands =>
    if commands.any (·.view.isCall) then
      some ⟨⟨.splitPrint, .splitPrint⟩, none, .mk id [f.name] commands, true⟩
    else none
  | .pipedValue, .mk id decls (v :: c :: rest) =>
    if c.view.isCall && v.view.isBare && v.head.node.isFoldable &&
        !(v.head.node.isPathRead && c.hasHoistable) then
      some ⟨⟨.foldPipedValue, .fold id⟩, none,
        .mk id decls (.mk c.tag c.head (c.args ++ [v.head]) :: rest), false⟩
    else none
  | .pipedValue, _ => none
  | .leadingParens, .mk id decls (c :: d :: rest) =>
    if c.head.node.isParen then
      some (Pipe.bindHead f .parenthesizedHead id decls c (d :: rest))
    else none
  | .leadingParens, _ => none
  | .leadingCalls, .mk id decls (c :: d :: rest) =>
    if c.view.isCall && d.view.isCall then
      some (Pipe.bindLeading f .chainedCall id decls [c] (d :: rest))
    else none
  | .leadingCalls, _ => none
  | .loneCall, .mk id decls [c] =>
    if c.view.isCall && !c.view.isBare then
      some (Pipe.bindLeading f .subjectCall id decls [c] [])
    else none
  | .loneCall, _ => none

end Pattern

def Role.rewrite? (role : Role) (f : Fresh) (p : Pipe Handle) : Option (Rewriting (Pipe Handle)) :=
  role.patterns.findSome? fun pattern => pattern.rewrite? f p

mutual

def Expr.rewrite? (f : Fresh) : Expr Handle → Option (Rewriting (Expr Handle))
  | .atom _ _ => none
  | .paren id inner => (inner.rewrite? f .nested).map (Rewriting.map (.paren id))

def argRewrite? (f : Fresh) : List (Expr Handle) → Option (Rewriting (List (Expr Handle)))
  | [] => none
  | e :: es =>
    match e.rewrite? f with
    | some r => some (r.map (· :: es))
    | none => (argRewrite? f es).map (Rewriting.map (e :: ·))

def Command.rewrite? (f : Fresh) : Command Handle → Option (Rewriting (Command Handle))
  | .mk id head args =>
    match head.rewrite? f with
    | some r => some (r.map fun head => .mk id head args)
    | none => (argRewrite? f args).map (Rewriting.map fun args => .mk id head args)

def commandRewrite? (f : Fresh) :
    List (Command Handle) → Option (Rewriting (List (Command Handle)))
  | [] => none
  | c :: cs =>
    match c.rewrite? f with
    | some r => some (r.map (· :: cs))
    | none => (commandRewrite? f cs).map (Rewriting.map (c :: ·))

def Pipe.rewrite? (f : Fresh) (role : Role) : Pipe Handle → Option (Rewriting (Pipe Handle))
  | .mk id decls commands =>
    match role.rewrite? f (.mk id decls commands) with
    | some r => some r
    | none => (commandRewrite? f commands).map (Rewriting.map fun commands => .mk id decls commands)

end

def Pipe.actionRole (p : Pipe Handle) : Role := if p.decls.isEmpty then .print else .assign

structure BlockRewriting where
  plan : Plan
  block : Block Handle
  taken : Bool

def Rewriting.around (f : Fresh) (host : StmtId) (r : Rewriting (Stmt Handle)) : BlockRewriting :=
  ⟨{ r.found with host },
    (r.ahead.map (.action f.stmt)).toList ++
      r.rest :: (if r.found.edit = .splitPrint then [f.print] else []), r.taken⟩

def Stmt.rewriteOwn? (f : Fresh) : Stmt Handle → Option BlockRewriting
  | .text _ _ => none
  | .action id p =>
    (p.rewrite? f p.actionRole).map fun r => (r.map (.action id)).around f id
  | .branch id kind p body elseBody =>
    (p.rewrite? f .subject).map fun r =>
      (r.map fun p => .branch id kind p body elseBody).around f id
  | .invoke _ _ none => none
  | .invoke id name (some p) =>
    (p.rewrite? f .subject).map fun r => (r.map fun p => .invoke id name (some p)).around f id

mutual

def Stmt.rewrite? (f : Fresh) : Stmt Handle → Option BlockRewriting
  | .branch id kind p body elseBody =>
    match (Stmt.branch id kind p body elseBody).rewriteOwn? f with
    | some r => some r
    | none =>
      match blockRewrite? f body with
      | some r => some { r with block := [.branch id kind p r.block elseBody] }
      | none => (blockRewrite? f elseBody).map fun r =>
          { r with block := [.branch id kind p body r.block] }
  | s => s.rewriteOwn? f

def blockRewrite? (f : Fresh) : Block Handle → Option BlockRewriting
  | [] => none
  | s :: rest =>
    match s.rewrite? f with
    | some r => some { r with block := r.block ++ rest }
    | none => (blockRewrite? f rest).map fun r => { r with block := s :: r.block }

end

end FlatTemplate

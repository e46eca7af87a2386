import FlatTemplate.Proofs.Template.Relabelling
import FlatTemplate.Proofs.Template.Rewriting

/-!
A rewrite looks at neither handles nor names: relabelled, a template is rewritten to what it is
rewritten to, relabelled.
-/

namespace FlatTemplate

variable (F : Relabelling Handle Handle)

def Fresh.relabel (f : Fresh) : Fresh :=
  ⟨F.tag f.stmt, F.tag f.pipe, F.tag f.command, F.tag f.expr, F.name f.name⟩

def Edit.relabel : Edit → Edit
  | .fold pipe => .fold (F.tag pipe)
  | .hoistLeading pipe count => .hoistLeading (F.tag pipe) count
  | .hoistOperand command operand => .hoistOperand (F.tag command) operand
  | .unwrap pipe inner => .unwrap (F.tag pipe) (F.tag inner)
  | .splitPrint => .splitPrint

def Match.relabel (m : Match) : Match := ⟨m.rule, m.edit.relabel F⟩

def Plan.relabel (p : Plan) : Plan := ⟨p.toMatch.relabel F, F.tag p.host⟩

def Rewriting.relabel {α : Type} (k : α → α) (r : Rewriting α) : Rewriting α :=
  ⟨r.found.relabel F, r.ahead.map (Pipe.relabel F), k r.rest, r.taken⟩

def BlockRewriting.relabel (r : BlockRewriting) : BlockRewriting :=
  ⟨r.plan.relabel F, blockRelabel F r.block, r.taken⟩

@[simp] theorem BlockRewriting.rule_relabel (r : BlockRewriting) :
    (r.relabel F).plan.rule = r.plan.rule := rfl

@[simp] theorem BlockRewriting.block_relabel (r : BlockRewriting) :
    (r.relabel F).block = blockRelabel F r.block := rfl

@[simp] theorem BlockRewriting.taken_relabel (r : BlockRewriting) :
    (r.relabel F).taken = r.taken := rfl

namespace ExprNode

def relabel : ExprNode → ExprNode
  | .atom a => .atom (a.rename F.name)
  | .paren inner => .paren (F.tag inner)

variable (e : ExprNode)

@[simp] theorem isParen_relabel : (e.relabel F).isParen = e.isParen := by
  cases e <;> rfl

@[simp] theorem isPathRead_relabel : (e.relabel F).isPathRead = e.isPathRead := by
  match e with
  | .paren _ | .atom (.var []) | .atom (.var (_ :: _)) | .atom (.field _) | .atom .dot
  | .atom (.identifier _) | .atom (.str _) | .atom (.number _) | .atom (.bool _) => rfl

@[simp] theorem isIdentifier_relabel : (e.relabel F).isIdentifier = e.isIdentifier := by
  match e with
  | .paren _ | .atom (.var []) | .atom (.var (_ :: _)) | .atom (.field _) | .atom .dot
  | .atom (.identifier _) | .atom (.str _) | .atom (.number _) | .atom (.bool _) => rfl

@[simp] theorem isFoldable_relabel : (e.relabel F).isFoldable = e.isFoldable := by
  match e with
  | .paren _ | .atom (.var []) | .atom (.var (_ :: _)) | .atom (.field _) | .atom .dot
  | .atom (.identifier _) | .atom (.str _) | .atom (.number _) | .atom (.bool _) => rfl

@[simp] theorem isPlain_relabel : (e.relabel F).isPlain = e.isPlain := by
  match e with
  | .paren _ | .atom (.var []) | .atom (.var (_ :: _)) | .atom (.field _) | .atom .dot
  | .atom (.identifier _) | .atom (.str _) | .atom (.number _) | .atom (.bool _) => rfl

@[simp] theorem relabel_eq_dot : e.relabel F = .atom .dot ↔ e = .atom .dot := by
  match e with
  | .paren _ | .atom (.var []) | .atom (.var (_ :: _)) | .atom (.field _) | .atom .dot
  | .atom (.identifier _) | .atom (.str _) | .atom (.number _) | .atom (.bool _) =>
    simp [relabel, Atom.rename]

end ExprNode

theorem Pipe.tag_relabel (p : Pipe Handle) : (p.relabel F).tag = F.tag p.tag := by
  cases p
  rfl

theorem Expr.tag_relabel (e : Expr Handle) : (e.relabel F).tag = F.tag e.tag := by
  cases e <;> rfl

@[simp] theorem Expr.node_relabel (e : Expr Handle) :
    (e.relabel F).node = e.node.relabel F := by
  cases e with
  | atom => rfl
  | paren _ inner => rw [Expr.relabel, node, node, inner.tag_relabel]; rfl

namespace CommandView

def relabel (v : CommandView) : CommandView := ⟨F.tag v.id, v.head.relabel F, v.args.map F.tag⟩

variable (v : CommandView)

@[simp] theorem isCall_relabel : (v.relabel F).isCall = v.isCall :=
  v.head.isIdentifier_relabel F

@[simp] theorem isBare_relabel : (v.relabel F).isBare = v.isBare := List.isEmpty_map

@[simp] theorem isMethodCall_relabel : (v.relabel F).isMethodCall = v.isMethodCall := by
  simp [isMethodCall, relabel]

@[simp] theorem isPlain_relabel : (v.relabel F).isPlain = v.isPlain := by
  simp [isPlain, isBare, relabel]

@[simp] theorem hoists_relabel (e : ExprNode) : (v.relabel F).hoists (e.relabel F) = v.hoists e := by
  simp [hoists]

end CommandView

namespace Command

variable (c : Command Handle)

@[simp] theorem head_relabel : (c.relabel F).head = c.head.relabel F := by
  cases c
  rfl

@[simp] theorem args_relabel : (c.relabel F).args = argRelabel F c.args := by
  cases c
  rfl

theorem tag_relabel : (c.relabel F).tag = F.tag c.tag := by
  cases c
  rfl

@[simp] theorem view_relabel : (c.relabel F).view = c.view.relabel F := by
  simp [view, CommandView.relabel, tag_relabel, argRelabel_eq_map, Expr.tag_relabel]

@[simp] theorem hoists_relabel (e : Expr Handle) :
    (c.relabel F).hoists (e.relabel F) = c.hoists e := by
  simp [hoists]

@[simp] theorem hasHoistable_relabel : (c.relabel F).hasHoistable = c.hasHoistable := by
  simp [hasHoistable, argRelabel_eq_map, Function.comp_def]

end Command

theorem splitFirst_map {α β : Type} (p : β → Bool) (k : α → β) (as : List α) :
    splitFirst p (as.map k) = (splitFirst (fun a => p (k a)) as).map fun (pre, a, post) =>
      (pre.map k, k a, post.map k) := by
  induction as with
  | nil => rfl
  | cons a as ih =>
    rw [List.map_cons, splitFirst, splitFirst, ih]
    by_cases h : p (k a)
    · rw [if_pos h, if_pos h]
      rfl
    · rw [if_neg h, if_neg h, Option.map_map, Option.map_map]
      rfl

variable (f : Fresh)

namespace Expr

theorem bound_relabel (e : Expr Handle) :
    (e.relabel F).bound (f.relabel F) = (e.bound f).relabel F := by
  match e with
  | .atom .. | .paren _ (.mk _ [] _) | .paren _ (.mk _ (_ :: _) _) => rfl

theorem takes_relabel (e : Expr Handle) : (e.relabel F).takes = e.takes := by
  match e with
  | .atom .. | .paren _ (.mk _ [] _) | .paren _ (.mk _ (_ :: _) _) => rfl

theorem stub_relabel (e : Expr Handle) :
    (e.relabel F).stub (f.relabel F) = (e.stub f).relabel F := by
  match e with
  | .atom .. | .paren _ (.mk _ [] _) | .paren _ (.mk _ (_ :: _) _) => rfl

end Expr

namespace Pipe

theorem bindLeading_relabel (rule : Rule) (id : PipeId) (decls : List String)
    (pre rest : List (Command Handle)) :
    bindLeading (f.relabel F) rule (F.tag id) (decls.map F.name) (pre.map (·.relabel F))
        (rest.map (·.relabel F)) =
      (bindLeading f rule id decls pre rest).relabel F (Pipe.relabel F) := by
  simp only [bindLeading, Rewriting.relabel, Match.relabel, Edit.relabel, List.length_map,
    Option.map_some, Pipe.relabel, commandRelabel_eq_map]
  rfl

theorem bindHead_relabel (rule : Rule) (id : PipeId) (decls : List String) (c : Command Handle)
    (rest : List (Command Handle)) :
    bindHead (f.relabel F) rule (F.tag id) (decls.map F.name) (c.relabel F)
        (rest.map (·.relabel F)) =
      (bindHead f rule id decls c rest).relabel F (Pipe.relabel F) := by
  simp only [bindHead, Command.head_relabel, Expr.bound_relabel, Expr.stub_relabel,
    Expr.takes_relabel, Command.tag_relabel, Command.args_relabel, Rewriting.relabel, Match.relabel,
    Edit.relabel, Option.map_some, Pipe.relabel, commandRelabel_eq_map, List.map_cons,
    Command.relabel]

theorem bindArg_relabel (id : PipeId) (decls : List String) (pre : List (Command Handle))
    (c : Command Handle) (before : List (Expr Handle)) (e : Expr Handle)
    (after : List (Expr Handle)) (post : List (Command Handle)) :
    bindArg (f.relabel F) (F.tag id) (decls.map F.name) (pre.map (·.relabel F)) (c.relabel F)
        (before.map (·.relabel F)) (e.relabel F) (after.map (·.relabel F))
        (post.map (·.relabel F)) =
      (bindArg f id decls pre c before e after post).relabel F (Pipe.relabel F) := by
  simp only [bindArg, Command.head_relabel, Expr.bound_relabel, Expr.stub_relabel,
    Expr.takes_relabel, Expr.node_relabel, ExprNode.isParen_relabel, Command.tag_relabel,
    List.length_map, Rewriting.relabel, Match.relabel, Edit.relabel, Option.map_some, Pipe.relabel,
    commandRelabel_eq_map, argRelabel_eq_map, List.map_append, List.map_cons, Command.relabel]

theorem bindOperand_relabel (id : PipeId) (decls : List String) (pre : List (Command Handle))
    (c : Command Handle) (post : List (Command Handle)) :
    bindOperand (f.relabel F) (F.tag id) (decls.map F.name) (pre.map (·.relabel F)) (c.relabel F)
        (post.map (·.relabel F)) =
      (bindOperand f id decls pre c post).map (Rewriting.relabel F (Pipe.relabel F)) := by
  rw [bindOperand, bindOperand, Command.args_relabel, argRelabel_eq_map, splitFirst_map,
    Option.map_map, Option.map_map]
  simp only [Command.hoists_relabel]
  refine congrArg (Option.map · _) (funext ?_)
  rintro ⟨before, e, after⟩
  cases pre with
  | nil => exact bindArg_relabel F f id decls [] c before e after post
  | cons l more =>
    simp only [Function.comp_apply, List.map_cons, List.isEmpty_map, Command.view_relabel,
      CommandView.isPlain_relabel, CommandView.isBare_relabel, Command.head_relabel,
      Expr.node_relabel, ExprNode.isParen_relabel, ExprNode.isPathRead_relabel,
      CommandView.isMethodCall_relabel]
    split
    · exact bindArg_relabel F f id decls (l :: more) c before e after post
    · split
      · exact bindHead_relabel F f _ id decls l (c :: post)
      · split
        · exact bindHead_relabel F f _ id decls l (c :: post)
        · exact bindLeading_relabel F f _ id decls (l :: more) (c :: post)

end Pipe

theorem Pattern.rewrite?_relabel (pattern : Pattern) (p : Pipe Handle) :
    pattern.rewrite? (f.relabel F) (p.relabel F) =
      (pattern.rewrite? f p).map (Rewriting.relabel F (Pipe.relabel F)) := by
  obtain ⟨id, decls, commands⟩ := p
  rw [Pipe.relabel, commandRelabel_eq_map]
  -- Every pattern looks at shapes and names only, which relabelling keeps.
  cases pattern with
  | redundantParens =>
    match commands with
    | [.mk _ (.paren _ (.mk _ [] _)) []] | [.mk _ (.paren _ (.mk _ (_ :: _) _)) []] => rfl
    | [.mk _ (.paren _ _) (_ :: _)] => simp [rewrite?, Command.relabel, Expr.relabel, argRelabel]
    | [.mk _ (.atom _ _) _] | [] => rfl
    | _ :: _ :: _ => simp [rewrite?]
  | hoistableOperand =>
    rw [rewrite?, rewrite?, splitFirst_map, Option.bind_map, Option.map_bind]
    simp only [Command.hasHoistable_relabel]
    exact congrArg (Option.bind _) (funext fun (pre, c, post) =>
      Pipe.bindOperand_relabel F f id decls pre c post)
  | leadingMethodCall =>
    match commands with
    | [] | [_] => rfl
    | c :: d :: rest =>
      simp only [List.map_cons, rewrite?, Command.view_relabel, CommandView.isMethodCall_relabel]
      split
      · exact congrArg some (Pipe.bindLeading_relabel F f _ id decls [c] (d :: rest))
      · rfl
  | loneRead =>
    match commands with
    | [] | _ :: _ :: _ => rfl
    | [c] =>
      simp only [List.map_cons, List.map_nil, rewrite?, Command.view_relabel,
        CommandView.isMethodCall_relabel, Command.head_relabel, Expr.node_relabel,
        ExprNode.isPathRead_relabel]
      split
      · exact congrArg some (Pipe.bindLeading_relabel F f _ id decls [c] [])
      · rfl
  | printedCall =>
    simp only [rewrite?, List.any_map, Function.comp_def, Command.view_relabel,
      CommandView.isCall_relabel]
    split
    · simp [Rewriting.relabel, Match.relabel, Edit.relabel, Pipe.relabel, commandRelabel_eq_map,
        Fresh.relabel]
    · rfl
  | pipedValue =>
    match commands with
    | [] | [_] => rfl
    | v :: c :: rest =>
      simp only [List.map_cons, rewrite?, Command.view_relabel, CommandView.isCall_relabel,
        CommandView.isBare_relabel, Command.head_relabel, Expr.node_relabel,
        ExprNode.isFoldable_relabel, ExprNode.isPathRead_relabel, Command.hasHoistable_relabel]
      split
      · simp [Rewriting.relabel, Match.relabel, Edit.relabel, Pipe.relabel, commandRelabel_eq_map,
          argRelabel_eq_map, Command.relabel, Command.tag_relabel]
      · rfl
  | leadingParens =>
    match commands with
    | [] | [_] => rfl
    | c :: d :: rest =>
      simp only [List.map_cons, rewrite?, Command.head_relabel, Expr.node_relabel,
        ExprNode.isParen_relabel]
      split
      · exact congrArg some (Pipe.bindHead_relabel F f _ id decls c (d :: rest))
      · rfl
  | leadingCalls =>
    match commands with
    | [] | [_] => rfl
    | c :: d :: rest =>
      simp only [List.map_cons, rewrite?, Command.view_relabel, CommandView.isCall_relabel]
      split
      · exact congrArg some (Pipe.bindLeading_relabel F f _ id decls [c] (d :: rest))
      · rfl
  | loneCall =>
    match commands with
    | [] | _ :: _ :: _ => rfl
    | [c] =>
      simp only [List.map_cons, List.map_nil, rewrite?, Command.view_relabel,
        CommandView.isCall_relabel, CommandView.isBare_relabel]
      split
      · exact congrArg some (Pipe.bindLeading_relabel F f _ id decls [c] [])
      · rfl

theorem Role.rewrite?_relabel (role : Role) (p : Pipe Handle) :
    role.rewrite? (f.relabel F) (p.relabel F) =
      (role.rewrite? f p).map (Rewriting.relabel F (Pipe.relabel F)) := by
  simp only [rewrite?, Pattern.rewrite?_relabel]
  induction role.patterns with
  | nil => rfl
  | cons pattern patterns ih =>
    rw [List.findSome?_cons, List.findSome?_cons, ih]
    cases pattern.rewrite? f p <;> rfl

theorem Rewriting.relabel_map {α β : Type} {k : α → α} {l : β → β} {g g' : α → β}
    (h : ∀ a, l (g a) = g' (k a)) (r : Rewriting α) :
    (r.map g).relabel F l = (r.relabel F k).map g' := by
  simp only [Rewriting.map, Rewriting.relabel, h]

theorem Rewriting.map_relabel_map {α β : Type} {k : α → α} {l : β → β} {g g' : α → β}
    (h : ∀ a, l (g a) = g' (k a)) (r : Option (Rewriting α)) :
    (r.map (Rewriting.relabel F k)).map (Rewriting.map g') =
      (r.map (Rewriting.map g)).map (Rewriting.relabel F l) := by
  rw [Option.map_map, Option.map_map]
  exact congrArg (Option.map · r) (funext fun r => (r.relabel_map F h).symm)

mutual

theorem Expr.rewrite?_relabel (e : Expr Handle) :
    (e.relabel F).rewrite? (f.relabel F) =
      (e.rewrite? f).map (Rewriting.relabel F (Expr.relabel F)) := by
  cases e with
  | atom => rfl
  | paren id inner =>
    rw [Expr.relabel, Expr.rewrite?, Expr.rewrite?, inner.rewrite?_relabel]
    exact Rewriting.map_relabel_map F (fun _ => by rfl) _

theorem argRewrite?_relabel (es : List (Expr Handle)) :
    argRewrite? (f.relabel F) (argRelabel F es) =
      (argRewrite? f es).map (Rewriting.relabel F (argRelabel F)) := by
  cases es with
  | nil => rfl
  | cons e es =>
    rw [argRelabel, argRewrite?, argRewrite?, e.rewrite?_relabel]
    cases e.rewrite? f with
    | some r => exact congrArg some (r.relabel_map F fun _ => by rfl).symm
    | none =>
      rw [Option.map_none, argRewrite?_relabel es]
      exact Rewriting.map_relabel_map F (fun _ => by rfl) _

theorem Command.rewrite?_relabel (c : Command Handle) :
    (c.relabel F).rewrite? (f.relabel F) =
      (c.rewrite? f).map (Rewriting.relabel F (Command.relabel F)) := by
  obtain ⟨id, head, args⟩ := c
  rw [Command.relabel, Command.rewrite?, Command.rewrite?, head.rewrite?_relabel]
  cases head.rewrite? f with
  | some r => exact congrArg some (r.relabel_map F fun _ => by rfl).symm
  | none =>
    rw [Option.map_none, argRewrite?_relabel args]
    exact Rewriting.map_relabel_map F (fun _ => by rfl) _

theorem commandRewrite?_relabel (cs : List (Command Handle)) :
    commandRewrite? (f.relabel F) (commandRelabel F cs) =
      (commandRewrite? f cs).map (Rewriting.relabel F (commandRelabel F)) := by
  cases cs with
  | nil => rfl
  | cons c cs =>
    rw [commandRelabel, commandRewrite?, commandRewrite?, c.rewrite?_relabel]
    cases c.rewrite? f with
    | some r => exact congrArg some (r.relabel_map F fun _ => by rfl).symm
    | none =>
      rw [Option.map_none, commandRewrite?_relabel cs]
      exact Rewriting.map_relabel_map F (fun _ => by rfl) _

theorem Pipe.rewrite?_relabel (role : Role) (p : Pipe Handle) :
    (p.relabel F).rewrite? (f.relabel F) role =
      (p.rewrite? f role).map (Rewriting.relabel F (Pipe.relabel F)) := by
  obtain ⟨id, decls, commands⟩ := p
  have hrole := role.rewrite?_relabel F f (.mk id decls commands)
  rw [Pipe.relabel] at hrole ⊢
  rw [Pipe.rewrite?, Pipe.rewrite?, hrole]
  cases role.rewrite? f (.mk id decls commands) with
  | some r => rfl
  | none =>
    rw [Option.map_none, commandRewrite?_relabel commands]
    exact Rewriting.map_relabel_map F (fun _ => by rfl) _

end

theorem Pipe.actionRole_relabel (p : Pipe Handle) : (p.relabel F).actionRole = p.actionRole := by
  obtain ⟨id, decls, commands⟩ := p
  simp [Pipe.relabel, actionRole]

theorem Edit.relabel_eq_splitPrint {e : Edit} : e.relabel F = .splitPrint ↔ e = .splitPrint := by
  cases e <;> simp [relabel]

theorem Rewriting.around_relabel (host : StmtId) (r : Rewriting (Stmt Handle)) :
    (r.relabel F (Stmt.relabel F)).around (f.relabel F) (F.tag host) =
      (r.around f host).relabel F := by
  obtain ⟨⟨rule, edit⟩, ahead, rest, taken⟩ := r
  simp only [Rewriting.around, Rewriting.relabel, BlockRewriting.relabel, Plan.relabel,
    Match.relabel, Edit.relabel_eq_splitPrint, blockRelabel_eq_map, List.map_append, List.map_cons,
    BlockRewriting.mk.injEq, true_and, and_true]
  refine congr (congrArg _ ?_) (congrArg _ ?_)
  · cases ahead <;> rfl
  · split <;> rfl

theorem Rewriting.map_around_relabel {α : Type} {k : α → α} {g g' : α → Stmt Handle}
    (h : ∀ a, (g a).relabel F = g' (k a)) (host : StmtId) (r : Option (Rewriting α)) :
    ((r.map (Rewriting.relabel F k)).map fun r => (r.map g').around (f.relabel F) (F.tag host)) =
      (r.map fun r => (r.map g).around f host).map (BlockRewriting.relabel F) := by
  rw [Option.map_map, Option.map_map]
  refine congrArg (Option.map · r) (funext fun r => ?_)
  rw [Function.comp_apply, Function.comp_apply, ← r.relabel_map F h, around_relabel]

theorem Stmt.rewriteOwn?_relabel (s : Stmt Handle) :
    (s.relabel F).rewriteOwn? (f.relabel F) = (s.rewriteOwn? f).map (BlockRewriting.relabel F) := by
  cases s with
  | text => rfl
  | action id p =>
    rw [Stmt.relabel, rewriteOwn?, rewriteOwn?, p.actionRole_relabel, p.rewrite?_relabel]
    exact Rewriting.map_around_relabel F f (fun _ => by rfl) id _
  | branch id _ p _ _ =>
    rw [Stmt.relabel, rewriteOwn?, rewriteOwn?, p.rewrite?_relabel]
    exact Rewriting.map_around_relabel F f (fun _ => by rfl) id _
  | invoke id _ pipe? =>
    cases pipe? with
    | none => rfl
    | some p =>
      rw [Stmt.relabel, rewriteOwn?, rewriteOwn?, p.rewrite?_relabel]
      exact Rewriting.map_around_relabel F f (fun _ => by rfl) id _

mutual

theorem Stmt.rewrite?_relabel (s : Stmt Handle) :
    (s.relabel F).rewrite? (f.relabel F) = (s.rewrite? f).map (BlockRewriting.relabel F) := by
  match s with
  | .text .. | .invoke _ _ none => rfl
  | .action id p => exact Stmt.rewriteOwn?_relabel F f (.action id p)
  | .invoke id name (some p) => exact Stmt.rewriteOwn?_relabel F f (.invoke id name (some p))
  | .branch id kind p body elseBody =>
    have hown := Stmt.rewriteOwn?_relabel F f (.branch id kind p body elseBody)
    rw [Stmt.relabel] at hown ⊢
    rw [Stmt.rewrite?, Stmt.rewrite?, hown, blockRewrite?_relabel body,
      blockRewrite?_relabel elseBody]
    cases (Stmt.branch id kind p body elseBody).rewriteOwn? f with
    | some r => rfl
    | none =>
      cases blockRewrite? f body with
      | some r => rfl
      | none => cases blockRewrite? f elseBody <;> rfl

theorem blockRewrite?_relabel (b : Block Handle) :
    blockRewrite? (f.relabel F) (blockRelabel F b) =
      (blockRewrite? f b).map (BlockRewriting.relabel F) := by
  cases b with
  | nil => rfl
  | cons s b =>
    rw [blockRelabel, blockRewrite?, blockRewrite?, s.rewrite?_relabel, blockRewrite?_relabel b]
    cases s.rewrite? f with
    | some r =>
      simp only [Option.map_some, BlockRewriting.relabel, blockRelabel_eq_map, List.map_append]
    | none => cases blockRewrite? f b <;> rfl

end

variable {f₁ f₂ : Fresh} {b₁ b₂ : Block Handle}

theorem blockRewrite?_congr {F G : Relabelling Handle Handle}
    (hf : f₁.relabel F = f₂.relabel G) (hb : blockRelabel F b₁ = blockRelabel G b₂) :
    (blockRewrite? f₁ b₁).map (BlockRewriting.relabel F) =
      (blockRewrite? f₂ b₂).map (BlockRewriting.relabel G) := by
  rw [← blockRewrite?_relabel, ← blockRewrite?_relabel, hf, hb]

theorem blockRewrite?_relabel_eq_none {b : Block Handle} :
    blockRewrite? f₂ (blockRelabel F b) = none ↔ blockRewrite? f₁ b = none := by
  let K : Relabelling Handle Handle := ⟨fun _ => ⟨0⟩, fun _ => ""⟩
  have hK : blockRelabel K (blockRelabel F b) = blockRelabel K b := blockRelabel_relabel F K b
  have hcongr : (blockRewrite? f₂ (blockRelabel F b)).map (BlockRewriting.relabel K) =
      (blockRewrite? f₁ b).map (BlockRewriting.relabel K) := blockRewrite?_congr rfl hK
  rw [← Option.map_eq_none_iff, hcongr, Option.map_eq_none_iff]

theorem blockRewrite?_eq_none_of_fresh {b : Block Handle} (h : blockRewrite? f₁ b = none)
    (f₂ : Fresh) : blockRewrite? f₂ b = none := by
  have hid : blockRewrite? f₂ (blockRelabel (.ofNames id) b) = none :=
    (blockRewrite?_relabel_eq_none _).mpr h
  rwa [blockRelabel_ofNames, blockRename_id] at hid

end FlatTemplate

import FlatTemplate.Proofs.Template.Runs
import FlatTemplate.Proofs.Termination.Weight

namespace FlatTemplate

theorem Pipe.hostWeight_of_not_settled {role : Role} {p : Pipe Handle} (h : p.isSettled = false) :
    p.hostWeight role = p.weight + if role.uses then 1 else 0 := by
  simp [Pipe.hostWeight, h]

theorem Pipe.hostWeight_le_add (role : Role) (p : Pipe Handle) :
    p.hostWeight role ≤ p.weight + if role.uses then 1 else 0 := by
  unfold Pipe.hostWeight
  cases role.uses <;> cases p.isSettled <;> simp

section Fresh

variable (f : Fresh)

theorem weight_read : f.read.weight = 0 := rfl

theorem Expr.weight_stub (e : Expr Handle) : (e.stub f).weight = 0 := by
  obtain ⟨name, _, hstub, -⟩ := e.exists_stub_eq f
  rw [hstub]
  rfl

theorem Expr.isCall_stub (e : Expr Handle) (c : CommandId) (args : List (Expr Handle)) :
    (Command.mk c (e.stub f) args).isCall = false := by
  obtain ⟨name, _, hstub, -⟩ := e.exists_stub_eq f
  rw [hstub]
  rfl

theorem Expr.weight_bound (e : Expr Handle) :
    (e.bound f).weight + (if e.node.isParen then 1 else 0) ≤ e.weight := by
  match e with
  | .atom _ _ =>
    simp [Expr.bound, Pipe.weight, barWeight, commandWeight, Command.weight, Expr.weight, argWeight,
      Command.pathArgs, Expr.node, ExprNode.isParen]
  | .paren _ (.mk _ [] _) | .paren _ (.mk _ (_ :: _) _) =>
    simp only [Expr.bound, Pipe.weight, Expr.weight, Expr.node, ExprNode.isParen, if_true]
    omega

end Fresh

def Rewriting.aheadWeight {α : Type} (r : Rewriting α) : Nat :=
  match r.ahead with
  | none => 0
  | some p => p.weight

theorem barWeight_cons_cons (c d : Command Handle) (rest : List (Command Handle)) :
    barWeight (c :: d :: rest) = c.leadWeight + 2 * rest.length := rfl

theorem barWeight_append {pre rest : List (Command Handle)} (hpre : pre ≠ []) (hrest : rest ≠ [])
    (hlead : ∀ c, pre = [c] → c.leadWeight = 2) :
    barWeight (pre ++ rest) = barWeight pre + 2 + 2 * (rest.length - 1) := by
  match pre, rest with
  | [c], d :: rest => simp [barWeight, hlead c rfl]
  | c :: d :: pre, e :: rest =>
    simp only [List.cons_append, barWeight, List.length_append, List.length_cons]
    omega

theorem leadWeight_of_leads {pattern : Pattern} {c : Command Handle} {rest : List (Command Handle)}
    (h : Leads pattern [c] rest) (hrest : rest ≠ []) (hsound : c.head.node ≠ .atom (.var [])) :
    c.leadWeight = 2 := by
  have hlight (hlight : c.view.isBare = true → c.isCall = true ∨ c.head.node.isPathRead = true) :
      c.leadWeight = 2 := by
    unfold Command.leadWeight
    cases hb : c.view.isBare with
    | false => rfl
    | true => rcases hlight hb with hc | hp <;> simp [*]
  cases h with
  | operand hne hpre hc hlone =>
    obtain ⟨hplain, hbare⟩ := hlone c rfl
    refine hlight fun hb => ?_
    obtain ⟨id, head, args⟩ := c
    simp only [CommandView.isPlain, Command.isBareOperand, hb, Bool.true_and, Command.view_head,
      Command.head_mk] at hplain hbare hsound
    cases head with
    | paren => simp [Expr.node, ExprNode.isParen] at hbare
    | atom _ a =>
      cases a with
      | var path =>
        rcases path with _ | ⟨name, _ | ⟨field, path⟩⟩
        · exact absurd rfl hsound
        · simp [Expr.node, ExprNode.isPlain] at hplain
        · simp [Expr.node, ExprNode.isPathRead, Atom.isPathRead] at hbare
      | field => simp [Expr.node, ExprNode.isPathRead, Atom.isPathRead] at hbare
      | dot | str | number | bool => simp [Expr.node, ExprNode.isPlain] at hplain
      | identifier => exact .inl rfl
  | methodCall hc =>
    refine hlight fun hb => ?_
    rw [CommandView.isBare_of_isMethodCall hc] at hb
    cases hb
  | loneRead | loneCall => exact absurd rfl hrest
  | calls hc => exact hlight fun _ => .inl hc

theorem not_settled_of_leads {pattern : Pattern} {id : PipeId} {decls : List String}
    {pre rest : List (Command Handle)} (h : Leads pattern pre rest) :
    (Pipe.mk id decls (pre ++ rest)).isSettled = false := by
  cases h with
  | @operand pre c post hne => cases pre with
    | nil => exact absurd rfl hne
    | cons d pre => cases pre <;> rfl
  | methodCall | calls => rfl
  | @loneRead c hc =>
    simp only [Pipe.isSettled, List.append_nil, Pipe.commands_mk, CommandView.isPlain]
    rcases Bool.or_eq_true_iff.mp hc with hpath | hmethod
    · rw [Command.view_head, ExprNode.isPlain_of_isPathRead hpath, Bool.and_false]
    · rw [CommandView.isBare_of_isMethodCall hmethod, Bool.false_and]
  | @loneCall c hc hargs =>
    simp only [Pipe.isSettled, List.append_nil, Pipe.commands_mk, CommandView.isPlain, hargs,
      Bool.false_and]

theorem leadWeight_le (c : Command Handle) : c.leadWeight ≤ 2 := by
  unfold Command.leadWeight
  split <;> omega

theorem leadWeight_of_args {c : Command Handle} (h : c.args ≠ []) : c.leadWeight = 2 := by
  have hbare : c.view.isBare = false := by
    rw [Command.isBare_view, List.isEmpty_eq_false_iff]
    exact h
  simp [Command.leadWeight, hbare]

theorem pathArgs_of_call {c : Command Handle} (h : c.isCall) :
    c.pathArgs = c.args.countP (·.node.isPathRead) := by
  rw [Command.pathArgs, if_pos h]

theorem pathArgs_of_not_call {c : Command Handle} (h : c.isCall = false) : c.pathArgs = 0 := by
  rw [Command.pathArgs, if_neg (by simp [h])]

theorem barWeight_cons_le (c : Command Handle) (rest : List (Command Handle)) :
    barWeight (c :: rest) ≤ 2 * rest.length := by
  cases rest with
  | nil => simp [barWeight]
  | cons d rest =>
    have := leadWeight_le c
    simp only [barWeight, List.length_cons]
    omega

theorem barWeight_replace {c d : Command Handle} (h : d.leadWeight = c.leadWeight)
    (pre post : List (Command Handle)) :
    barWeight (pre ++ d :: post) = barWeight (pre ++ c :: post) := by
  match pre, post with
  | [], [] => rfl
  | [], e :: post => simp [barWeight, h]
  | [l], _ => simp [barWeight]
  | l :: l' :: pre, _ => simp [barWeight]

section Changes

variable {f : Fresh} {role : Role} (id : PipeId) (decls : List String)

theorem weight_fold_lt (v c : CommandId) {value head : Expr Handle} {args : List (Expr Handle)}
    (rest : List (Command Handle)) (hcall : (Command.mk c head args).isCall)
    (hfold : value.node.isFoldable) :
    (Pipe.mk id decls (.mk c head (args ++ [value]) :: rest)).hostWeight role <
      (Pipe.mk id decls (.mk v value [] :: .mk c head args :: rest)).hostWeight role := by
  have hrest := Pipe.hostWeight_le_add role (.mk id decls (.mk c head (args ++ [value]) :: rest))
  have hbar := barWeight_cons_le (.mk c head (args ++ [value])) rest
  have hcall' : (Command.mk c head (args ++ [value])).isCall = true := by
    rw [← hcall, Command.isCall_mk, Command.isCall_mk]
  -- A path read in front counts two, of which one is left when it is an argument.
  have hlead : (if value.node.isPathRead then 1 else 0) + 1 = (Command.mk v value []).leadWeight ∧
      value.weight = 0 := by
    match value with
    | .atom _ (.var _) | .atom _ (.field _) | .atom _ .dot | .atom _ (.str _)
    | .atom _ (.number _) =>
      refine ⟨?_, rfl⟩
      simp only [Command.leadWeight, Command.isBare_view, Command.isCall, Command.head_mk,
        Command.args_mk, List.isEmpty_nil]
      split <;> simp_all
    | .atom _ (.identifier _) | .atom _ (.bool _) | .paren _ _ =>
      simp [Expr.node, ExprNode.isFoldable] at hfold
  have hargs := pathArgs_of_call hcall
  have hargs' := pathArgs_of_call hcall'
  rw [Pipe.hostWeight_of_not_settled (p := .mk id decls (_ :: _ :: _)) rfl]
  simp only [Command.args_mk, List.countP_append, List.countP_cons, List.countP_nil] at hargs hargs'
  simp only [Pipe.weight, barWeight_cons_cons, commandWeight, Command.weight, argWeight_append,
    argWeight] at hrest ⊢
  have hv : (Command.mk v value []).pathArgs = 0 := by simp [Command.pathArgs]
  omega

theorem weight_lead_lt (rule : Rule) {pattern : Pattern} {pre rest : List (Command Handle)}
    (why : Leads pattern pre rest) (hrole : pattern ∈ role.patterns)
    (hsound : ∀ c ∈ pre, c.head.node ≠ .atom (.var [])) :
    (Pipe.bindLeading f rule id decls pre rest).aheadWeight +
        (Pipe.bindLeading f rule id decls pre rest).rest.hostWeight role <
      (Pipe.mk id decls (pre ++ rest)).hostWeight role := by
  rw [Pipe.hostWeight_of_not_settled (not_settled_of_leads why)]
  by_cases hrest : rest = []
  · subst hrest
    -- Nothing is left but the temporary, which settles the pipeline.
    have huses : role.uses = true := by
      cases why <;> cases role <;> simp [Role.patterns, Role.uses] at hrole ⊢
    simp [Rewriting.aheadWeight, Pipe.bindLeading, Pipe.hostWeight, Pipe.isSettled, Pipe.weight,
      barWeight, commandWeight, huses, Fresh.read, Command.view, CommandView.isPlain,
      CommandView.isBare, ExprNode.isPlain, Fresh.reading, Expr.node]
    rfl
  · have hle := Pipe.hostWeight_le_add role (.mk id decls (f.read :: rest))
    have hbar := barWeight_append why.ne_nil hrest (by
      rintro c rfl
      exact leadWeight_of_leads why hrest (hsound c (List.mem_singleton_self c)))
    have hread : barWeight (f.read :: rest) = 1 + 2 * (rest.length - 1) := by
      cases rest with
      | nil => exact absurd rfl hrest
      | cons d rest => rfl
    simp only [Rewriting.aheadWeight, Pipe.bindLeading, Pipe.weight, commandWeight_append,
      commandWeight, weight_read] at hle ⊢
    omega

theorem weight_head_lt (rule : Rule) {pattern : Pattern} {c : Command Handle}
    {rest : List (Command Handle)} (why : LeadsHead pattern c rest) :
    (Pipe.bindHead f rule id decls c rest).aheadWeight +
        (Pipe.bindHead f rule id decls c rest).rest.hostWeight role <
      (Pipe.mk id decls (c :: rest)).hostWeight role := by
  obtain ⟨tag, head, args⟩ := c
  have hstub : (Command.mk tag (head.stub f) args).leadWeight =
      if args.isEmpty then 1 else 2 := by
    simp [Command.leadWeight, Expr.isCall_stub, Expr.isPathRead_stub, Command.isBare_view]
  have hbound := head.weight_bound f
  have hlead : (Command.mk tag (head.stub f) args).leadWeight + (head.bound f).weight +
      (Command.mk tag head args).pathArgs <
      (Command.mk tag head args).leadWeight + head.weight +
      (Command.mk tag head args).pathArgs := by
    by_cases hparen : head.node.isParen
    · have hsame : (Command.mk tag head args).leadWeight = if args.isEmpty then 1 else 2 := by
        cases head with
        | atom => cases hparen
        | paren => simp [Command.leadWeight, Command.isCall, Expr.node, ExprNode.isPathRead,
            Command.isBare_view]
      rw [if_pos hparen] at hbound
      omega
    · -- A path read without arguments counts two in front, the temporary one.
      rw [if_neg hparen] at hbound
      cases why with
      | parens hc => exact absurd hc hparen
      | operand hc hd hplain hbare =>
        simp only [Command.isBareOperand, Command.isBare_view, Command.args_mk, Command.head_mk,
          Bool.and_eq_true, hparen, Bool.false_or] at hbare
        have htwo : (Command.mk tag head args).leadWeight = 2 := by
          simp [Command.leadWeight, hbare.2]
        rw [hstub, if_pos hbare.1, htwo]
        omega
  have hargs : (Command.mk tag (head.stub f) args).pathArgs = 0 :=
    pathArgs_of_not_call (Expr.isCall_stub f head tag args)
  obtain ⟨d, rest, rfl⟩ : ∃ d rest', rest = d :: rest' := by cases why <;> exact ⟨_, _, rfl⟩
  have hle := Pipe.hostWeight_le_add role
    (.mk id decls (.mk tag (head.stub f) args :: d :: rest))
  rw [Pipe.hostWeight_of_not_settled (p := .mk id decls (_ :: _ :: _)) rfl]
  simp only [Rewriting.aheadWeight, Pipe.bindHead, Pipe.weight, barWeight, commandWeight,
    Command.weight, hargs, Expr.weight_stub, Command.tag_mk, Command.head_mk, Command.args_mk]
    at hle ⊢
  omega

theorem weight_arg_lt {c : CommandId} {head e : Expr Handle} {before after : List (Expr Handle)}
    (pre post : List (Command Handle))
    (he : (Command.mk c head (before ++ e :: after)).hoists e) :
    (Pipe.bindArg f id decls pre (.mk c head (before ++ e :: after)) before e after
          post).aheadWeight +
        (Pipe.bindArg f id decls pre (.mk c head (before ++ e :: after)) before e after
          post).rest.hostWeight role <
      (Pipe.mk id decls (pre ++ .mk c head (before ++ e :: after) :: post)).hostWeight role := by
  have hle := Pipe.hostWeight_le_add role
    (.mk id decls (pre ++ .mk c head (before ++ e.stub f :: after) :: post))
  have hbar : barWeight (pre ++ .mk c head (before ++ e.stub f :: after) :: post) =
      barWeight (pre ++ .mk c head (before ++ e :: after) :: post) := by
    refine barWeight_replace ?_ pre post
    rw [leadWeight_of_args (by simp), leadWeight_of_args (by simp)]
  have hsettled :
      (Pipe.mk id decls (pre ++ .mk c head (before ++ e :: after) :: post)).isSettled = false := by
    match pre with
    | [] => cases post <;> simp [Pipe.isSettled, CommandView.isPlain, Command.isBare_view]
    | [_] | _ :: _ :: _ => simp [Pipe.isSettled]
  have hbound := e.weight_bound f
  have hcall : (Command.mk c head (before ++ e.stub f :: after)).isCall =
      (Command.mk c head (before ++ e :: after)).isCall := by
    rw [Command.isCall_mk, Command.isCall_mk]
  -- Either a pipeline in parentheses is gone, or a path read that the call takes.
  have hpath : (e.bound f).weight + (Command.mk c head (before ++ e.stub f :: after)).pathArgs <
      e.weight + (Command.mk c head (before ++ e :: after)).pathArgs := by
    unfold Command.hoists CommandView.hoists at he
    unfold Command.pathArgs
    simp only [hcall, Command.isCall_view, Command.args_mk, List.countP_append, List.countP_cons,
      Expr.isPathRead_stub] at he ⊢
    grind
  rw [Pipe.hostWeight_of_not_settled hsettled]
  simp only [Rewriting.aheadWeight, Pipe.bindArg, Pipe.weight, commandWeight_append, commandWeight,
    Command.weight, argWeight_append, argWeight, Expr.weight_stub, hbar, Command.tag_mk,
    Command.head_mk] at hle ⊢
  omega

end Changes

theorem head_node_ne {cs : List (Command Handle)} (hsound : ∀ e ∈ commandEntries cs, e.Sound) :
    ∀ c ∈ cs, c.head.node ≠ .atom (.var []) := by
  intro c hc hnode
  obtain ⟨id, head, args⟩ := c
  match head with
  | .atom x a =>
    obtain rfl : a = .var [] := by simpa [Expr.node] using hnode
    exact hsound (.expr x (.atom (.var []))) (mem_commandEntries.mpr ⟨_, hc, by
      simp [Command.entries, Expr.entries]⟩) rfl
  | .paren _ _ => cases hnode

theorem Pipe.Change.weight_lt {f : Fresh} {role : Role} {pattern : Pattern} {p : Pipe Handle}
    {r : Rewriting (Pipe Handle)} (h : Pipe.Change f pattern p r) (hrole : pattern ∈ role.patterns)
    (hsound : ∀ e ∈ p.entries, e.Sound) :
    r.aheadWeight + r.rest.hostWeight (if r.found.edit = .splitPrint then .assign else role) <
      p.hostWeight role := by
  cases h with
  | unwrap id decls c x inner commands =>
    have hrest := Pipe.hostWeight_le_add role (.mk id decls commands)
    rw [Pipe.hostWeight_of_not_settled (p := .mk id decls [_]) (by simp [Pipe.isSettled,
      CommandView.isPlain, ExprNode.isPlain, Expr.node])]
    simp [Rewriting.aheadWeight, Pipe.weight, barWeight, commandWeight, Command.weight, Expr.weight,
      argWeight, Command.pathArgs] at hrest ⊢
    omega
  | fold id decls v value c head args rest hcall hfold hwait =>
    simpa [Rewriting.aheadWeight] using weight_fold_lt id decls v c rest hcall hfold
  | leading _ rule id decls pre rest why =>
    have hpre : ∀ c ∈ pre, c.head.node ≠ .atom (.var []) :=
      head_node_ne fun e he => hsound e (by simp [Pipe.entries, he])
    simpa [Pipe.bindLeading] using weight_lead_lt id decls rule why hrole hpre
  | head _ rule id decls c rest why =>
    simpa [Pipe.bindHead] using weight_head_lt id decls rule why
  | arg id decls pre c head before e after post hpre hbefore he =>
    simpa [Pipe.bindArg] using weight_arg_lt id decls pre post he
  | split id decls commands hcall =>
    have hprint : role = .print := by
      cases role <;> simp [Role.patterns] at hrole ⊢
    have hsettled : (Pipe.mk id decls commands).isSettled = false := by
      rcases commands with _ | ⟨c, _ | ⟨d, rest⟩⟩
      · rfl
      · obtain ⟨x, head, args⟩ := c
        cases head with
        | paren => simp [Command.isCall] at hcall
        | atom _ a =>
          cases a with
          | identifier =>
            simp [Pipe.isSettled, CommandView.isPlain, ExprNode.isPlain, Expr.node]
          | var | field | dot | str | number | bool => simp [Command.isCall] at hcall
      · rfl
    subst hprint
    rw [Pipe.hostWeight_of_not_settled hsettled]
    simp [Rewriting.aheadWeight, Pipe.hostWeight, Role.uses, Pipe.weight]

theorem Pipe.hostWeight_eq_weight {role : Role} (p : Pipe Handle) (h : role.uses = false) :
    p.hostWeight role = p.weight := by
  simp [Pipe.hostWeight, h]

theorem not_settled_of_arg {id : PipeId} {decls : List String} {pre post : List (Command Handle)}
    {c : Command Handle} (h : c.view.isPlain = false) :
    (Pipe.mk id decls (pre ++ c :: post)).isSettled = false := by
  match pre, post with
  | [], [] => exact h
  | [], _ :: _ | [_], _ | _ :: _ :: _, _ => rfl

theorem weight_nested_lt {role role' : Role} {id : PipeId} {decls : List String}
    {pre post : List (Command Handle)} {c d : Command Handle} {n : Nat}
    (hplain : c.view.isPlain = false) (hlead : d.leadWeight = c.leadWeight)
    (hlt : n + d.weight < c.weight) (hrole : role' = .assign ∨ role' = role) :
    n + (Pipe.mk id decls (pre ++ d :: post)).hostWeight role' <
      (Pipe.mk id decls (pre ++ c :: post)).hostWeight role := by
  have hbar := barWeight_replace hlead pre post
  have hle := Pipe.hostWeight_le_add role' (.mk id decls (pre ++ d :: post))
  have huses : (if role'.uses then 1 else 0) ≤ if role.uses then 1 else 0 := by
    rcases hrole with rfl | rfl <;> simp [Role.uses]
  rw [Pipe.hostWeight_of_not_settled (not_settled_of_arg hplain)]
  simp only [Pipe.weight, commandWeight_append, commandWeight, hbar] at hle ⊢
  omega

theorem Pipe.Rewrites.weight_lt {f : Fresh} {role : Role} {p : Pipe Handle}
    {r : Rewriting (Pipe Handle)} (h : Pipe.Rewrites f role p r)
    (hsound : ∀ e ∈ p.entries, e.Sound) :
    r.aheadWeight + r.rest.hostWeight (if r.found.edit = .splitPrint then .assign else role) <
      p.hostWeight role := by
  induction h with
  | here h =>
    obtain ⟨before, pattern, after, hrole, hchange, -⟩ := Role.rewrite?_eq_some h
    exact hchange.weight_lt (by simp [hrole]) hsound
  | @head role id decls pre c x inner args post r hown hpre h ih =>
    have hinner := ih fun e he => hsound e (by
      simp [Pipe.entries, commandEntries, Command.entries, Expr.entries, he])
    rw [Pipe.hostWeight_eq_weight _ (by split <;> rfl), Pipe.hostWeight_eq_weight _ rfl] at hinner
    refine weight_nested_lt (by simp [CommandView.isPlain, ExprNode.isPlain, Expr.node]) rfl ?_
      (by split <;> simp)
    simp only [Rewriting.aheadWeight, Rewriting.map, Command.weight, Expr.weight, Command.pathArgs,
      Command.isCall] at hinner ⊢
    simp only [Bool.false_eq_true, if_false] at hinner ⊢
    omega
  | @arg role id decls pre c head before x inner after post r hown hpre hhead hbefore h ih =>
    have hinner := ih fun e he => hsound e (by
      simp [Pipe.entries, commandEntries, Command.entries, Expr.entries, argEntries, he])
    rw [Pipe.hostWeight_eq_weight _ (by split <;> rfl), Pipe.hostWeight_eq_weight _ rfl] at hinner
    refine weight_nested_lt (by simp [CommandView.isPlain, Command.isBare_view]) ?_ ?_
      (by split <;> simp)
    · rw [leadWeight_of_args (by simp), leadWeight_of_args (by simp)]
    · have hcall : (Command.mk c head (before ++ .paren x r.rest :: after)).pathArgs =
          (Command.mk c head (before ++ .paren x inner :: after)).pathArgs := by
        simp [Command.pathArgs, Command.isCall_mk, Expr.node, ExprNode.isPathRead]
      simp only [Rewriting.aheadWeight, Rewriting.map, Command.weight, Expr.weight, hcall,
        argWeight_append, argWeight] at hinner ⊢
      omega

theorem Stmt.weight_lt {f : Fresh} {s : Stmt Handle} {r : BlockRewriting}
    (h : s.rewriteOwn? f = some r) (hsound : ∀ e ∈ s.entries, e.Sound) :
    blockWeight r.block < s.weight := by
  obtain ⟨p, q, hp, hrewrites, -, hblock⟩ := Stmt.rewriteOwn?_eq_some h
  have hlt := hrewrites.weight_lt (by
    match s with
    | .action .. | .branch .. | .invoke _ _ (some _) =>
      obtain rfl := Option.some.inj hp
      exact fun e he => hsound e (by simp [Stmt.entries, he]))
  have hahead : blockWeight (q.ahead.map (.action f.stmt)).toList = q.aheadWeight := by
    cases ha : q.ahead with
    | none => simp [Rewriting.aheadWeight, ha, blockWeight]
    | some a =>
      have hrole : a.actionRole = .assign := by
        simp [Pipe.actionRole, hrewrites.ahead_declares ha]
      simp [Rewriting.aheadWeight, ha, blockWeight, Stmt.weight, hrole,
        show a.hostWeight .assign = a.weight from Pipe.hostWeight_eq_weight a rfl]
  have hprint : blockWeight (if q.found.edit = .splitPrint then [f.print] else []) = 0 := by
    split <;> rfl
  have hrest : (s.govern q.rest).weight + p.hostWeight s.role =
      s.weight + q.rest.hostWeight (if q.found.edit = .splitPrint then .assign else s.role) := by
    have hdecls := hrewrites.rest_decls
    match s with
    | .action id p =>
      obtain rfl := Option.some.inj hp
      simp only [Stmt.govern, Stmt.weight, Stmt.role]
      split at hdecls
      · simp [*, Pipe.actionRole, Nat.add_comm]
      · simp [*, Pipe.actionRole, Nat.add_comm]
    | .branch .. | .invoke _ _ (some _) =>
      obtain rfl := Option.some.inj hp
      have hedit := hrewrites.edit_ne_split (by simp [Stmt.role])
      simp only [Stmt.govern, Stmt.weight, Stmt.role, if_neg hedit]
      omega
  rw [hblock, blockWeight_append, blockWeight, hahead, hprint]
  omega

theorem BlockContext.exists_weight (C : BlockContext) :
    ∃ w, ∀ b, blockWeight (C.plug b) = w + blockWeight b := by
  induction C with
  | hole => exact ⟨0, fun b => by simp [plug]⟩
  | inBody pre id kind pipe inner elseBody post ih =>
    obtain ⟨w, hw⟩ := ih
    refine ⟨blockWeight pre + pipe.hostWeight .subject + w + blockWeight elseBody +
      blockWeight post, fun b => ?_⟩
    simp only [plug, blockWeight_append, blockWeight, Stmt.weight, hw]
    omega
  | inElse pre id kind pipe body inner post ih =>
    obtain ⟨w, hw⟩ := ih
    refine ⟨blockWeight pre + pipe.hostWeight .subject + blockWeight body + w +
      blockWeight post, fun b => ?_⟩
    simp only [plug, blockWeight_append, blockWeight, Stmt.weight, hw]
    omega

theorem BlockContext.mem_entries_plug (C : BlockContext) {b : Block Handle} {e : Entry}
    (h : e ∈ blockEntries b) : e ∈ blockEntries (C.plug b) := by
  induction C with
  | hole => exact h
  | inBody pre id kind pipe inner elseBody post ih =>
    simp [plug, blockEntries, Stmt.entries, ih]
  | inElse pre id kind pipe body inner post ih =>
    simp [plug, blockEntries, Stmt.entries, ih]

namespace Draft

variable {stem : String} {n : Nat} {d d' : Draft} {r : BlockRewriting}

theorem Next.weight_lt (h : Next stem d d' r) : blockWeight d'.block < blockWeight d.block := by
  have hsound := h.valid.sound
  obtain ⟨C, pre, s, post, own, hown, hblock, hr⟩ := blockRewrite?_eq_some h.rewrite
  rw [hblock] at hsound
  have hlt := Stmt.weight_lt hown fun e he =>
    hsound e (C.mem_entries_plug (by simp [blockEntries, he]))
  obtain ⟨w, hw⟩ := C.exists_weight
  rw [h.block, hblock, hr, hw, hw]
  simp only [blockWeight_append, blockWeight]
  omega

theorem Run.length_le (h : Run stem n d d') : n + blockWeight d'.block ≤ blockWeight d.block := by
  induction h with
  | refl => omega
  | step hnext _ ih =>
    have := hnext.weight_lt
    omega

end Draft

end FlatTemplate

import FlatTemplate.Proofs.Template.Forms

namespace FlatTemplate

namespace Command

variable {c : Command Handle}

theorem isParen_of_isAction (h : c.isAction) : c.head.node.isParen = false := by
  rw [isAction, form, Form.isAction] at h
  cases hnode : c.head.node with
  | atom a => rfl
  | paren inner => simp [hnode, ExprNode.isIdentifier, ExprNode.isPathRead] at h

theorem isMethodCall_of_isAction (h : c.isAction) (hargs : c.args ≠ []) (hcall : ¬c.isCall) :
    c.view.isMethodCall := by
  obtain ⟨id, head, args⟩ := c
  rw [isCall_mk, Bool.not_eq_true] at hcall
  have hempty : (args.map Expr.tag).isEmpty = false := by
    simpa only [List.isEmpty_map, List.isEmpty_eq_false_iff, args_mk] using hargs
  rw [isAction, form_mk, Form.isAction, hcall, Bool.false_or] at h
  rwa [CommandView.isMethodCall, view_args, args_mk, hempty, view_head, head_mk, Bool.not_false,
    Bool.true_and]

theorem hoists_method (h : c.view.isMethodCall) (hcall : ¬c.isCall) (e : Expr Handle) :
    c.hoists e = e.node.isParen := by
  rw [hoists, CommandView.hoists, isCall_view, if_neg hcall, h, Bool.true_and]

theorem hoists_call (hcall : c.isCall) (e : Expr Handle) :
    c.hoists e = (e.node.isParen || e.node.isPathRead) := by
  rw [hoists, CommandView.hoists, isCall_view, if_pos hcall]

theorem hoists_of_isAction (hc : c.isAction) (hargs : c.args ≠ []) {e : Expr Handle}
    (he : e.node.isParen) : c.hoists e := by
  by_cases hcall : c.isCall
  · rw [hoists_call hcall, he, Bool.true_or]
  · rw [hoists_method (isMethodCall_of_isAction hc hargs hcall) hcall, he]

end Command

variable {f : Fresh}

theorem Role.rewrite?_eq_none {role : Role} {p : Pipe Handle} (h : role.rewrite? f p = none)
    (pattern : Pattern) (hmem : pattern ∈ role.patterns) : pattern.rewrite? f p = none :=
  List.findSome?_eq_none_iff.mp h pattern hmem

theorem Pattern.hasHoistable_eq_false {id : PipeId} {decls : List String}
    {commands : List (Command Handle)}
    (h : hoistableOperand.rewrite? f (.mk id decls commands) = none) :
    ∀ c ∈ commands, c.hasHoistable = false := by
  rw [rewrite?, Option.bind_eq_none_iff] at h
  cases hsplit : splitFirst Command.hasHoistable commands with
  | none => exact splitFirst_eq_none.mp hsplit
  | some split =>
    obtain ⟨pre, c, post⟩ := split
    obtain ⟨-, hc, -⟩ := splitFirst_eq_some hsplit
    have hnone : Pipe.bindOperand f id decls pre c post = none := h _ hsplit
    rw [Pipe.bindOperand, Option.map_eq_none_iff, splitFirst_eq_none] at hnone
    obtain ⟨e, he, hhoists⟩ := List.any_eq_true.mp hc
    exact absurd hhoists (by rw [hnone e he]; exact Bool.false_ne_true)

/-- Where nothing else is rewritten, a pipeline in parentheses is all there is. -/
theorem Role.eq_lone_of_paren {role : Role} {p : Pipe Handle} (h : role.rewrite? f p = none)
    (hacting : p.Acting) {c : Command Handle} (hc : c ∈ p.commands) {e : Expr Handle}
    (he : e ∈ c.operands) (hparen : e.node.isParen) : p.commands = [.mk c.tag e []] := by
  obtain ⟨id, decls, commands⟩ := p
  have hactions := (Pipe.formed_mk.mp hacting).1
  have hhoistable := Pattern.hasHoistable_eq_false
    (Role.rewrite?_eq_none h .hoistableOperand (by cases role <;> simp [patterns]))
  have hlead := Role.rewrite?_eq_none h .leadingParens (by cases role <;> simp [patterns])
  obtain ⟨c, head, args⟩ := c
  obtain ⟨pre, post, hsplit⟩ := List.append_of_mem hc
  rw [Pipe.commands_mk] at hsplit
  subst hsplit
  rcases List.mem_cons.mp he with rfl | he
  · -- A head in parentheses is passed nothing, and with more behind it, it would be hoisted.
    have hpassed : ¬(pre ≠ [] ∨ args ≠ []) := fun hpassed =>
      Bool.false_ne_true ((Command.isParen_of_isAction
        (Command.isAction_of_passed hactions hpassed)).symm.trans hparen)
    obtain ⟨rfl, rfl⟩ : pre = [] ∧ args = [] := by
      simpa only [not_or, Classical.not_not] using hpassed
    cases e with
    | atom => cases hparen
    | paren =>
      cases post with
      | nil => rfl
      | cons d post => cases hlead
  · have hargs : args ≠ [] := List.ne_nil_of_mem he
    have haction := Command.isAction_of_passed hactions (.inr hargs)
    have hnot := hhoistable _ hc
    rw [Command.hasHoistable, List.any_eq_false] at hnot
    exact absurd (Command.hoists_of_isAction haction hargs hparen) (hnot e he)

theorem Role.no_parens {role : Role} {p : Pipe Handle} (h : role.rewrite? f p = none)
    (hquiet : p.Quiet) (hacting : p.Acting) :
    ∀ c ∈ p.commands, ∀ e ∈ c.operands, e.node.isParen = false := by
  intro c hc e he
  rw [Bool.eq_false_iff]
  intro hparen
  have hlone := Role.eq_lone_of_paren h hacting hc he hparen
  have hunwrap := Role.rewrite?_eq_none h .redundantParens (by cases role <;> simp [patterns])
  obtain ⟨id, decls, commands⟩ := p
  obtain rfl : commands = [.mk c.tag e []] := hlone
  cases e with
  | atom => cases hparen
  | paren x inner =>
    obtain ⟨y, names, commands⟩ := inner
    obtain rfl : names = [] := hquiet (.mk y names commands)
      (by simp [commandPipes, Command.pipes, Expr.pipes, Pipe.pipes])
    cases hunwrap

structure Pipe.Ready (p : Pipe Handle) : Prop where
  quiet : p.Quiet
  calling : p.Calling
  sound : ∀ e ∈ p.entries, e.Sound

theorem Pipe.Ready.commands_ne_nil {p : Pipe Handle} (h : p.Ready) : p.commands ≠ [] := by
  obtain ⟨id, decls, commands⟩ := p
  have hne : commands.map Command.tag ≠ [] := h.sound _ (List.mem_cons_self ..)
  exact fun heq => hne (by rw [show commands = [] from heq]; rfl)

theorem Role.exists_commands_eq {role : Role} {p : Pipe Handle} (hrole : role ≠ .nested)
    (h : role.rewrite? f p = none) (hready : p.Ready) : ∃ c, p.commands = [c] := by
  have hne := hready.commands_ne_nil
  have hcalls := hready.calling
  obtain ⟨id, decls, commands⟩ := p
  rcases commands with _ | ⟨c, _ | ⟨d, rest⟩⟩
  · exact absurd rfl hne
  · exact ⟨c, rfl⟩
  · exfalso
    have hforms := (Pipe.formed_mk.mp hcalls).1
    have hhoistable := Pattern.hasHoistable_eq_false
      (Role.rewrite?_eq_none h .hoistableOperand (by cases role <;> simp [patterns]))
    have hmethod := Role.rewrite?_eq_none h .leadingMethodCall
      (by cases role <;> simp [patterns] at hrole ⊢)
    have hlead := Role.rewrite?_eq_none h .leadingCalls (by cases role <;> simp [patterns])
    have hfold := Role.rewrite?_eq_none h .pipedValue (by cases role <;> simp [patterns])
    have hparens := Role.rewrite?_eq_none h .leadingParens (by cases role <;> simp [patterns])
    have haction := fun hpassed =>
      @Command.isAction_of_passed [] _ _ (actionsIn_of_callsIn hforms) hpassed
    obtain ⟨c, head, args⟩ := c
    obtain ⟨d, head', args'⟩ := d
    simp only [List.map_cons, callsIn, List.all_cons, Bool.and_eq_true, Command.form_mk] at hforms
    have hcall : (Command.mk d head' args').isCall := by
      rw [Command.isCall_mk]
      exact hforms.1.2.1
    have hnocall : ¬(Command.mk c head args).isCall := fun hc => by
      simp [Pattern.rewrite?, hc, hcall] at hlead
    obtain rfl : args = [] := by
      refine Classical.byContradiction fun hargs => ?_
      have hc := Command.isMethodCall_of_isAction (haction (.inr hargs)) hargs hnocall
      simp [Pattern.rewrite?, hc] at hmethod
    have hwait : (Command.mk d head' args').hasHoistable = false := hhoistable _ (by simp)
    -- What a command in front can be, other than a call of a function or of a method.
    cases head with
    | paren => cases hparens
    | atom _ a =>
      cases a with
      | identifier => exact hnocall rfl
      | bool =>
        have hpassed := hforms.2
        simp [Expr.node, Form.isBoolean] at hpassed
      | var | field | dot | str | number =>
        simp [Pattern.rewrite?, CommandView.isBare, Expr.node, ExprNode.isFoldable, hcall, hwait]
          at hfold

theorem Command.isPlain_of_bare {c : Command Handle} (hargs : c.args = [])
    (hparen : c.head.node.isParen = false) (hpath : c.head.node.isPathRead = false)
    (hcall : ¬c.isCall) (hsound : ∀ e ∈ c.head.entries, e.Sound) : c.view.isPlain := by
  obtain ⟨id, head, args⟩ := c
  obtain rfl : args = [] := hargs
  match head with
  | .atom _ (.identifier _) => exact absurd rfl hcall
  | .atom _ .dot | .atom _ (.str _) | .atom _ (.number _) | .atom _ (.bool _) => rfl
  | .atom x (.var path) =>
    have hne : path ≠ [] := hsound (.expr x (.atom (.var path))) (by simp [Expr.entries])
    have hpath : ¬1 < path.length := of_decide_eq_false hpath
    have hlength := List.length_pos_iff.mpr hne
    simp only [CommandView.isPlain, CommandView.isBare, view, head_mk, args_mk, Expr.node,
      ExprNode.isPlain, List.map_nil, List.isEmpty_nil, Bool.true_and, decide_eq_true_eq]
    omega
  | .atom _ (.field _) => cases hpath
  | .paren .. => cases hparen

/-- A pipeline with one command, no pipeline in its operands and no path among the arguments of a
call. -/
structure Pipe.Flat (p : Pipe Handle) : Prop where
  single : p.commands.length = 1
  parens : ∀ c ∈ p.commands, ∀ e ∈ c.operands, e.node.isParen = false
  paths : ∀ c ∈ p.commands, c.isCall → ∀ e ∈ c.args, e.node.isPathRead = false

def Stmt.Flat : Stmt Handle → Prop
  | .text .. | .invoke _ _ none => True
  | .action _ p => p.decls = [] → ∀ c ∈ p.commands, c.view.isPlain
  | .branch _ _ p _ _ | .invoke _ _ (some p) =>
    ∀ c ∈ p.commands, c.view.isPlain ∨ c.isCall ∧ c.args = []

theorem Role.flat {role : Role} {p : Pipe Handle} (hrole : role ≠ .nested)
    (h : role.rewrite? f p = none) (hready : p.Ready) : p.Flat := by
  obtain ⟨c, hc⟩ := Role.exists_commands_eq hrole h hready
  refine ⟨by rw [hc]; rfl, Role.no_parens h hready.quiet hready.calling.acting,
    fun c hc hcall e he => ?_⟩
  obtain ⟨id, decls, commands⟩ := p
  have hnone := Pattern.hasHoistable_eq_false
    (Role.rewrite?_eq_none h .hoistableOperand (by cases role <;> simp [patterns])) c hc
  have hnot := List.any_eq_false.mp hnone e he
  rw [Command.hoists_call hcall, Bool.or_eq_true, not_or] at hnot
  exact Bool.eq_false_iff.mpr hnot.2

theorem Role.isPlain_or_isCall {role : Role} {p : Pipe Handle} (h : role.rewrite? f p = none)
    (hlone : .loneRead ∈ role.patterns) (hready : p.Ready) {c : Command Handle}
    (hc : p.commands = [c]) : c.view.isPlain ∨ c.isCall := by
  obtain ⟨hquiet, hcalls, hsound⟩ := hready
  have hparens := Role.no_parens h hquiet hcalls.acting
  obtain ⟨id, decls, commands⟩ := p
  obtain rfl : commands = [c] := hc
  have hread := Role.rewrite?_eq_none h .loneRead hlone
  simp only [Pattern.rewrite?, ite_eq_right_iff, reduceCtorEq, imp_false, Bool.not_eq_true,
    Bool.or_eq_false_iff] at hread
  refine (Decidable.em c.isCall).symm.imp_left fun hcall => ?_
  have hargs : c.args = [] := by
    refine Classical.byContradiction fun hargs => ?_
    have haction := @Command.isAction_of_passed [] _ _
      (Pipe.formed_mk.mp hcalls.acting).1 (.inr hargs)
    exact absurd (Command.isMethodCall_of_isAction haction hargs hcall) (by simp [hread.2])
  refine Command.isPlain_of_bare hargs ?_ hread.1 hcall fun e he => hsound e ?_
  · exact hparens c (by simp) c.head (List.mem_cons_self ..)
  · obtain ⟨_, head, args⟩ := c
    simp only [Pipe.entries, commandEntries, Command.entries, List.cons_append, List.mem_cons,
      List.mem_append]
    exact .inr (.inr (.inl (.inl he)))

namespace Stmt

variable {s : Stmt Handle} {p : Pipe Handle}

theorem role_ne_nested (s : Stmt Handle) : s.role ≠ .nested := by
  match s with
  | .action _ p =>
    rw [role, Pipe.actionRole]
    split <;> simp
  | .text .. | .branch .. | .invoke .. => simp [role]

theorem rewrite?_governing (h : s.rewriteOwn? f = none) (hp : s.governing? = some p) :
    s.role.rewrite? f p = none := by
  rw [rewriteOwn?_eq, hp, Option.bind_some, Option.map_eq_none_iff] at h
  obtain ⟨id, decls, commands⟩ := p
  rw [Pipe.rewrite?] at h
  split at h
  · cases h
  · next hown => exact hown

theorem flat_governing (h : s.rewriteOwn? f = none) (hp : s.governing? = some p)
    (hready : p.Ready) : p.Flat :=
  Role.flat s.role_ne_nested (rewrite?_governing h hp) hready

theorem exists_isPlain_or_isCall (h : s.rewriteOwn? f = none) (hp : s.governing? = some p)
    (hready : p.Ready) (hlone : .loneRead ∈ s.role.patterns) :
    ∃ c, p.commands = [c] ∧ (c.view.isPlain ∨ c.isCall) := by
  have hown := rewrite?_governing h hp
  obtain ⟨c, hc⟩ := Role.exists_commands_eq s.role_ne_nested hown hready
  exact ⟨c, hc, Role.isPlain_or_isCall hown hlone hready hc⟩

theorem flat_subject (h : s.rewriteOwn? f = none) (hp : s.governing? = some p) (hready : p.Ready)
    (hrole : s.role = .subject) : ∀ c ∈ p.commands, c.view.isPlain ∨ c.isCall ∧ c.args = [] := by
  obtain ⟨c, hc, hor⟩ := exists_isPlain_or_isCall h hp hready (by rw [hrole]; simp [Role.patterns])
  have hown := rewrite?_governing h hp
  rw [hrole] at hown
  obtain ⟨id, decls, commands⟩ := p
  obtain rfl : commands = [c] := hc
  have hlone := Role.rewrite?_eq_none hown .loneCall (by simp [Role.patterns])
  simp only [Pattern.rewrite?, Command.isCall_view, Command.isBare_view, ite_eq_right_iff,
    reduceCtorEq, imp_false, Bool.and_eq_true, Bool.not_eq_true', not_and, Bool.not_eq_false,
    List.isEmpty_iff] at hlone
  rw [Pipe.commands_mk, List.forall_mem_singleton]
  exact hor.imp_right fun hcall => ⟨hcall, hlone hcall⟩

theorem flat_print (h : s.rewriteOwn? f = none) (hp : s.governing? = some p) (hready : p.Ready)
    (hrole : s.role = .print) : ∀ c ∈ p.commands, c.view.isPlain := by
  obtain ⟨c, hc, hor⟩ := exists_isPlain_or_isCall h hp hready (by rw [hrole]; simp [Role.patterns])
  have hown := rewrite?_governing h hp
  rw [hrole] at hown
  obtain ⟨id, decls, commands⟩ := p
  obtain rfl : commands = [c] := hc
  have hprinted := Role.rewrite?_eq_none hown .printedCall (by simp [Role.patterns])
  simp only [Pattern.rewrite?, List.any_cons, List.any_nil, Bool.or_false, Command.isCall_view,
    ite_eq_right_iff, reduceCtorEq, imp_false] at hprinted
  rw [Pipe.commands_mk, List.forall_mem_singleton]
  exact hor.resolve_right hprinted

theorem flat_of_rewriteOwn? (h : s.rewriteOwn? f = none) (hready : ∀ p ∈ s.governing?, p.Ready) :
    s.Flat := by
  match s with
  | .text .. | .invoke _ _ none => trivial
  | .branch _ _ p _ _ | .invoke _ _ (some p) => exact flat_subject h rfl (hready p rfl) rfl
  | .action id p =>
    exact fun hdecls => flat_print h rfl (hready p rfl) (by simp [role, Pipe.actionRole, hdecls])

end Stmt

mutual

theorem Stmt.rewriteOwn?_eq_none {s : Stmt Handle} (h : s.rewrite? f = none) :
    ∀ x ∈ s.stmts, x.rewriteOwn? f = none := by
  match s with
  | .text .. | .action .. | .invoke .. =>
    rw [Stmt.stmts, List.forall_mem_singleton]
    exact h
  | .branch id kind p body elseBody =>
    rw [Stmt.rewrite?] at h
    split at h
    · cases h
    · next hown =>
      split at h
      · cases h
      · next hbody =>
        rw [Option.map_eq_none_iff] at h
        rw [Stmt.stmts, List.forall_mem_cons, List.forall_mem_append]
        exact ⟨hown, rewriteOwn?_eq_none_of_block hbody, rewriteOwn?_eq_none_of_block h⟩

theorem rewriteOwn?_eq_none_of_block {b : Block Handle} (h : blockRewrite? f b = none) :
    ∀ x ∈ blockStmts b, x.rewriteOwn? f = none := by
  match b with
  | [] => exact nofun
  | s :: rest =>
    rw [blockRewrite?] at h
    split at h
    · cases h
    · next hs =>
      rw [Option.map_eq_none_iff] at h
      rw [blockStmts, List.forall_mem_append]
      exact ⟨Stmt.rewriteOwn?_eq_none hs, rewriteOwn?_eq_none_of_block h⟩

end

mutual

theorem Expr.exists_rewrite?_eq_none {e : Expr Handle} (h : e.rewrite? f = none) {q : Pipe Handle}
    (hq : q ∈ e.pipes) : ∃ role : Role, role.rewrite? f q = none := by
  match e with
  | .paren _ inner =>
    rw [Expr.rewrite?, Option.map_eq_none_iff] at h
    exact inner.exists_rewrite?_eq_none h hq

theorem exists_rewrite?_eq_none_of_args {es : List (Expr Handle)} (h : argRewrite? f es = none)
    {q : Pipe Handle} (hq : q ∈ argPipes es) : ∃ role : Role, role.rewrite? f q = none := by
  match es with
  | e :: es =>
    rw [argRewrite?] at h
    split at h
    · cases h
    · next he =>
      rw [Option.map_eq_none_iff] at h
      rcases List.mem_append.mp hq with hq | hq
      · exact e.exists_rewrite?_eq_none he hq
      · exact exists_rewrite?_eq_none_of_args h hq

theorem Command.exists_rewrite?_eq_none {c : Command Handle} (h : c.rewrite? f = none)
    {q : Pipe Handle} (hq : q ∈ c.pipes) : ∃ role : Role, role.rewrite? f q = none := by
  obtain ⟨_, head, args⟩ := c
  rw [Command.rewrite?] at h
  split at h
  · cases h
  · next hhead =>
    rw [Option.map_eq_none_iff] at h
    rcases List.mem_append.mp hq with hq | hq
    · exact head.exists_rewrite?_eq_none hhead hq
    · exact exists_rewrite?_eq_none_of_args h hq

theorem exists_rewrite?_eq_none_of_commands {cs : List (Command Handle)}
    (h : commandRewrite? f cs = none) {q : Pipe Handle} (hq : q ∈ commandPipes cs) :
    ∃ role : Role, role.rewrite? f q = none := by
  match cs with
  | c :: cs =>
    rw [commandRewrite?] at h
    split at h
    · cases h
    · next hc =>
      rw [Option.map_eq_none_iff] at h
      rcases List.mem_append.mp hq with hq | hq
      · exact c.exists_rewrite?_eq_none hc hq
      · exact exists_rewrite?_eq_none_of_commands h hq

theorem Pipe.exists_rewrite?_eq_none {role : Role} (p : Pipe Handle) (h : p.rewrite? f role = none)
    {q : Pipe Handle} (hq : q ∈ p.pipes) : ∃ role : Role, role.rewrite? f q = none := by
  obtain ⟨id, decls, commands⟩ := p
  rw [Pipe.rewrite?] at h
  split at h
  · cases h
  · next hown =>
    rw [Option.map_eq_none_iff] at h
    rcases List.mem_cons.mp hq with rfl | hq
    · exact ⟨role, hown⟩
    · exact exists_rewrite?_eq_none_of_commands h hq

end

theorem exists_rewrite?_eq_none_of_block {b : Block Handle} (h : blockRewrite? f b = none)
    {q : Pipe Handle} (hq : q ∈ blockPipes b) : ∃ role : Role, role.rewrite? f q = none := by
  obtain ⟨s, hs, p, hp, hq⟩ := mem_blockPipes.mp hq
  have hown := rewriteOwn?_eq_none_of_block h s hs
  rw [Stmt.rewriteOwn?_eq, hp, Option.bind_some, Option.map_eq_none_iff] at hown
  exact p.exists_rewrite?_eq_none hown hq

theorem Pipe.Flat.pipes {p : Pipe Handle} (h : p.Flat) : p.pipes = [p] := by
  obtain ⟨id, decls, commands⟩ := p
  have hnone : commandPipes commands = [] := by
    refine List.eq_nil_iff_forall_not_mem.mpr fun q hq => ?_
    obtain ⟨c, hc, hq⟩ := mem_commandPipes.mp hq
    obtain ⟨e, he, hq⟩ := Command.mem_pipes.mp hq
    have hparen := h.parens c hc e he
    match e with
    | .atom .. => cases hq
    | .paren .. => cases hparen
  rw [Pipe.pipes, hnone]

theorem flat_of_blockRewrite? {b : Block Handle} (h : blockRewrite? f b = none)
    (hready : Governed Pipe.Ready b) :
    (∀ p ∈ blockPipes b, p.Flat) ∧ ∀ s ∈ blockStmts b, s.Flat := by
  have hown := rewriteOwn?_eq_none_of_block h
  refine ⟨fun q hq => ?_, fun s hs => Stmt.flat_of_rewriteOwn? (hown s hs) (hready s hs)⟩
  obtain ⟨s, hs, p, hp, hq⟩ := mem_blockPipes.mp hq
  have hflat := Stmt.flat_governing (hown s hs) hp (hready s hs p hp)
  rw [hflat.pipes, List.mem_singleton] at hq
  exact hq ▸ hflat

end FlatTemplate

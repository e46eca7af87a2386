import FlatTemplate.Proofs.Template.Rewriting

/-!
What the patterns make of the pipelines that they match. There are six kinds of change, and the
conditions under which they are made are those that the patterns check.
-/

namespace FlatTemplate

section SplitFirst

variable {α : Type} {p : α → Bool} {as : List α}

theorem splitFirst_eq_some {pre post : List α} {x : α}
    (h : splitFirst p as = some (pre, x, post)) :
    as = pre ++ x :: post ∧ p x ∧ ∀ a ∈ pre, p a = false := by
  induction as generalizing pre with
  | nil => simp [splitFirst] at h
  | cons a as ih =>
    rw [splitFirst] at h
    split at h
    · next hp =>
      obtain ⟨rfl, rfl, rfl⟩ : [] = pre ∧ a = x ∧ as = post := by simpa using h
      exact ⟨rfl, hp, by simp⟩
    · next hp =>
      obtain ⟨⟨pre, y, rest⟩, hs, he⟩ := Option.map_eq_some_iff.mp h
      obtain ⟨rfl, rfl, rfl⟩ : a :: pre = _ ∧ y = x ∧ rest = post := by simpa using he
      obtain ⟨rfl, hx, hpre⟩ := ih hs
      refine ⟨rfl, hx, ?_⟩
      simpa [hp] using hpre

theorem splitFirst_eq_none : splitFirst p as = none ↔ ∀ a ∈ as, p a = false := by
  induction as with
  | nil => simp [splitFirst]
  | cons a as ih => by_cases hp : p a <;> simp [splitFirst, hp, ih]

end SplitFirst

@[simp] theorem Command.isCall_view (c : Command Handle) : c.view.isCall = c.isCall := by
  obtain ⟨id, head, args⟩ := c
  cases head with
  | atom _ a => cases a <;> rfl
  | paren => rfl

theorem Command.isCall_mk (c : CommandId) (head : Expr Handle) (args : List (Expr Handle)) :
    (Command.mk c head args).isCall = head.node.isIdentifier := by
  match head with
  | .atom _ a => cases a <;> rfl
  | .paren _ _ => rfl

theorem Command.isBare_view (c : Command Handle) : c.view.isBare = c.args.isEmpty := by
  simp [CommandView.isBare]

theorem CommandView.isBare_of_isMethodCall {c : CommandView} (h : c.isMethodCall) :
    c.isBare = false := by
  simp only [CommandView.isMethodCall, Bool.and_eq_true, Bool.not_eq_true'] at h
  exact h.1

theorem ExprNode.isPlain_of_isPathRead {e : ExprNode} (h : e.isPathRead) : e.isPlain = false := by
  match e with
  | .atom (.var path) =>
    simp only [isPathRead, Atom.isPathRead, decide_eq_true_eq] at h
    simp only [isPlain, decide_eq_false_iff_not]
    omega
  | .atom (.field _) => rfl
  | .atom .dot | .atom (.identifier _) | .atom (.str _) | .atom (.number _) | .atom (.bool _)
  | .paren _ => simp [isPathRead, Atom.isPathRead] at h

theorem Expr.exists_stub_eq (f : Fresh) (e : Expr Handle) :
    ∃ name names, e.stub f = f.reading name ∧ (e.bound f).decls = name :: names := by
  cases e with
  | atom => exact ⟨f.name, [], rfl, rfl⟩
  | paren x inner =>
    obtain ⟨id, decls, commands⟩ := inner
    cases decls with
    | nil => exact ⟨f.name, [], rfl, rfl⟩
    | cons name names => exact ⟨name, names, rfl, rfl⟩

theorem Expr.isPathRead_stub (f : Fresh) (e : Expr Handle) :
    (e.stub f).node.isPathRead = false := by
  obtain ⟨name, _, hstub, -⟩ := e.exists_stub_eq f
  rw [hstub]
  rfl

def Command.isBareOperand (c : Command Handle) : Bool :=
  c.view.isBare && (c.head.node.isParen || c.head.node.isPathRead)

inductive Leads : Pattern → (pre rest : List (Command Handle)) → Prop where
  | operand {pre c post} (hne : pre ≠ []) (hpre : ∀ d ∈ pre, d.hasHoistable = false)
      (hc : c.hasHoistable)
      (hlone : ∀ l, pre = [l] → l.view.isPlain = false ∧ l.isBareOperand = false) :
      Leads .hoistableOperand pre (c :: post)
  | methodCall {c d rest} (hc : c.view.isMethodCall) : Leads .leadingMethodCall [c] (d :: rest)
  | loneRead {c} (hc : c.head.node.isPathRead || c.view.isMethodCall) : Leads .loneRead [c] []
  | calls {c d rest} (hc : c.isCall) (hd : d.isCall) : Leads .leadingCalls [c] (d :: rest)
  | loneCall {c} (hc : c.isCall) (hargs : c.view.isBare = false) : Leads .loneCall [c] []

theorem Leads.ne_nil {pattern : Pattern} {pre rest : List (Command Handle)}
    (h : Leads pattern pre rest) : pre ≠ [] := by
  cases h with
  | operand hne => exact hne
  | methodCall | loneRead | calls | loneCall => simp

inductive LeadsHead : Pattern → Command Handle → (rest : List (Command Handle)) → Prop where
  | operand {c d post} (hc : c.hasHoistable = false) (hd : d.hasHoistable)
      (hplain : c.view.isPlain = false) (hbare : c.isBareOperand) :
      LeadsHead .hoistableOperand c (d :: post)
  | parens {c d rest} (hc : c.head.node.isParen) : LeadsHead .leadingParens c (d :: rest)

theorem Command.paren_or_read_of_hoists {c : Command Handle} {e : Expr Handle}
    (h : c.hoists e) : e.node.isParen ∨ e.node.isPathRead := by
  simp only [Command.hoists, CommandView.hoists] at h
  split at h
  · exact Bool.or_eq_true_iff.mp h
  · exact .inl (Bool.and_eq_true_iff.mp h).2

theorem LeadsHead.paren_or_read {pattern : Pattern} {c : Command Handle}
    {rest : List (Command Handle)} (h : LeadsHead pattern c rest) :
    c.head.node.isParen ∨ c.args = [] ∧ c.head.node.isPathRead := by
  cases h with
  | operand _ _ _ hbare =>
    simp only [Command.isBareOperand, Command.isBare_view, Bool.and_eq_true, List.isEmpty_iff,
      Bool.or_eq_true] at hbare
    exact hbare.2.imp_right fun h => ⟨hbare.1, h⟩
  | parens hc => exact .inl hc

theorem not_isIdentifier {e : ExprNode} (h : e.isParen ∨ e.isPathRead ∨ e.isFoldable) :
    e.isIdentifier = false := by
  match e with
  | .atom (.identifier _) => simp [ExprNode.isParen, ExprNode.isPathRead, Atom.isPathRead,
      ExprNode.isFoldable] at h
  | .paren _ | .atom (.var _) | .atom (.field _) | .atom .dot | .atom (.str _)
  | .atom (.number _) | .atom (.bool _) => rfl

/-- A pattern that matches a pipeline, and the change it calls for. -/
inductive Pipe.Change (f : Fresh) : Pattern → Pipe Handle → Rewriting (Pipe Handle) → Prop where
  | unwrap (id decls c x inner commands) :
      Change f .redundantParens (.mk id decls [.mk c (.paren x (.mk inner [] commands)) []])
        ⟨⟨.redundantParens, .unwrap id inner⟩, none, .mk id decls commands, false⟩
  | fold (id decls v value c head args rest) (hcall : (Command.mk c head args).isCall)
      (hfold : value.node.isFoldable)
      (hwait : value.node.isPathRead → (Command.mk c head args).hasHoistable = false) :
      Change f .pipedValue (.mk id decls (.mk v value [] :: .mk c head args :: rest))
        ⟨⟨.foldPipedValue, .fold id⟩, none, .mk id decls (.mk c head (args ++ [value]) :: rest),
          false⟩
  | leading (pattern rule id decls pre rest) (why : Leads pattern pre rest) :
      Change f pattern (.mk id decls (pre ++ rest)) (Pipe.bindLeading f rule id decls pre rest)
  | head (pattern rule id decls c rest) (why : LeadsHead pattern c rest) :
      Change f pattern (.mk id decls (c :: rest)) (Pipe.bindHead f rule id decls c rest)
  | arg (id decls pre c head before e after post)
      (hpre : pre = [] ∨ ∃ l, pre = [l] ∧ l.view.isPlain)
      (hbefore : ∀ a ∈ before, (Command.mk c head (before ++ e :: after)).hoists a = false)
      (he : (Command.mk c head (before ++ e :: after)).hoists e) :
      Change f .hoistableOperand (.mk id decls (pre ++ .mk c head (before ++ e :: after) :: post))
        (Pipe.bindArg f id decls pre (.mk c head (before ++ e :: after)) before e after post)
  | split (id decls commands) (hcall : commands.any Command.isCall) :
      Change f .printedCall (.mk id decls commands)
        ⟨⟨.splitPrint, .splitPrint⟩, none, .mk id [f.name] commands, true⟩

theorem Pipe.bindOperand_change {f : Fresh} {id : PipeId} {decls : List String}
    {pre post : List (Command Handle)} {c : Command Handle} {r : Rewriting (Pipe Handle)}
    (hpre : ∀ d ∈ pre, d.hasHoistable = false) (hc : c.hasHoistable)
    (h : Pipe.bindOperand f id decls pre c post = some r) :
    Pipe.Change f .hoistableOperand (.mk id decls (pre ++ c :: post)) r := by
  obtain ⟨tag, head, args⟩ := c
  rw [Pipe.bindOperand] at h
  obtain ⟨⟨before, e, after⟩, hsplit, h⟩ := Option.map_eq_some_iff.mp h
  obtain ⟨hargs, he, hbefore⟩ := splitFirst_eq_some hsplit
  rw [Command.args_mk] at hargs
  subst hargs
  -- What stands ahead of the command decides whether the operand can be bound before it.
  match pre with
  | [] =>
    subst h
    exact .arg id decls [] tag head before e after post (.inl rfl) hbefore he
  | [l] =>
    simp only [List.isEmpty_nil, Bool.true_and, Bool.and_eq_true] at h
    have hl := hpre l (List.mem_singleton_self l)
    by_cases hplain : l.view.isPlain
    · rw [if_pos hplain] at h
      subst h
      exact .arg id decls [l] tag head before e after post (.inr ⟨l, rfl, hplain⟩) hbefore he
    · rw [if_neg hplain] at h
      simp only [Bool.not_eq_true] at hplain
      by_cases hparen : l.view.isBare ∧ l.head.node.isParen
      · rw [if_pos hparen] at h
        subst h
        exact .head _ _ id decls l _
          (.operand hl hc hplain (by simp [Command.isBareOperand, hparen]))
      · rw [if_neg hparen] at h
        by_cases hpath : l.view.isBare ∧ l.head.node.isPathRead
        · rw [if_pos hpath] at h
          subst h
          exact .head _ _ id decls l _
            (.operand hl hc hplain (by simp [Command.isBareOperand, hpath]))
        · rw [if_neg hpath] at h
          subst h
          refine .leading _ _ id decls [l] _ (.operand (by simp) hpre hc fun l' hl' => ?_)
          obtain rfl : l = l' := by simpa using hl'
          refine ⟨hplain, ?_⟩
          simp only [Command.isBareOperand]
          grind
  | l :: l' :: pre =>
    subst h
    exact .leading _ _ id decls (l :: l' :: pre) _
      (.operand (by simp) hpre hc fun _ hl => by simp at hl)

theorem Pattern.rewrite?_change {f : Fresh} {pattern : Pattern} {p : Pipe Handle}
    {r : Rewriting (Pipe Handle)} (h : pattern.rewrite? f p = some r) :
    Pipe.Change f pattern p r := by
  obtain ⟨id, decls, commands⟩ := p
  cases pattern with
  | redundantParens =>
    match commands with
    | [.mk c (.paren x (.mk inner [] commands)) []] =>
      obtain rfl := Option.some.inj h
      exact .unwrap id decls c x inner commands
    | [] | [.mk _ (.atom _ _) _] | [.mk _ (.paren _ (.mk _ (_ :: _) _)) _]
    | [.mk _ (.paren _ (.mk _ [] _)) (_ :: _)] | _ :: _ :: _ => simp [rewrite?] at h
  | hoistableOperand =>
    obtain ⟨⟨pre, c, post⟩, hsplit, hbind⟩ := Option.bind_eq_some_iff.mp h
    obtain ⟨rfl, hc, hpre⟩ := splitFirst_eq_some hsplit
    exact Pipe.bindOperand_change hpre hc hbind
  | leadingMethodCall =>
    match commands with
    | c :: d :: rest =>
      obtain ⟨hc, h⟩ := Option.ite_none_right_eq_some.mp h
      obtain rfl := Option.some.inj h
      exact .leading _ _ id decls [c] _ (.methodCall hc)
    | [] | [_] => simp [rewrite?] at h
  | loneRead =>
    match commands with
    | [c] =>
      obtain ⟨hc, h⟩ := Option.ite_none_right_eq_some.mp h
      obtain rfl := Option.some.inj h
      exact .leading _ _ id decls [c] _ (.loneRead hc)
    | [] | _ :: _ :: _ => simp [rewrite?] at h
  | printedCall =>
    obtain ⟨hc, h⟩ := Option.ite_none_right_eq_some.mp h
    obtain rfl := Option.some.inj h
    exact .split id decls commands (by simpa using hc)
  | pipedValue =>
    match commands with
    | .mk v value args :: .mk c head args' :: rest =>
      obtain ⟨hc, h⟩ := Option.ite_none_right_eq_some.mp h
      obtain rfl := Option.some.inj h
      simp only [Command.isCall_view, CommandView.isBare, Command.view_args, Command.args_mk,
        Command.head_mk, Bool.and_eq_true, List.isEmpty_iff, List.map_eq_nil_iff,
        Bool.not_eq_true', Bool.and_eq_false_iff] at hc
      obtain ⟨⟨⟨hcall, rfl⟩, hfold⟩, hwait⟩ := hc
      exact .fold id decls v value c head args' rest hcall hfold fun hpath =>
        hwait.resolve_left (by simp [hpath])
    | [] | [_] => simp [rewrite?] at h
  | leadingParens =>
    match commands with
    | c :: d :: rest =>
      obtain ⟨hc, h⟩ := Option.ite_none_right_eq_some.mp h
      obtain rfl := Option.some.inj h
      exact .head _ _ id decls c _ (.parens hc)
    | [] | [_] => simp [rewrite?] at h
  | leadingCalls =>
    match commands with
    | c :: d :: rest =>
      obtain ⟨hc, h⟩ := Option.ite_none_right_eq_some.mp h
      obtain rfl := Option.some.inj h
      simp only [Command.isCall_view, Bool.and_eq_true] at hc
      exact .leading _ _ id decls [c] _ (.calls hc.1 hc.2)
    | [] | [_] => simp [rewrite?] at h
  | loneCall =>
    match commands with
    | [c] =>
      obtain ⟨hc, h⟩ := Option.ite_none_right_eq_some.mp h
      obtain rfl := Option.some.inj h
      simp only [Command.isCall_view, Bool.and_eq_true, Bool.not_eq_true'] at hc
      exact .leading _ _ id decls [c] _ (.loneCall hc.1 hc.2)
    | [] | _ :: _ :: _ => simp [rewrite?] at h

theorem Role.rewrite?_eq_some {f : Fresh} {role : Role} {p : Pipe Handle}
    {r : Rewriting (Pipe Handle)} (h : role.rewrite? f p = some r) :
    ∃ before pattern after, role.patterns = before ++ pattern :: after ∧
      Pipe.Change f pattern p r ∧ ∀ q ∈ before, q.rewrite? f p = none := by
  obtain ⟨before, pattern, after, hp, hr, hbefore⟩ := List.findSome?_eq_some_iff.mp h
  exact ⟨before, pattern, after, hp, Pattern.rewrite?_change hr, hbefore⟩

theorem Pipe.Change.ahead_declares {f : Fresh} {pattern : Pattern} {p a : Pipe Handle}
    {r : Rewriting (Pipe Handle)} (h : Pipe.Change f pattern p r) (ha : r.ahead = some a) :
    a.decls ≠ [] := by
  have hbound (e : Expr Handle) : (e.bound f).decls ≠ [] := by
    obtain ⟨name, names, -, hdecls⟩ := e.exists_stub_eq f
    rw [hdecls]
    exact List.cons_ne_nil name names
  cases h with
  | unwrap | fold | split => cases ha
  | leading =>
    obtain rfl := Option.some.inj ha
    simp
  | head | arg =>
    obtain rfl := Option.some.inj ha
    exact hbound _

theorem Pipe.Change.rest_decls {f : Fresh} {pattern : Pattern} {p : Pipe Handle}
    {r : Rewriting (Pipe Handle)} (h : Pipe.Change f pattern p r) :
    r.rest.decls = if r.found.edit = .splitPrint then [f.name] else p.decls := by
  cases h <;> simp [Pipe.bindLeading, Pipe.bindHead, Pipe.bindArg]

theorem Pipe.Change.rest_tag {f : Fresh} {pattern : Pattern} {p : Pipe Handle}
    {r : Rewriting (Pipe Handle)} (h : Pipe.Change f pattern p r) : r.rest.tag = p.tag := by
  cases h <;> rfl

end FlatTemplate

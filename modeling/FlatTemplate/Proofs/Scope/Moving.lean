import FlatTemplate.Proofs.Scope.Hoisting

namespace FlatTemplate

variable {x : String} {n : Nat} {f : Fresh}

theorem Atom.reads_eq_false {id : ExprId} (hn : n ≤ id.index) (a : Atom) :
    a.reads x n id = false := by
  have hindex : ¬id.index < n := Nat.not_lt.mpr hn
  cases a with
  | var path => cases path <;> simp [reads, hindex]
  | _ => rfl

theorem Expr.moved_stub (hn : n ≤ f.expr.index) (e : Expr Handle) : (e.stub f).moved x n = [] := by
  obtain ⟨name, _, hstub, -⟩ := e.exists_stub_eq f
  rw [hstub]
  simp [Fresh.reading, Expr.moved, Atom.reads_eq_false hn]

theorem Expr.moved_bound (hx : x ≠ f.name) (e : Expr Handle) :
    (e.bound f).moved x n = e.moved x n := by
  match e with
  | .paren _ (.mk _ (_ :: _) _) => rfl
  | .paren _ (.mk _ [] _) => simp [bound, Expr.moved, Pipe.moved, hx]
  | .atom _ _ => simp [bound, Pipe.moved, passedMoved, Command.moved, argMoved, hx]

theorem Command.moved_bare (id : CommandId) (e : Expr Handle) :
    (Command.mk id e []).moved x n = e.moved x n := by
  rw [Command.moved, argMoved, argMoved, List.nil_append, List.append_nil]

theorem Fresh.moved_read (hn : n ≤ f.expr.index) : f.read.moved x n = [] :=
  (Command.moved_bare ..).trans (Expr.moved_stub (e := .atom f.expr .dot) hn)

namespace Command

theorem hoists_congr {c c' : CommandId} {head : Expr Handle} {args args' : List (Expr Handle)}
    (h : args = [] ↔ args' = []) : (Command.mk c head args).hoists = (Command.mk c' head args').hoists := by
  match args, args' with
  | [], [] => rfl
  | _ :: _, _ :: _ => rfl
  | [], _ :: _ => cases h.mp rfl
  | _ :: _, [] => cases h.mpr rfl

theorem hoists_stub (c : Command Handle) (e : Expr Handle) : c.hoists (e.stub f) = false := by
  obtain ⟨name, hstub⟩ := e.exists_node_stub (f := f)
  simp [hoists, hstub, CommandView.hoists, ExprNode.isParen, ExprNode.isPathRead, Atom.isPathRead]

theorem isPlain_of_args {c : Command Handle} (h : c.args ≠ []) : c.view.isPlain = false := by
  rw [CommandView.isPlain, isBare_view, List.isEmpty_eq_false_iff.mpr h, Bool.false_and]

theorem isPlain_of_isCall {c : Command Handle} (h : c.isCall) : c.view.isPlain = false := by
  obtain ⟨id, head, args⟩ := c
  match head with
  | .atom _ (.identifier _) => exact Bool.and_false _

theorem isPlain_of_head {c : Command Handle} (h : c.head.node.isParen ∨ c.head.node.isPathRead) :
    c.view.isPlain = false := by
  rw [CommandView.isPlain, view_head, Bool.and_eq_false_iff]
  right
  rcases h with hparen | hread
  · cases hnode : c.head.node with
    | paren => rfl
    | atom => rw [hnode] at hparen; cases hparen
  · exact ExprNode.isPlain_of_isPathRead hread

theorem moved_arg (hn : n ≤ f.expr.index) {c : CommandId} {head e : Expr Handle}
    {before after : List (Expr Handle)}
    (hbefore : ∀ a ∈ before, (Command.mk c head (before ++ e :: after)).hoists a = false)
    (he : (Command.mk c head (before ++ e :: after)).hoists e) :
    e.moved x n ++ (Command.mk c head (before ++ e.stub f :: after)).moved x n =
      (Command.mk c head (before ++ e :: after)).moved x n := by
  have hsame : (Command.mk c head (before ++ e.stub f :: after)).hoists =
      (Command.mk c head (before ++ e :: after)).hoists := hoists_congr (by simp)
  have hstub := hoists_stub (f := f) (.mk c head (before ++ e :: after)) e
  rw [Command.moved, Command.moved, hsame]
  generalize (Command.mk c head (before ++ e :: after)).hoists = which at hbefore he hstub
  have hnone : before.filter which = [] := List.filter_eq_nil_iff.mpr fun a ha => by simp [hbefore a ha]
  simp [argMoved_eq, List.filter_append, hnone, he, hstub, Expr.moved_stub hn]

theorem hoists_fold {c : CommandId} {head : Expr Handle} {args : List (Expr Handle)}
    (hcall : (Command.mk c head args).isCall) (value : Expr Handle) :
    (Command.mk c head (args ++ [value])).hoists = (Command.mk c head args).hoists := by
  have hcall' : (Command.mk c head (args ++ [value])).isCall := by
    rwa [isCall_mk] at hcall ⊢
  funext e
  rw [hoists_call hcall, hoists_call hcall']

theorem moved_fold {c : CommandId} {head value : Expr Handle} {args : List (Expr Handle)}
    (hcall : (Command.mk c head args).isCall) (hvalue : value.node.isPathRead = false)
    (hfold : value.node.isFoldable) : (Command.mk c head (args ++ [value])).moved x n =
      (Command.mk c head args).moved x n ++ value.moved x n := by
  have hparen : value.node.isParen = false := by
    cases value with
    | atom => rfl
    | paren => cases hfold
  have hstays : (Command.mk c head args).hoists value = false := by
    rw [hoists_call hcall, hparen, hvalue]
    rfl
  rw [Command.moved, Command.moved, hoists_fold hcall]
  simp [argMoved_eq, List.filter_append, hstays]

theorem moved_fold_read {c : CommandId} {head value : Expr Handle} {args : List (Expr Handle)}
    (hcall : (Command.mk c head args).isCall) (hvalue : value.node.isPathRead)
    (hwait : (Command.mk c head args).hasHoistable = false) :
    (Command.mk c head (args ++ [value])).moved x n =
      value.moved x n ++ (Command.mk c head args).moved x n := by
  have hhoists : (Command.mk c head args).hoists value := by
    rw [hoists_call hcall, hvalue, Bool.or_true]
  have hnone : args.filter (Command.mk c head args).hoists = [] :=
    List.filter_eq_nil_iff.mpr (List.any_eq_false.mp hwait)
  rw [Command.moved, Command.moved, hoists_fold hcall]
  simp [argMoved_eq, List.filter_append, hhoists, hnone]

end Command

theorem Leads.isPlain {pattern : Pattern} {l : Command Handle} {rest : List (Command Handle)}
    (h : Leads pattern [l] rest) : rest = [] ∨ l.view.isPlain = false := by
  cases h with
  | operand _ _ _ hlone => exact .inr (hlone l rfl).1
  | methodCall hc =>
    rw [CommandView.isPlain, CommandView.isBare_of_isMethodCall hc, Bool.false_and]
    exact .inr rfl
  | calls hc => exact .inr (Command.isPlain_of_isCall hc)
  | loneRead | loneCall => exact .inl rfl

theorem commandFront_eq {cs : List (Command Handle)}
    (h : ∀ c id inner, cs ≠ [.mk c (.paren id inner) []]) :
    commandFront x n cs = passedMoved x n cs := by
  match cs with
  | [.mk c (.paren id inner) []] => exact absurd rfl (h c id inner)
  | [] | [.mk _ (.atom _ _) _] | [.mk _ (.paren _ _) (_ :: _)] | _ :: _ :: _ => rw [commandFront]; simp

theorem Pipe.infix_front (p : Pipe Handle) : p.front x n <:+: passedMoved x n p.commands := by
  induction p using Pipe.forall_of_operands with | h p ih
  obtain ⟨id, decls, commands⟩ := p
  match commands with
  | [.mk c (.paren y inner) []] =>
    have hinner : inner.front x n <:+: passedMoved x n inner.commands :=
      ih _ (List.mem_singleton_self _) y inner List.mem_cons_self
    have hmoved : passedMoved x n [.mk c (.paren y inner) []] = inner.moved x n :=
      Command.moved_bare ..
    rw [commands_mk, hmoved, inner.moved_eq]
    exact hinner.trans (List.prefix_append ..).isInfix
  | [] | [.mk _ (.atom _ _) _] | [.mk _ (.paren _ _) (_ :: _)] | _ :: _ :: _ =>
    rw [Pipe.front, commandFront_eq (by simp)]
    exact List.infix_refl _

def Rewriting.aheadMoved {α : Type} (x : String) (n : Nat) (r : Rewriting α) : List Step :=
  (r.ahead.map (Pipe.moved x n)).getD []

theorem Leads.ne_paren {pattern : Pattern} {pre rest : List (Command Handle)}
    (h : Leads pattern pre rest) (c : CommandId) (id : ExprId) (inner : Pipe Handle) :
    pre ++ rest ≠ [.mk c (.paren id inner) []] := by
  intro heq
  have hne := h.ne_nil
  obtain ⟨rfl, rfl⟩ : pre = [.mk c (.paren id inner) []] ∧ rest = [] := by
    match pre with
    | [] => exact absurd rfl hne
    | [l] => simpa using heq
    | _ :: _ :: _ => simp at heq
  cases h with
  | loneRead hc => simp [CommandView.isMethodCall, Expr.node, ExprNode.isPathRead] at hc
  | loneCall hc => cases hc

theorem Command.args_of_head {pattern : Pattern} {c : Command Handle} {rest : List (Command Handle)}
    (why : LeadsHead pattern c rest) (h : actionsIn ((c :: rest).map form)) : c.args = [] := by
  refine why.paren_or_read.elim (fun hparen => ?_) And.left
  by_contra hargs
  have haction := @Command.isAction_of_passed [] rest _ h (.inr hargs)
  exact absurd ((Command.isParen_of_isAction haction).symm.trans hparen) Bool.false_ne_true

theorem Pipe.Change.passedMoved {pattern : Pattern} {p : Pipe Handle} {r : Rewriting (Pipe Handle)}
    (h : Pipe.Change f pattern p r) (hacting : p.Acting) (hx : x ≠ f.name)
    (hn : n ≤ f.expr.index) :
    r.aheadMoved x n ++ passedMoved x n r.rest.commands = passedMoved x n p.commands := by
  cases h with
  | unwrap id decls c y inner commands =>
    simp [Rewriting.aheadMoved, FlatTemplate.passedMoved, Command.moved_bare, Expr.moved, Pipe.moved]
  | fold id decls v value c head args rest hcall hfold hwait =>
    rw [Rewriting.aheadMoved, Option.map_none, Option.getD_none, List.nil_append, Pipe.commands_mk,
      Pipe.commands_mk, passedMoved_cons (Command.isPlain_of_args (by simp))]
    by_cases hpath : value.node.isPathRead
    · rw [Command.moved_fold_read hcall hpath (hwait hpath),
        passedMoved_cons (Command.isPlain_of_head (c := .mk v value []) (.inr hpath)), Command.moved_bare,
        List.append_assoc, List.flatMap_cons]
    · rw [Command.moved_fold hcall (Bool.eq_false_iff.mpr hpath) hfold, List.append_assoc]
      cases hplain : (Command.mk v value []).view.isPlain with
      | true => rw [passedMoved_plain hplain, Command.moved_bare]
      | false =>
        -- Only a variable without a segment is neither, and it reads nothing.
        have hnone : value.moved x n = [] := by
          cases value with
          | paren => cases hfold
          | atom id a =>
            cases a with
            | var path =>
              cases path with
              | nil => rfl
              | cons name path =>
                cases path with
                | nil => cases hplain
                | cons => simp [Expr.node, ExprNode.isPathRead, Atom.isPathRead] at hpath
            | _ => rfl
        rw [passedMoved_of_nil ((Command.moved_bare ..).trans hnone), hnone, List.nil_append,
          List.flatMap_cons]
  | leading _ rule id decls pre rest why =>
    have hahead : (Pipe.mk f.pipe [f.name] pre).moved x n = FlatTemplate.passedMoved x n pre := by
      rw [Pipe.moved, if_neg (by simpa using hx), List.append_nil]
    change (Pipe.mk f.pipe [f.name] pre).moved x n ++
      FlatTemplate.passedMoved x n (f.read :: rest) = FlatTemplate.passedMoved x n (pre ++ rest)
    rw [hahead, passedMoved_of_nil (Fresh.moved_read hn), passedMoved_append why.ne_nil]
    rintro l rfl
    exact why.isPlain
  | head _ rule id decls c rest why =>
    obtain ⟨c, head, args⟩ := c
    obtain rfl : args = [] := Command.args_of_head why (Pipe.formed_mk.mp hacting).1
    have hhead : head.node.isParen ∨ head.node.isPathRead := why.paren_or_read.imp_right And.right
    have hstub : (Command.mk c (head.stub f) []).moved x n = [] :=
      (Command.moved_bare ..).trans (Expr.moved_stub hn head)
    change (head.bound f).moved x n ++
      FlatTemplate.passedMoved x n (.mk c (head.stub f) [] :: rest) =
        FlatTemplate.passedMoved x n (.mk c head [] :: rest)
    rw [Expr.moved_bound hx, passedMoved_of_nil hstub,
      passedMoved_cons (Command.isPlain_of_head (c := .mk c head []) hhead), Command.moved_bare]
  | arg id decls pre c head before e after post hpre hbefore he =>
    have hmoved := Command.moved_arg (x := x) (f := f) hn hbefore he
    have hplain (e : Expr Handle) : (Command.mk c head (before ++ e :: after)).view.isPlain = false :=
      Command.isPlain_of_args (by simp)
    change (e.bound f).moved x n ++ FlatTemplate.passedMoved x n
      (pre ++ .mk c head (before ++ e.stub f :: after) :: post) =
        FlatTemplate.passedMoved x n (pre ++ .mk c head (before ++ e :: after) :: post)
    rw [Expr.moved_bound hx]
    rcases hpre with rfl | ⟨l, rfl, hl⟩
    · rw [List.nil_append, List.nil_append, passedMoved_cons (hplain _), passedMoved_cons (hplain _),
        ← List.append_assoc, hmoved]
    · rw [List.singleton_append, List.singleton_append, passedMoved_plain hl, passedMoved_plain hl,
        ← List.append_assoc, hmoved]
  | split id decls commands hcall => rfl

theorem Pipe.Change.front {pattern : Pattern} {p : Pipe Handle} {r : Rewriting (Pipe Handle)}
    (h : Pipe.Change f pattern p r) (hacting : p.Acting) (hx : x ≠ f.name)
    (hn : n ≤ f.expr.index) : r.aheadMoved x n ++ r.rest.front x n = p.front x n := by
  have hpassed := h.passedMoved hacting hx hn
  cases h with
  | unwrap | split => rfl
  | fold id decls v value c head args rest =>
    change _ ++ commandFront x n _ = commandFront x n _
    rw [commandFront_eq (by simp), commandFront_eq (by simp)]
    exact hpassed
  | leading _ rule id decls pre rest why =>
    change _ ++ commandFront x n (f.read :: rest) = commandFront x n (pre ++ rest)
    rw [commandFront_eq (by simp [Fresh.read, Fresh.reading]), commandFront_eq why.ne_paren]
    exact hpassed
  | head _ rule id decls c rest why =>
    have hrest : rest ≠ [] := by cases why <;> exact List.cons_ne_nil _ _
    change _ ++ commandFront x n (_ :: rest) = commandFront x n (c :: rest)
    rw [commandFront_eq (by simp [hrest]), commandFront_eq (by simp [hrest])]
    exact hpassed
  | arg id decls pre c head before e after post hpre hbefore he =>
    have hne (e : Expr Handle) (c' : CommandId) (id : ExprId) (inner : Pipe Handle) :
        pre ++ .mk c head (before ++ e :: after) :: post ≠ [.mk c' (.paren id inner) []] := by
      rcases hpre with rfl | ⟨l, rfl, -⟩ <;> simp
    change _ ++ commandFront x n (pre ++ .mk c head (before ++ e.stub f :: after) :: post) =
      commandFront x n (pre ++ .mk c head (before ++ e :: after) :: post)
    rw [commandFront_eq (hne _), commandFront_eq (hne _)]
    exact hpassed

end FlatTemplate

import FlatTemplate.Proofs.Ordering.Events
import FlatTemplate.Proofs.Template.Canonical

/-!
Rewriting keeps its own order of calls and reads, in templates of which the commands that are
passed something have a function, a path or dot for a head.
-/

namespace FlatTemplate

variable {f : Fresh}

theorem Role.hoisted_eq_events {role : Role} {p : Pipe Handle} (h : role.rewrite? f p = none)
    (hquiet : p.Quiet) (hacting : p.Acting) : p.hoisted = p.events := by
  have hparens := Role.no_parens h hquiet hacting
  obtain ⟨id, decls, commands⟩ := p
  rw [Pipe.commands_mk] at hparens
  clear h hquiet hacting
  rw [Pipe.hoisted, Pipe.events]
  induction commands with
  | nil => rfl
  | cons c cs ih =>
    rw [List.forall_mem_cons] at hparens
    rw [commandHoisted, commandEvents, ih hparens.2]
    refine congrArg (· ++ commandEvents cs) ?_
    obtain ⟨c, head, args⟩ := c
    obtain ⟨hhead, hargs⟩ := List.forall_mem_cons.mp hparens.1
    rw [Command.args_mk] at hargs
    cases head with
    | paren => cases hhead
    | atom x a =>
      rw [Command.hoisted, Command.events]
      split
      · rw [parenHoisted_eq_nil hargs, readEvents_eq_argEvents hargs, List.nil_append]
      · rw [argHoisted_eq_argEvents hargs]

theorem Expr.hoisted_stub (e : Expr Handle) : (e.stub f).hoisted = [] := by
  obtain ⟨name, _, hstub, -⟩ := e.exists_stub_eq f
  rw [hstub]
  rfl

theorem Expr.hoisted_bound {e : Expr Handle} (he : e.node.isParen ∨ e.node.isPathRead) :
    (e.bound f).hoisted = e.hoisted := by
  match e with
  | .paren _ (.mk _ [] _) | .paren _ (.mk _ (_ :: _) _) => rfl
  | .atom id a =>
    have hread : a.isPathRead := he.resolve_left Bool.false_ne_true
    simp [bound, Pipe.hoisted, commandHoisted, Command.hoisted, parenHoisted, Atom.acts, hread,
      Expr.hoisted]

theorem hoisted_read : f.read.hoisted = [] := rfl

theorem hoisted_print : (Pipe.mk f.pipe [] [f.read]).hoisted = [] := rfl

def Rewriting.aheadHoisted {α : Type} (r : Rewriting α) : List ExprId :=
  (r.ahead.map Pipe.hoisted).getD []

theorem Command.hoisted_bare (id : CommandId) {e : Expr Handle} (he : e.node.isIdentifier = false) :
    (Command.mk id e []).hoisted = e.hoisted := by
  cases e with
  | paren => simp [Command.hoisted, Expr.hoisted, argHoisted]
  | atom x a =>
    have hid : a.isIdentifier = false := he
    simp [Command.hoisted, Expr.hoisted, argHoisted, parenHoisted, Atom.acts, hid]

theorem Command.hoisted_of_isPlain {c : Command Handle} (h : c.view.isPlain) : c.hoisted = [] := by
  obtain ⟨id, head, args⟩ := c
  rw [CommandView.isPlain, Bool.and_eq_true, Command.isBare_view, List.isEmpty_iff] at h
  obtain ⟨rfl, hhead⟩ := h
  cases head with
  | paren => cases hhead
  | atom x a =>
    cases a with
    | var path =>
      have hlength : path.length = 1 := of_decide_eq_true hhead
      rw [Command.hoisted_bare id rfl, Expr.hoisted, Atom.isPathRead, hlength]
      rfl
    | dot | str | number | bool => rfl
    | field | identifier => cases hhead

theorem Command.hoisted_call {id : CommandId} {head : Expr Handle} {args : List (Expr Handle)}
    (h : (Command.mk id head args).isCall) :
    (Command.mk id head args).hoisted = argHoisted args ++ [head.tag] := by
  match head with
  | .atom x (.identifier _) => rfl

theorem argHoisted_eq_nil_of_call {c : Command Handle} (hcall : c.isCall)
    (h : ∀ e ∈ c.args, c.hoists e = false) : argHoisted c.args = [] := by
  refine argHoisted_eq_nil fun e he => ?_
  have hnot := h e he
  rw [Command.hoists_call hcall] at hnot
  exact Bool.or_eq_false_iff.mp hnot

theorem parenHoisted_stub (e : Expr Handle) (es : List (Expr Handle)) :
    parenHoisted (e.stub f :: es) = parenHoisted es := by
  obtain ⟨name, _, hstub, -⟩ := e.exists_stub_eq f
  rw [hstub]
  rfl

theorem parenHoisted_paren {e : Expr Handle} (he : e.node.isParen) (es : List (Expr Handle)) :
    parenHoisted (e :: es) = e.hoisted ++ parenHoisted es := by
  match e with
  | .paren .. => rfl

theorem ExprNode.isPathRead_of_isParen {e : ExprNode} (h : e.isParen) : e.isPathRead = false := by
  match e with
  | .paren _ => rfl

theorem Command.hoisted_arg {c : CommandId} {head e : Expr Handle}
    {before after : List (Expr Handle)}
    (haction : (Command.mk c head (before ++ e :: after)).isAction)
    (hbefore : ∀ a ∈ before, (Command.mk c head (before ++ e :: after)).hoists a = false)
    (he : (Command.mk c head (before ++ e :: after)).hoists e) :
    e.hoisted ++ (Command.mk c head (before ++ e.stub f :: after)).hoisted =
      (Command.mk c head (before ++ e :: after)).hoisted := by
  by_cases hcall : (Command.mk c head (before ++ e :: after)).isCall
  · have hcall' : (Command.mk c head (before ++ e.stub f :: after)).isCall := by
      rwa [Command.isCall_mk] at hcall ⊢
    have hnone : argHoisted before = [] := by
      refine argHoisted_eq_nil fun a ha => ?_
      have hnot := hbefore a ha
      rw [Command.hoists_call hcall] at hnot
      exact Bool.or_eq_false_iff.mp hnot
    simp only [Command.hoisted_call hcall, Command.hoisted_call hcall', argHoisted_append,
      argHoisted, hnone, Expr.hoisted_stub, List.nil_append, List.append_assoc]
  · match head with
    | .paren .. => cases Command.isParen_of_isAction haction
    | .atom x a =>
      have hmethod := Command.isMethodCall_of_isAction haction (by simp) hcall
      have hparens : ∀ b ∈ before, b.node.isParen = false := fun b hb => by
        have hnot := hbefore b hb
        rwa [Command.hoists_method hmethod hcall] at hnot
      rw [Command.hoists_method hmethod hcall] at he
      have ha := (Command.isMethodCall_atom.mp hmethod).2
      have hacts : a.acts x (before ++ e.stub f :: after) = a.acts x (before ++ e :: after) := by
        simp [Atom.acts]
      rw [Command.hoisted, Command.hoisted, if_pos ha, if_pos ha, hacts]
      simp only [parenHoisted_append, readEvents_append, parenHoisted_eq_nil hparens,
        List.nil_append, readEvents_cons, Expr.isPathRead_stub, Bool.false_eq_true, if_false,
        parenHoisted_stub, parenHoisted_paren he, ExprNode.isPathRead_of_isParen he,
        List.append_assoc]

theorem Pipe.Change.hoisted {pattern : Pattern} {p : Pipe Handle} {r : Rewriting (Pipe Handle)}
    (h : Pipe.Change f pattern p r) (hacting : p.Acting) :
    r.aheadHoisted ++ r.rest.hoisted = p.hoisted := by
  cases h with
  | unwrap id decls c x inner commands =>
    simp [Rewriting.aheadHoisted, Pipe.hoisted, commandHoisted, Command.hoisted, argHoisted]
  | fold id decls v value c head args rest hcall hfold hwait =>
    have hvalue := Command.hoisted_bare v (not_isIdentifier (.inr (.inr hfold)))
    -- Either no argument calls or reads anything, or the value itself does not.
    have hswap : value.hoisted ++ argHoisted args = argHoisted args ++ value.hoisted := by
      by_cases hpath : value.node.isPathRead
      · have hnone := List.any_eq_false.mp (hwait hpath)
        rw [show argHoisted args = [] from argHoisted_eq_nil_of_call hcall
          fun e he => Bool.eq_false_iff.mpr (hnone e he), List.append_nil, List.nil_append]
      · cases value with
        | atom x a =>
          have hread : ¬a.isPathRead := hpath
          rw [Expr.hoisted, if_neg hread, List.append_nil, List.nil_append]
        | paren => cases hfold
    have hcall' : (Command.mk c head (args ++ [value])).isCall := by
      rwa [Command.isCall_mk] at hcall ⊢
    simp only [Rewriting.aheadHoisted, Pipe.hoisted, commandHoisted, hvalue,
      Command.hoisted_call hcall, Command.hoisted_call hcall', argHoisted_append, argHoisted,
      List.append_nil, Option.map_none, Option.getD_none, List.nil_append, ← List.append_assoc,
      hswap]
  | leading _ rule id decls pre rest why =>
    change commandHoisted pre ++ (f.read.hoisted ++ commandHoisted rest) = _
    rw [hoisted_read, List.nil_append, Pipe.hoisted, commandHoisted_append]
  | head _ rule id decls c rest why =>
    have hhead := why.paren_or_read
    obtain ⟨c, head, args⟩ := c
    -- A head with arguments would be an action, and an action is no pipeline in parentheses.
    obtain rfl : args = [] := by
      refine hhead.elim (fun hparen => ?_) And.left
      by_cases hargs : args = []
      · exact hargs
      · have haction := @Command.isAction_of_passed [] rest _ (Pipe.formed_mk.mp hacting).1
          (.inr hargs)
        exact absurd ((Command.isParen_of_isAction haction).symm.trans hparen) Bool.false_ne_true
    have hhead : head.node.isParen ∨ head.node.isPathRead := hhead.imp_right And.right
    have hbare := Command.hoisted_bare c (not_isIdentifier (hhead.imp_right .inl))
    have hstub : (Command.mk c (head.stub f) []).hoisted = (head.stub f).hoisted := by
      obtain ⟨name, _, hstub, -⟩ := head.exists_stub_eq f
      rw [hstub]
      exact Command.hoisted_bare c rfl
    change (head.bound f).hoisted ++ ((Command.mk c (head.stub f) []).hoisted ++
      commandHoisted rest) = (Command.mk c head []).hoisted ++ commandHoisted rest
    rw [hbare, hstub, Expr.hoisted_stub, Expr.hoisted_bound hhead, List.nil_append]
  | arg id decls pre c head before e after post hpre hbefore he =>
    -- What stands in front of the command is plain, so nothing of it is passed by.
    have hnone : commandHoisted pre = [] := by
      rcases hpre with rfl | ⟨l, rfl, hplain⟩
      · rfl
      · rw [commandHoisted, Command.hoisted_of_isPlain hplain]
        rfl
    have hbound := Expr.hoisted_bound (f := f) (Command.paren_or_read_of_hoists he)
    change (e.bound f).hoisted ++ commandHoisted (pre ++ _ :: post) =
      commandHoisted (pre ++ _ :: post)
    rw [commandHoisted_append, commandHoisted_append, hnone, List.nil_append, List.nil_append,
      commandHoisted, commandHoisted, hbound, ← List.append_assoc]
    refine congrArg (· ++ commandHoisted post) ?_
    have haction : (Command.mk c head (before ++ e :: after)).isAction :=
      Command.isAction_of_passed (Pipe.formed_mk.mp hacting).1 (.inr (by simp))
    exact Command.hoisted_arg haction hbefore he
  | split id decls commands hcall => rfl

theorem Pipe.Rewrites.hoisted {role : Role} {p : Pipe Handle} {r : Rewriting (Pipe Handle)}
    (h : Pipe.Rewrites f role p r) (hquiet : p.Quiet) (hacting : p.Acting) :
    r.aheadHoisted ++ r.rest.hoisted = p.hoisted := by
  cases h with
  | here h =>
    obtain ⟨_, _, _, _, hchange, _⟩ := Role.rewrite?_eq_some h
    exact hchange.hoisted hacting
  | @head _ _ _ _ c x inner args _ _ hown =>
    have hparen := Role.no_parens hown hquiet hacting (.mk c (.paren x inner) args) (by simp)
      (.paren x inner) List.mem_cons_self
    cases hparen
  | @arg _ _ _ _ c head before x inner after _ _ hown =>
    have hparen := Role.no_parens hown hquiet hacting
      (.mk c head (before ++ .paren x inner :: after)) (by simp) (.paren x inner)
      (List.mem_cons_of_mem _ (by simp))
    cases hparen

end FlatTemplate

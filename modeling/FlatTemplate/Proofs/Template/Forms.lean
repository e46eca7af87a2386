import FlatTemplate.Proofs.Template.Nesting

namespace FlatTemplate

structure Form where
  head : ExprNode
  bare : Bool
  deriving DecidableEq, Repr

namespace Form

def isAction (c : Form) : Bool := c.head.isIdentifier || c.head.isPathRead || c.head = .atom .dot

def isBoolean : Form → Bool
  | ⟨.atom (.bool _), _⟩ => true
  | _ => false

def rename (g : String → String) : Form → Form
  | ⟨.atom a, bare⟩ => ⟨.atom (a.rename g), bare⟩
  | c => c

section Rename

variable (g : String → String) (c : Form)

@[simp] theorem bare_rename : (c.rename g).bare = c.bare := by
  match c with
  | ⟨.atom _, _⟩ | ⟨.paren _, _⟩ => rfl

@[simp] theorem isIdentifier_rename : (c.rename g).head.isIdentifier = c.head.isIdentifier := by
  match c with
  | ⟨.paren _, _⟩ | ⟨.atom (.var []), _⟩ | ⟨.atom (.var (_ :: _)), _⟩ | ⟨.atom (.field _), _⟩
  | ⟨.atom .dot, _⟩ | ⟨.atom (.identifier _), _⟩ | ⟨.atom (.str _), _⟩ | ⟨.atom (.number _), _⟩
  | ⟨.atom (.bool _), _⟩ => rfl

@[simp] theorem isAction_rename : (c.rename g).isAction = c.isAction := by
  match c with
  | ⟨.paren _, _⟩ | ⟨.atom (.var []), _⟩ | ⟨.atom (.var (_ :: _)), _⟩ | ⟨.atom (.field _), _⟩
  | ⟨.atom .dot, _⟩ | ⟨.atom (.identifier _), _⟩ | ⟨.atom (.str _), _⟩ | ⟨.atom (.number _), _⟩
  | ⟨.atom (.bool _), _⟩ => rfl

@[simp] theorem isBoolean_rename : (c.rename g).isBoolean = c.isBoolean := by
  match c with
  | ⟨.paren _, _⟩ | ⟨.atom (.var []), _⟩ | ⟨.atom (.var (_ :: _)), _⟩ | ⟨.atom (.field _), _⟩
  | ⟨.atom .dot, _⟩ | ⟨.atom (.identifier _), _⟩ | ⟨.atom (.str _), _⟩ | ⟨.atom (.number _), _⟩
  | ⟨.atom (.bool _), _⟩ => rfl

end Rename

end Form

def actionsIn : List Form → Bool
  | [] => true
  | c :: cs => (c.bare || c.isAction) && cs.all Form.isAction

def callsIn : List Form → Bool
  | [] => true
  | c :: cs => (c.bare || c.isAction) && cs.all (·.head.isIdentifier) &&
      (cs.isEmpty || !c.isBoolean)

structure Stable (V : List Form → Bool) : Prop where
  lone (a : Atom) : V [⟨.atom a, true⟩]
  parens (inner : PipeId) (rest : List Form) : V (⟨.paren inner, false⟩ :: rest) = false
  front {pre rest : List Form} (h : V (pre ++ rest)) : V pre
  behind (name : String) {pre rest : List Form} (hpre : pre ≠ []) (h : V (pre ++ rest)) :
    V (⟨.atom (.var [name]), true⟩ :: rest)
  fold {v c : Form} {rest : List Form} (hc : c.head.isIdentifier) (h : V (v :: c :: rest)) :
    V (⟨c.head, false⟩ :: rest)
  rename (g : String → String) (forms : List Form) : V (forms.map (Form.rename g)) = V forms

theorem stable_actionsIn : Stable actionsIn where
  lone _ := rfl
  parens := by simp [actionsIn, Form.isAction, ExprNode.isIdentifier, ExprNode.isPathRead]
  front {pre rest} h := by
    cases pre with
    | nil => rfl
    | cons c pre =>
      simp only [List.cons_append, actionsIn, List.all_append, Bool.and_eq_true] at h ⊢
      exact ⟨h.1, h.2.1⟩
  behind name {pre rest} hpre h := by
    cases pre with
    | nil => exact absurd rfl hpre
    | cons c pre =>
      simp only [List.cons_append, actionsIn, List.all_append, Bool.and_eq_true] at h ⊢
      exact ⟨rfl, h.2.2⟩
  fold hc h := by
    simp only [actionsIn, List.all_cons, Bool.and_eq_true] at h ⊢
    exact ⟨h.2.1, h.2.2⟩
  rename g forms := by
    cases forms with
    | nil => rfl
    | cons c cs => simp [actionsIn, List.all_map, Function.comp_def]

theorem stable_callsIn : Stable callsIn where
  lone _ := rfl
  parens := by simp [callsIn, Form.isAction, ExprNode.isIdentifier, ExprNode.isPathRead]
  front {pre rest} h := by
    rcases pre with _ | ⟨c, _ | ⟨d, pre⟩⟩
    · rfl
    · simp only [List.cons_append, callsIn, Bool.and_eq_true] at h ⊢
      exact ⟨⟨h.1.1, rfl⟩, rfl⟩
    · simp only [List.cons_append, callsIn, List.all_cons, List.all_append,
        Bool.and_eq_true] at h ⊢
      exact ⟨⟨h.1.1, h.1.2.1, h.1.2.2.1⟩, h.2⟩
  behind name {pre rest} hpre h := by
    cases pre with
    | nil => exact absurd rfl hpre
    | cons c pre =>
      simp only [List.cons_append, callsIn, List.all_append, Bool.and_eq_true] at h ⊢
      exact ⟨⟨rfl, h.1.2.2⟩, Bool.or_true _⟩
  fold {v c rest} hc h := by
    obtain ⟨head, bare⟩ := c
    cases head with
    | paren => cases hc
    | atom a =>
      cases a with
      | identifier =>
        simp only [callsIn, List.all_cons, Bool.and_eq_true] at h ⊢
        exact ⟨⟨rfl, h.1.2.2⟩, Bool.or_true _⟩
      | var | field | dot | str | number | bool => cases hc
  rename g forms := by
    cases forms with
    | nil => rfl
    | cons c cs => simp [callsIn, List.all_map, Function.comp_def]

theorem actionsIn_of_callsIn {forms : List Form} (h : callsIn forms) : actionsIn forms := by
  cases forms with
  | nil => rfl
  | cons c cs =>
    simp only [callsIn, actionsIn, Bool.and_eq_true, List.all_eq_true, Form.isAction] at h ⊢
    exact ⟨h.1.1, fun d hd => by simp [h.1.2 d hd]⟩

theorem isEmpty_append_cons {α : Type} (as : List α) (b : α) (bs : List α) :
    (as ++ b :: bs).isEmpty = false := by
  cases as <;> rfl

namespace Command

def form (c : Command Handle) : Form := ⟨c.head.node, c.args.isEmpty⟩

@[simp] theorem form_mk (id : CommandId) (head : Expr Handle) (args : List (Expr Handle)) :
    (Command.mk id head args).form = ⟨head.node, args.isEmpty⟩ := rfl

def isAction (c : Command Handle) : Bool := c.form.isAction

theorem form_rename (g : String → String) (c : Command Handle) :
    (c.rename g).form = c.form.rename g := by
  obtain ⟨id, head, args⟩ := c
  rw [rename, form_mk, form_mk, argRename_eq_map, List.isEmpty_map]
  match head with
  | .atom .. | .paren _ (.mk ..) => rfl

theorem isAction_of_passed {pre post : List (Command Handle)} {c : Command Handle}
    (h : actionsIn ((pre ++ c :: post).map form)) (hpassed : pre ≠ [] ∨ c.args ≠ []) :
    c.isAction := by
  cases pre with
  | nil =>
    rw [List.nil_append, List.map_cons, actionsIn, Bool.and_eq_true, Bool.or_eq_true] at h
    refine h.1.resolve_left fun hargs => ?_
    exact hpassed.elim (fun h => h rfl) fun h => h (List.isEmpty_iff.mp hargs)
  | cons d pre =>
    rw [List.cons_append, List.map_cons, actionsIn, Bool.and_eq_true, List.all_eq_true] at h
    exact h.2 c.form (List.mem_map_of_mem (by simp))

end Command

def FormedIn (V : List Form → Bool) (ps : List (Pipe Handle)) : Prop :=
  ∀ q ∈ ps, V (q.commands.map Command.form)

def Pipe.Formed (V : List Form → Bool) (p : Pipe Handle) : Prop := FormedIn V p.pipes

instance (V : List Form → Bool) (p : Pipe Handle) : Decidable (p.Formed V) :=
  inferInstanceAs (Decidable (∀ q ∈ p.pipes, V (q.commands.map Command.form)))

/-- Commands that are passed something are actions, those in parentheses included. -/
abbrev Pipe.Acting (p : Pipe Handle) : Prop := p.Formed actionsIn

/-- What commands pass on is passed to calls, in parentheses as well. -/
abbrev Pipe.Calling (p : Pipe Handle) : Prop := p.Formed callsIn

theorem Pipe.Calling.acting {p : Pipe Handle} (h : p.Calling) : p.Acting :=
  fun q hq => actionsIn_of_callsIn (h q hq)

section Formed

variable {V : List Form → Bool} {id : PipeId} {decls : List String}
  {commands : List (Command Handle)}

theorem Pipe.formed_mk : (Pipe.mk id decls commands).Formed V ↔
    V (commands.map Command.form) ∧ FormedIn V (commandPipes commands) := by
  rw [Formed, Pipe.pipes, FormedIn, List.forall_mem_cons, Pipe.commands_mk, FormedIn]

theorem formedIn_append {ps qs : List (Pipe Handle)} :
    FormedIn V (ps ++ qs) ↔ FormedIn V ps ∧ FormedIn V qs := List.forall_mem_append

theorem Pipe.formed_rename (hV : Stable V) (g : String → String) {p : Pipe Handle}
    (h : p.Formed V) : (p.rename g).Formed V := by
  intro q hq
  rw [p.pipes_rename g] at hq
  obtain ⟨q, hq', rfl⟩ := List.mem_map.mp hq
  have hforms : (q.rename g).commands.map Command.form =
      (q.commands.map Command.form).map (Form.rename g) := by
    obtain ⟨_, _, commands⟩ := q
    simp [Pipe.rename, commandRename_eq_map, Command.form_rename]
  rw [hforms, hV.rename]
  exact h q hq'

end Formed

section Changes

variable {V : List Form → Bool} {f : Fresh}

theorem Expr.formed_bound (hV : Stable V) {e : Expr Handle} (he : FormedIn V e.pipes) :
    (e.bound f).Formed V := by
  match e with
  | .atom id a => exact Pipe.formed_mk.mpr ⟨hV.lone a, nofun⟩
  | .paren _ (.mk id [] commands) | .paren _ (.mk id (_ :: _) commands) =>
    exact Pipe.formed_mk.mpr (Pipe.formed_mk.mp he)

theorem Fresh.formed_read (hV : Stable V) : (Pipe.mk f.pipe [] [f.read]).Formed V :=
  Pipe.formed_mk.mpr ⟨hV.lone _, nofun⟩

theorem Expr.exists_node_stub (e : Expr Handle) :
    ∃ name, (e.stub f).node = .atom (.var [name]) := by
  obtain ⟨name, _, hstub, -⟩ := e.exists_stub_eq f
  exact ⟨name, by rw [hstub]; rfl⟩

theorem Pipe.Change.formed (hV : Stable V) {pattern : Pattern} {p : Pipe Handle}
    {r : Rewriting (Pipe Handle)} (h : Pipe.Change f pattern p r) (hp : p.Formed V) :
    r.Keeps (Pipe.Formed V) f := by
  cases h with
  | unwrap id decls c x inner commands =>
    have hpipes := (formed_mk.mp hp).2
    rw [commandPipes, Command.pipes, formedIn_append, formedIn_append] at hpipes
    exact ⟨formed_mk.mpr (formed_mk.mp hpipes.1.1), nofun, nofun⟩
  | fold id decls v value c head args rest hcall =>
    rw [formed_mk] at hp
    obtain ⟨hforms, hpipes⟩ := hp
    simp only [commandPipes, Command.pipes, formedIn_append] at hpipes
    obtain ⟨⟨hvalue, -⟩, ⟨hhead, hargs⟩, hrest⟩ := hpipes
    have hfold := hV.fold (c := (Command.mk c head args).form)
      (by rwa [Command.isCall_mk] at hcall) hforms
    refine ⟨formed_mk.mpr ⟨?_, ?_⟩, nofun, nofun⟩
    · simpa [isEmpty_append_cons] using hfold
    · simp only [commandPipes, Command.pipes, argPipes_append, argPipes, formedIn_append]
      exact ⟨⟨hhead, hargs, hvalue, nofun⟩, hrest⟩
  | leading _ rule id decls pre rest why =>
    rw [formed_mk, List.map_append, commandPipes_append, formedIn_append] at hp
    obtain ⟨hforms, hpre, hrest⟩ := hp
    have hread := hV.behind f.name (by simpa using why.ne_nil) hforms
    refine ⟨formed_mk.mpr ⟨hread, hrest⟩, ?_, nofun⟩
    rintro _ ⟨⟩
    exact formed_mk.mpr ⟨hV.front hforms, hpre⟩
  | head _ rule id decls c rest why =>
    obtain ⟨c, head, args⟩ := c
    rw [formed_mk] at hp
    obtain ⟨hforms, hpipes⟩ := hp
    simp only [commandPipes, Command.pipes, formedIn_append] at hpipes
    obtain ⟨⟨hhead, hargs⟩, hrest⟩ := hpipes
    obtain ⟨name, hstub⟩ := head.exists_node_stub (f := f)
    -- Nothing is passed to parentheses, and a path that is read has no arguments.
    obtain rfl : args = [] := by
      refine why.paren_or_read.elim (fun hparen => ?_) And.left
      match head, args with
      | .paren .., [] => rfl
      | .paren .., _ :: _ => cases (hV.parens ..).symm.trans hforms
    refine ⟨formed_mk.mpr ⟨?_, ?_⟩, ?_, nofun⟩
    · have hread := @Stable.behind _ hV name [⟨head.node, true⟩] _ (List.cons_ne_nil _ _) hforms
      simpa [hstub] using hread
    · simp only [commandPipes, Command.pipes, formedIn_append, Expr.pipes_stub]
      exact ⟨⟨nofun, hargs⟩, hrest⟩
    · rintro _ ⟨⟩
      exact Expr.formed_bound hV hhead
  | arg id decls pre c head before e after post hpre hbefore he =>
    rw [formed_mk] at hp
    obtain ⟨hforms, hpipes⟩ := hp
    simp only [commandPipes_append, commandPipes, Command.pipes, argPipes_append, argPipes,
      formedIn_append] at hpipes
    obtain ⟨hpre, ⟨hhead, hbefore, he, hafter⟩, hpost⟩ := hpipes
    refine ⟨formed_mk.mpr ⟨by simpa [isEmpty_append_cons] using hforms, ?_⟩, ?_, nofun⟩
    · simp only [commandPipes_append, commandPipes, Command.pipes, argPipes_append, argPipes,
        formedIn_append, Expr.pipes_stub]
      exact ⟨hpre, ⟨hhead, hbefore, nofun, hafter⟩, hpost⟩
    · rintro _ ⟨⟩
      exact Expr.formed_bound hV he
  | split id decls commands hcall =>
    exact ⟨formed_mk.mpr (formed_mk.mp hp), nofun, fun _ => Fresh.formed_read hV⟩

theorem Pipe.Rewrites.formed (hV : Stable V) {role : Role} {p : Pipe Handle}
    {r : Rewriting (Pipe Handle)} (h : Pipe.Rewrites f role p r) (hp : p.Formed V) :
    r.Keeps (Pipe.Formed V) f := by
  induction h with
  | here h =>
    obtain ⟨_, _, _, _, hchange, _⟩ := Role.rewrite?_eq_some h
    exact hchange.formed hV hp
  | @head role id decls pre c x inner args post r hown hpre h ih =>
    rw [formed_mk] at hp
    obtain ⟨hforms, hpipes⟩ := hp
    simp only [commandPipes_append, commandPipes, Command.pipes, Expr.pipes,
      formedIn_append] at hpipes
    obtain ⟨hpre, ⟨hinner, hargs⟩, hpost⟩ := hpipes
    obtain ⟨hrest, hahead, -⟩ := ih hinner
    refine ⟨formed_mk.mpr ⟨?_, ?_⟩, hahead, fun hedit => absurd hedit (h.edit_ne_split (by simp))⟩
    · simpa [Expr.node, h.rest_tag] using hforms
    · simp only [commandPipes_append, commandPipes, Command.pipes, Expr.pipes, formedIn_append]
      exact ⟨hpre, ⟨hrest, hargs⟩, hpost⟩
  | @arg role id decls pre c head before x inner after post r hown hpre hhead hbefore h ih =>
    rw [formed_mk] at hp
    obtain ⟨hforms, hpipes⟩ := hp
    simp only [commandPipes_append, commandPipes, Command.pipes, Expr.pipes, argPipes_append,
      argPipes, formedIn_append] at hpipes
    obtain ⟨hpre, ⟨hhead, hbefore, hinner, hafter⟩, hpost⟩ := hpipes
    obtain ⟨hrest, hahead, -⟩ := ih hinner
    refine ⟨formed_mk.mpr ⟨?_, ?_⟩, hahead, fun hedit => absurd hedit (h.edit_ne_split (by simp))⟩
    · simpa [isEmpty_append_cons] using hforms
    · simp only [commandPipes_append, commandPipes, Command.pipes, Expr.pipes, argPipes_append,
        argPipes, formedIn_append]
      exact ⟨hpre, ⟨hhead, hbefore, hrest, hafter⟩, hpost⟩

theorem formed_blockRewrite? (hV : Stable V) {b : Block Handle} {r : BlockRewriting}
    (h : blockRewrite? f b = some r) (hb : Governed (Pipe.Formed V) b) :
    Governed (Pipe.Formed V) r.block :=
  governed_blockRewrite? h hb fun _ _ _ hrewrites _ hp => hrewrites.formed hV hp

end Changes

end FlatTemplate

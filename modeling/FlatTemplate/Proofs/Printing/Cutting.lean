import FlatTemplate.Proofs.Printing.Lexemes

namespace FlatTemplate

variable {ι : NodeKind → Type}

def declKinds : List String → List TokenKind
  | [] => []
  | [name] => [.var [name], .declare]
  | name :: names => .var [name] :: .comma :: declKinds names

mutual

def Expr.kinds : Expr ι → List TokenKind
  | .atom _ a => [a.kind]
  | .paren _ inner => .leftParen :: (inner.kinds ++ [.rightParen false])

def argKinds : List (Expr ι) → List TokenKind
  | [] => []
  | e :: es => e.kinds ++ argKinds es

def Command.kinds : Command ι → List TokenKind
  | .mk _ head args => head.kinds ++ argKinds args

def stageKinds : List (Command ι) → List TokenKind
  | [] => []
  | c :: cs => .bar :: (c.kinds ++ stageKinds cs)

def commandKinds : List (Command ι) → List TokenKind
  | [] => []
  | c :: cs => c.kinds ++ stageKinds cs

def Pipe.kinds : Pipe ι → List TokenKind
  | .mk _ decls commands => declKinds decls ++ commandKinds commands

end

namespace Lexer

open Text

inductive Cuts : List Char → List TokenKind → List Char → Prop
  | done (cs : List Char) : Cuts cs [] cs
  | token {cs mid rest : List Char} {kind : TokenKind} {kinds : List TokenKind} :
    Lexes cs kind mid → Cuts mid kinds rest → Cuts cs (kind :: kinds) rest
  | space {cs rest : List Char} {kind : TokenKind} {kinds : List TokenKind} :
    Cuts cs (kind :: kinds) rest → Cuts (' ' :: cs) (kind :: kinds) rest

namespace Cuts

variable {cs mid rest : List Char} {kind : TokenKind} {kinds kinds' : List TokenKind}

theorem single (h : Lexes cs kind rest) : Cuts cs [kind] rest := .token h (.done rest)

theorem append (h : Cuts cs kinds mid) (h' : Cuts mid kinds' rest) :
    Cuts cs (kinds ++ kinds') rest := by
  induction h with
  | done => exact h'
  | token hlexes _ ih => exact .token hlexes (ih h')
  | space _ ih => exact .space (ih h')

theorem spaced (h : Cuts cs kinds rest) (hne : kinds ≠ []) : Cuts (' ' :: cs) kinds rest := by
  cases kinds with
  | nil => exact absurd rfl hne
  | cons kind kinds => exact .space h

end Cuts

section Closing

variable {cs rest : List Char} {kind : TokenKind} {kinds : List TokenKind}

theorem Lexes.closing?_eq_none (h : Lexes cs kind rest) : closing? cs = none := by
  obtain ⟨c, tail, rfl, h⟩ := h
  unfold closing?
  split
  · next heq =>
    obtain ⟨rfl, rfl⟩ := List.cons.inj heq
    cases h
  · next heq =>
    obtain ⟨rfl, rfl⟩ := List.cons.inj heq
    refine if_neg fun hspace => ?_
    simp only [isMarkerSpace, Bool.or_eq_true, decide_eq_true_eq] at hspace
    rcases hspace with (((rfl | rfl) | rfl) | rfl) | rfl <;> cases h
  · rfl

theorem Lexes.closing?_space (h : Lexes cs kind rest) : closing? (' ' :: cs) = none := by
  obtain ⟨c, tail, rfl, h⟩ := h
  unfold closing?
  split
  · next heq => cases heq
  · next heq =>
    obtain ⟨-, heq⟩ := List.cons.inj heq
    obtain ⟨rfl, rfl⟩ := List.cons.inj heq
    cases h
  · rfl

theorem Cuts.closing?_space (h : Cuts cs (kind :: kinds) rest) : closing? (' ' :: cs) = none := by
  cases h with
  | token hlexes _ => exact hlexes.closing?_space
  | space => rfl

end Closing

section ActionTokens

variable {cs mid rest after : List Char} {trims : Bool}

theorem actionTokens_closing (opened : List Char) (h : closing? cs = some (trims, rest)) :
    ∃ h', actionTokens opened cs = .ok ([⟨.closing, cs⟩], trims, ⟨rest, h'⟩) := by
  unfold actionTokens
  split
  · next hclosing =>
    obtain ⟨rfl, rfl⟩ := Prod.mk.inj (Option.some.inj (hclosing.symm.trans h))
    exact ⟨by have := length_of_closing? h; omega, rfl⟩
  · next hclosing => cases hclosing.symm.trans h

theorem actionTokens_cons {opened : List Char} {c : Char} {kind? : Option TokenKind}
    {ts : List Token} {h₁ h₂}
    (hnone : closing? (c :: cs) = none) (hlexeme : lexeme c cs = .ok (kind?, ⟨mid, h₁⟩))
    (htokens : actionTokens opened mid = .ok (ts, trims, ⟨after, h₂⟩)) :
    ∃ h, actionTokens opened (c :: cs) =
      .ok ((kind?.map (⟨·, c :: cs⟩)).toList ++ ts, trims, ⟨after, h⟩) := by
  refine ⟨by simp only [List.length_cons]; omega, ?_⟩
  rw [actionTokens]
  split
  · next hclosing => cases hclosing.symm.trans hnone
  · simp only [hlexeme, ok_bind, htokens]
    rfl

theorem Cuts.actionTokens {kinds : List TokenKind} (h : Cuts cs kinds rest)
    (opened : List Char) (hrest : closing? rest = some (trims, after)) :
    ∃ ts h, actionTokens opened cs = .ok (ts, trims, ⟨after, h⟩) ∧
      ts.map Token.kind = kinds ++ [.closing] := by
  induction h with
  | done cs =>
    obtain ⟨h', htokens⟩ := actionTokens_closing opened hrest
    exact ⟨_, h', htokens, rfl⟩
  | token hlexes _ ih =>
    obtain ⟨ts, h', htokens, hkinds⟩ := ih hrest
    have hnone := hlexes.closing?_eq_none
    obtain ⟨c, tail, rfl, hlexeme⟩ := hlexes
    obtain ⟨_, hlexeme⟩ := apart_eq_ok hlexeme
    obtain ⟨h', htokens⟩ := actionTokens_cons hnone hlexeme htokens
    exact ⟨_, h', htokens, congrArg (List.cons _) hkinds⟩
  | @space cs _ _ _ hcuts ih =>
    obtain ⟨ts, h', htokens, hkinds⟩ := ih hrest
    have hblank : lexeme ' ' cs = .ok (none, ⟨cs, Nat.le_refl _⟩) := rfl
    obtain ⟨h', htokens⟩ := actionTokens_cons hcuts.closing?_space hblank htokens
    exact ⟨_, h', htokens, hkinds⟩

end ActionTokens

theorem stops_cons {c : Char} (hc : c ∈ [' ', ')', ',', '}']) (cs : List Char) : Stops (c :: cs) :=
  ⟨c, cs, rfl, hc⟩

theorem Stops.args {rest : List Char} (h : Stops rest) (es : List (Expr ι)) :
    Stops (printArgs es ++ rest) := by
  cases es with
  | nil => exact h
  | cons e es => exact stops_cons (by decide) _

theorem Stops.stages {rest : List Char} (h : Stops rest) (cs : List (Command ι)) :
    Stops (printStages cs ++ rest) := by
  cases cs with
  | nil => exact h
  | cons c cs => exact stops_cons (by decide) _

theorem kinds_expr_ne_nil (e : Expr ι) : e.kinds ≠ [] := by
  cases e <;> exact List.cons_ne_nil _ _

theorem kinds_command_ne_nil (c : Command ι) : c.kinds ≠ [] := by
  obtain ⟨_, head, args⟩ := c
  exact List.append_ne_nil_of_left_ne_nil (kinds_expr_ne_nil head) _

theorem kinds_pipe_ne_nil {limit : Parser.DeclLimit} {p : Pipe ι} (h : p.Legible limit) :
    p.kinds ≠ [] := by
  obtain ⟨_, decls, commands⟩ := p
  cases commands with
  | nil => exact absurd rfl h.2.2.1
  | cons c commands =>
    exact List.append_ne_nil_of_right_ne_nil _
      (List.append_ne_nil_of_left_ne_nil (kinds_command_ne_nil c) _)

theorem lexes_name {name : String} (h : isVariableName name.toList = true) {rest : List Char}
    (hrest : Stops rest) : Lexes (name.toList ++ rest) (.var [name]) rest :=
  lexes_var h (List.forall_mem_nil _) hrest

theorem kinds_decls_ne_nil {names : List String} (h : names ≠ []) : declKinds names ≠ [] := by
  match names with
  | [_] | _ :: _ :: _ => exact List.cons_ne_nil _ _

theorem cuts_names {names : List String} (hne : names ≠ [])
    (h : ∀ name ∈ names, isVariableName name.toList) (rest : List Char) :
    Cuts (printNames names ++ ' ' :: ':' :: '=' :: rest) (declKinds names) rest := by
  induction names with
  | nil => exact absurd rfl hne
  | cons name names ih =>
    obtain ⟨hname, hnames⟩ := List.forall_mem_cons.mp h
    cases names with
    | nil =>
      refine .token (lexes_name hname ?_) (.space (.single (lexes_declare rest)))
      exact stops_cons (by decide) _
    | cons name' names =>
      rw [printNames, List.append_assoc]
      · refine .token (lexes_name hname (stops_cons (by decide) _)) (.token (lexes_comma _) ?_)
        have hne := List.cons_ne_nil name' names
        exact (ih hne hnames).spaced (kinds_decls_ne_nil hne)
      · nofun

theorem cuts_decls {names : List String} {rest after : List Char} {kinds : List TokenKind}
    (h : ∀ name ∈ names, isVariableName name.toList) (hrest : Cuts rest kinds after)
    (hne : kinds ≠ []) : Cuts (printDecls names ++ rest) (declKinds names ++ kinds) after := by
  cases names with
  | nil => exact hrest
  | cons name names =>
    rw [printDecls, List.append_assoc]
    · exact (cuts_names (List.cons_ne_nil _ _) h _).append (hrest.spaced hne)
    · nofun

mutual

theorem cuts_expr {e : Expr ι} (he : e.Legible) {rest : List Char} (hrest : Stops rest) :
    Cuts (e.print ++ rest) e.kinds rest := by
  cases e with
  | atom _ a => exact .single (lexes_atom he hrest)
  | paren _ inner =>
    rw [Expr.print, List.cons_append, List.append_assoc, Expr.kinds]
    exact .token (lexes_leftParen _) ((cuts_pipe he (stops_cons (by decide) _)).append
      (.single (lexes_rightParen hrest)))

theorem cuts_args {es : List (Expr ι)} (hes : ArgsLegible es) {rest : List Char}
    (hrest : Stops rest) : Cuts (printArgs es ++ rest) (argKinds es) rest := by
  cases es with
  | nil => exact .done rest
  | cons e es =>
    rw [printArgs, List.cons_append, List.append_assoc, argKinds]
    exact ((cuts_expr hes.1 (hrest.args es)).spaced (kinds_expr_ne_nil e)).append
      (cuts_args hes.2 hrest)

theorem cuts_command {c : Command ι} (hc : c.Legible) {rest : List Char} (hrest : Stops rest) :
    Cuts (c.print ++ rest) c.kinds rest := by
  obtain ⟨_, head, args⟩ := c
  rw [Command.print, List.append_assoc, Command.kinds]
  exact (cuts_expr hc.1 (hrest.args args)).append (cuts_args hc.2 hrest)

theorem cuts_stages {cs : List (Command ι)} (hcs : CommandsLegible cs) {rest : List Char}
    (hrest : Stops rest) : Cuts (printStages cs ++ rest) (stageKinds cs) rest := by
  cases cs with
  | nil => exact .done rest
  | cons c cs =>
    rw [printStages, stageKinds]
    simp only [List.cons_append, List.append_assoc]
    exact .space (.token (lexes_bar _) (((cuts_command hcs.1 (hrest.stages cs)).append
      (cuts_stages hcs.2 hrest)).spaced
        (List.append_ne_nil_of_left_ne_nil (kinds_command_ne_nil c) _)))

theorem cuts_pipe {limit : Parser.DeclLimit} {p : Pipe ι} (hp : p.Legible limit)
    {rest : List Char} (hrest : Stops rest) : Cuts (p.print ++ rest) p.kinds rest := by
  obtain ⟨_, decls, commands⟩ := p
  obtain ⟨-, hdecls, hne, hcommands⟩ := hp
  cases commands with
  | nil => exact absurd rfl hne
  | cons c cs =>
    rw [Pipe.print, List.append_assoc, Pipe.kinds]
    have hcs : Cuts (printCommands (c :: cs) ++ rest) (commandKinds (c :: cs)) rest := by
      rw [printCommands, List.append_assoc, commandKinds]
      exact (cuts_command hcommands.1 (hrest.stages cs)).append (cuts_stages hcommands.2 hrest)
    exact cuts_decls hdecls hcs (List.append_ne_nil_of_left_ne_nil (kinds_command_ne_nil c) _)

end

end Lexer

end FlatTemplate

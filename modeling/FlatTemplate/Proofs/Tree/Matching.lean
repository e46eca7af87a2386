import FlatTemplate.Proofs.Template.Changes
import FlatTemplate.Proofs.Tree.Holding

namespace FlatTemplate

namespace Tree

variable {t : Tree}

theorem viewCommand_of_has {c : Command Handle} (has : ∀ x ∈ c.entries, t.Has x) :
    t.viewCommand c.tag = .ok c.view := by
  obtain ⟨id, head, args⟩ := c
  have hc := get_command has
  have hh := get_node (e := head) fun x hm => has x (by simp [Command.entries, hm])
  simp only [Command.tag_mk, Command.head_mk, Command.args_mk] at hc
  simp [viewCommand, hc, hh, Command.view]

theorem findExpr?_of_has (p : ExprNode → Bool) {es : List (Expr Handle)}
    (has : ∀ x ∈ argEntries es, t.Has x) (i : Nat) :
    t.findExpr? p i (es.map Expr.tag) =
      .ok ((splitFirst (fun e => p e.node) es).map fun (before, e, _) =>
        (i + before.length, e.node)) := by
  induction es generalizing i with
  | nil => rfl
  | cons e es ih =>
    have he := get_node (e := e) fun x hm => has x (by simp [argEntries, hm])
    have hes := ih (fun x hm => has x (by simp [argEntries, hm])) (i + 1)
    rw [List.map_cons, findExpr?, he, ok_bind, splitFirst]
    by_cases hp : p e.node
    · simp [hp]
    · simp only [hp, Bool.false_eq_true, ↓reduceIte, hes, Option.map_map]
      congr 2
      funext found
      obtain ⟨before, e', after⟩ := found
      simp only [Function.comp_apply, List.length_cons, Prod.mk.injEq, and_true]
      omega

theorem hoistableIn?_of_has {c : Command Handle} (has : ∀ x ∈ c.entries, t.Has x) :
    t.hoistableIn? c.view =
      .ok ((splitFirst c.hoists c.args).map fun (before, e, _) => (before.length, e.node)) := by
  obtain ⟨id, head, args⟩ := c
  have hargs := findExpr?_of_has (Command.mk id head args).view.hoists
    (fun x (hm : x ∈ argEntries args) => has x (by simp [Command.entries, hm])) 0
  rw [hoistableIn?]
  split
  · simp only [Nat.zero_add] at hargs
    exact hargs
  · next hc =>
    have hnone : splitFirst (Command.mk id head args).hoists args = none := by
      rw [splitFirst_eq_none]
      intro e _
      simp only [Bool.or_eq_true, not_or, Bool.not_eq_true] at hc
      simp [Command.hoists, CommandView.hoists, hc.1, hc.2]
    simp [Command.args, hnone]

theorem hoistsIn_of_has {c : Command Handle} (has : ∀ x ∈ c.entries, t.Has x) :
    t.hoistsIn c.view = .ok c.hasHoistable := by
  rw [hoistsIn, hoistableIn?_of_has has]
  cases h : splitFirst c.hoists c.args with
  | none => simpa [Command.hasHoistable] using splitFirst_eq_none.mp h
  | some x =>
    obtain ⟨before, e, after⟩ := x
    obtain ⟨he, hx, _⟩ := splitFirst_eq_some h
    simp [Command.hasHoistable, he, hx]

def argOf (i : Nat) (c : Command Handle) (pre : List (Command Handle))
    (before : List (Expr Handle)) (e : Expr Handle) : HoistableArg :=
  ⟨i + pre.length, c.view, before.length, e.node⟩

theorem hoistableArg?_of_has {cs : List (Command Handle)}
    (has : ∀ x ∈ commandEntries cs, t.Has x) (i : Nat) :
    t.hoistableArg? i (cs.map Command.tag) =
      .ok ((splitFirst Command.hasHoistable cs).bind fun (pre, c, _) =>
        (splitFirst c.hoists c.args).map fun (before, e, _) => argOf i c pre before e) := by
  induction cs generalizing i with
  | nil => rfl
  | cons c cs ih =>
    have hc : ∀ x ∈ c.entries, t.Has x := fun x hm => has x (by simp [commandEntries, hm])
    have hcs := ih (fun x hm => has x (by simp [commandEntries, hm])) (i + 1)
    rw [List.map_cons, hoistableArg?, viewCommand_of_has hc, ok_bind, hoistableIn?_of_has hc,
      ok_bind]
    cases h : splitFirst c.hoists c.args with
    | some x =>
      obtain ⟨before, e, after⟩ := x
      obtain ⟨he, hx, _⟩ := splitFirst_eq_some h
      have hany : c.hasHoistable = true := by simp [Command.hasHoistable, he, hx]
      simp [splitFirst, hany, h, argOf]
    | none =>
      have hany : c.hasHoistable = false := by
        simpa [Command.hasHoistable] using splitFirst_eq_none.mp h
      simp only [Option.map_none, hcs, splitFirst, hany, Bool.false_eq_true, ↓reduceIte]
      cases splitFirst Command.hasHoistable cs with
      | none => rfl
      | some y =>
        obtain ⟨pre, d, post⟩ := y
        simp only [Option.bind_some, Option.map_some]
        congr 3
        funext found
        obtain ⟨before, e, after⟩ := found
        simp only [argOf, List.length_cons, HoistableArg.mk.injEq, and_true]
        omega

section Patterns

variable {p : Pipe Handle} (f : Fresh)

theorem redundantParens_of_has (has : ∀ x ∈ p.entries, t.Has x) :
    Pattern.redundantParens? t p.tag (p.commands.map Command.tag) =
      .ok ((Pattern.redundantParens.rewrite? f p).map Rewriting.found) := by
  obtain ⟨id, decls, commands⟩ := p
  match commands with
  | [] => rfl
  | [.mk c head args] =>
    have hc : ∀ x ∈ (Command.mk c head args).entries, t.Has x :=
      fun x hm => has x (by simp [Pipe.entries, commandEntries, hm])
    simp only [Pipe.commands, Pipe.tag, List.map_cons, List.map_nil, Pattern.redundantParens?,
      viewCommand_of_has hc, ok_bind]
    cases head with
    | atom e a => cases args <;> rfl
    | paren e inner =>
      have hi := get_pipe (p := inner) fun x hm =>
        hc x (by simp [Command.entries, Expr.entries, hm])
      obtain ⟨i, names, cs⟩ := inner
      cases args with
      | cons => cases names <;> rfl
      | nil =>
        simp only [Pipe.tag] at hi
        cases names <;> simp [Command.view, Expr.node, CommandView.isBare, hi, Pattern.rewrite?]
  | _ :: _ :: _ => simp [Pattern.redundantParens?, Pattern.rewrite?]

theorem viewCommands_of_has (has : ∀ x ∈ p.entries, t.Has x) :
    ∀ c ∈ p.commands, t.viewCommand c.tag = .ok c.view := by
  obtain ⟨id, decls, commands⟩ := p
  intro c hc
  exact viewCommand_of_has fun x hm =>
    has x (List.mem_cons_of_mem _ (mem_commandEntries.mpr ⟨c, hc, hm⟩))

theorem hoistableOperand_of_has (has : ∀ x ∈ p.entries, t.Has x) :
    Pattern.hoistableOperand? t p.tag (p.commands.map Command.tag) =
      .ok ((Pattern.hoistableOperand.rewrite? f p).map Rewriting.found) := by
  have hview := viewCommands_of_has has
  obtain ⟨id, decls, commands⟩ := p
  have hfind := hoistableArg?_of_has
    (fun x (hm : x ∈ commandEntries commands) => has x (by simp [Pipe.entries, hm])) 0
  cases commands with
  | nil => rfl
  | cons first rest =>
    simp only [Pipe.commands_mk, List.map_cons, Pipe.tag_mk, Pattern.hoistableOperand?,
      Pattern.rewrite?] at hview hfind ⊢
    rw [hfind, ok_bind]
    cases h : splitFirst Command.hasHoistable (first :: rest) with
    | none => rfl
    | some x =>
      obtain ⟨pre, c, post⟩ := x
      simp only [Option.bind_some, Pipe.bindOperand]
      cases splitFirst c.hoists c.args with
      | none => rfl
      | some y =>
        obtain ⟨before, e, after⟩ := y
        obtain ⟨happ, -, -⟩ := splitFirst_eq_some h
        have hfirst := hview first (by simp)
        simp only [Option.map_some, hfirst, ok_bind, pure_eq_ok]
        congr 2
        cases pre with
        | nil =>
          simp only [HoistableArg.toMatch, argOf, List.length_nil, Nat.add_zero, true_or, if_true,
            Pipe.bindArg, Command.view_id]
          rfl
        | cons l pre =>
          obtain ⟨rfl, -⟩ := List.cons.inj happ
          cases pre with
          | nil =>
            simp only [HoistableArg.toMatch, argOf, List.length_singleton, Nat.zero_add, true_and,
              Nat.one_ne_zero, false_or, List.isEmpty_nil, Bool.true_and, Command.view_head,
              Bool.and_eq_true]
            split
            · rfl
            · split
              · rfl
              · split
                · rfl
                · rfl
          | cons l' pre => simp [HoistableArg.toMatch, argOf, Pipe.bindLeading]

theorem leadingMethodCall_of_has (has : ∀ x ∈ p.entries, t.Has x) :
    Pattern.leadingMethodCall? t p.tag (p.commands.map Command.tag) =
      .ok ((Pattern.leadingMethodCall.rewrite? f p).map Rewriting.found) := by
  have hview := viewCommands_of_has has
  obtain ⟨id, decls, commands⟩ := p
  match commands with
  | [] => rfl
  | [_] => rfl
  | c :: d :: rest =>
    have hc := hview c (by simp)
    simp only [Pipe.commands_mk, List.map_cons, Pipe.tag_mk, Pattern.leadingMethodCall?, hc,
      ok_bind, Pattern.rewrite?]
    split <;> rfl

theorem loneRead_of_has (has : ∀ x ∈ p.entries, t.Has x) :
    Pattern.loneRead? t p.tag (p.commands.map Command.tag) =
      .ok ((Pattern.loneRead.rewrite? f p).map Rewriting.found) := by
  have hview := viewCommands_of_has has
  obtain ⟨id, decls, commands⟩ := p
  match commands with
  | [] => rfl
  | _ :: _ :: _ => rfl
  | [c] =>
    have hc := hview c (by simp)
    simp only [Pipe.commands_mk, List.map_cons, List.map_nil, Pipe.tag_mk, Pattern.loneRead?, hc,
      ok_bind, Pattern.rewrite?]
    split
    · next h => simp [show c.head.node.isPathRead || c.view.isMethodCall from h, Pipe.bindLeading]
    · next h => simp [show ¬(c.head.node.isPathRead || c.view.isMethodCall) from h]

theorem printedCall_of_has (has : ∀ x ∈ p.entries, t.Has x) :
    Pattern.printedCall? t p.tag (p.commands.map Command.tag) =
      .ok ((Pattern.printedCall.rewrite? f p).map Rewriting.found) := by
  have hview := viewCommands_of_has has
  obtain ⟨id, decls, commands⟩ := p
  have hany : (commands.map Command.tag).anyM
      (fun id => return (← t.viewCommand id).isCall) = .ok (commands.any (·.view.isCall)) :=
    anyM_map_eq_ok fun c hc => by rw [hview c hc]; rfl
  simp only [Pipe.commands_mk, Pattern.printedCall?, Pattern.rewrite?, hany, ok_bind]
  split <;> rfl

theorem pipedValue_of_has (has : ∀ x ∈ p.entries, t.Has x) :
    Pattern.pipedValue? t p.tag (p.commands.map Command.tag) =
      .ok ((Pattern.pipedValue.rewrite? f p).map Rewriting.found) := by
  have hview := viewCommands_of_has has
  obtain ⟨id, decls, commands⟩ := p
  match commands with
  | [] => rfl
  | [_] => rfl
  | v :: c :: rest =>
    have hv := hview v (by simp)
    have hc := hview c (by simp)
    have hi := hoistsIn_of_has (t := t) (c := c) fun x hm =>
      has x (by simp [Pipe.entries, commandEntries, hm])
    simp only [Pipe.commands_mk, List.map_cons, Pipe.tag_mk, Pattern.pipedValue?, hc, hv,
      ok_bind, Pattern.rewrite?, Command.view_head]
    by_cases hcall : c.view.isCall
    · by_cases hvalue : v.view.isBare && v.head.node.isFoldable
      · by_cases hpath : v.head.node.isPathRead
        · by_cases hhoist : c.hasHoistable
          · simp [hcall, hvalue, hpath, hhoist, hi]
          · simp [hcall, hvalue, hpath, hhoist, hi]
        · simp [hcall, hvalue, hpath]
      · simp [hcall, hvalue]
    · simp [hcall]

theorem leadingParens_of_has (has : ∀ x ∈ p.entries, t.Has x) :
    Pattern.leadingParens? t p.tag (p.commands.map Command.tag) =
      .ok ((Pattern.leadingParens.rewrite? f p).map Rewriting.found) := by
  have hview := viewCommands_of_has has
  obtain ⟨id, decls, commands⟩ := p
  match commands with
  | [] => rfl
  | [_] => rfl
  | c :: d :: rest =>
    have hc := hview c (by simp)
    simp only [Pipe.commands_mk, List.map_cons, Pipe.tag_mk, Pattern.leadingParens?, hc, ok_bind,
      Pattern.rewrite?, Command.view]
    split <;> rfl

theorem leadingCalls_of_has (has : ∀ x ∈ p.entries, t.Has x) :
    Pattern.leadingCalls? t p.tag (p.commands.map Command.tag) =
      .ok ((Pattern.leadingCalls.rewrite? f p).map Rewriting.found) := by
  have hview := viewCommands_of_has has
  obtain ⟨id, decls, commands⟩ := p
  match commands with
  | [] => rfl
  | [_] => rfl
  | c :: d :: rest =>
    have hc := hview c (by simp)
    have hd := hview d (by simp)
    simp only [Pipe.commands_mk, List.map_cons, Pipe.tag_mk, Pattern.leadingCalls?, hc, hd,
      ok_bind, Pattern.rewrite?]
    cases c.view.isCall <;> cases d.view.isCall <;> rfl

theorem loneCall_of_has (has : ∀ x ∈ p.entries, t.Has x) :
    Pattern.loneCall? t p.tag (p.commands.map Command.tag) =
      .ok ((Pattern.loneCall.rewrite? f p).map Rewriting.found) := by
  have hview := viewCommands_of_has has
  obtain ⟨id, decls, commands⟩ := p
  match commands with
  | [] => rfl
  | _ :: _ :: _ => rfl
  | [c] =>
    have hc := hview c (by simp)
    simp only [Pipe.commands_mk, List.map_cons, List.map_nil, Pipe.tag_mk, Pattern.loneCall?, hc,
      ok_bind, Pattern.rewrite?]
    split <;> rfl

theorem match?_of_has (role : Role) (has : ∀ x ∈ p.entries, t.Has x) :
    role.match? t p.tag (p.commands.map Command.tag) =
      .ok ((role.rewrite? f p).map Rewriting.found) := by
  have hpattern (pattern : Pattern) : pattern.match? t p.tag (p.commands.map Command.tag) =
      .ok ((pattern.rewrite? f p).map Rewriting.found) := by
    cases pattern with
    | redundantParens => exact redundantParens_of_has f has
    | hoistableOperand => exact hoistableOperand_of_has f has
    | leadingMethodCall => exact leadingMethodCall_of_has f has
    | loneRead => exact loneRead_of_has f has
    | printedCall => exact printedCall_of_has f has
    | pipedValue => exact pipedValue_of_has f has
    | leadingParens => exact leadingParens_of_has f has
    | leadingCalls => exact leadingCalls_of_has f has
    | loneCall => exact loneCall_of_has f has
  have hfind := findSomeM?_map_eq_ok (g := id)
    (f := fun pattern : Pattern => pattern.match? t p.tag (p.commands.map Command.tag))
    fun pattern (_ : pattern ∈ role.patterns) => hpattern pattern
  rw [List.map_id] at hfind
  rw [Role.match?, hfind, Role.rewrite?]
  congr 1
  induction role.patterns with
  | nil => rfl
  | cons pattern patterns ih =>
    rw [List.findSome?_cons, List.findSome?_cons]
    cases pattern.rewrite? f p with
    | none => exact ih
    | some r => rfl

end Patterns

end Tree

end FlatTemplate

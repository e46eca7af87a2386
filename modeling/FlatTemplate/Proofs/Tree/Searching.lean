import FlatTemplate.Proofs.Tree.Matching

namespace FlatTemplate

namespace Tree

variable {t : Tree}

section Search

variable (f : Fresh)

theorem argRewrite?_found (es : List (Expr Handle)) :
    (argRewrite? f es).map Rewriting.found =
      es.findSome? fun e => (e.rewrite? f).map Rewriting.found := by
  induction es with
  | nil => rfl
  | cons e es ih =>
    rw [argRewrite?, List.findSome?_cons]
    cases e.rewrite? f with
    | some r => rfl
    | none => simpa [Function.comp_def, Rewriting.map] using ih

theorem command_rewrite?_found (c : Command Handle) :
    (c.rewrite? f).map Rewriting.found =
      (c.head :: c.args).findSome? fun e => (e.rewrite? f).map Rewriting.found := by
  obtain ⟨id, head, args⟩ := c
  rw [Command.rewrite?, List.findSome?_cons, Command.head_mk, Command.args_mk]
  cases head.rewrite? f with
  | some r => rfl
  | none => simpa [Function.comp_def, Rewriting.map] using argRewrite?_found f args

theorem commandRewrite?_found (cs : List (Command Handle)) :
    (commandRewrite? f cs).map Rewriting.found =
      cs.findSome? fun c => (c.rewrite? f).map Rewriting.found := by
  induction cs with
  | nil => rfl
  | cons c cs ih =>
    rw [commandRewrite?, List.findSome?_cons]
    cases c.rewrite? f with
    | some r => rfl
    | none => simpa [Function.comp_def, Rewriting.map] using ih

def matchOperand? (t : Tree) (depth : Nat) (operand : ExprId) : Except Fault (Option Match) := do
  match ← t.exprs.get operand with
  | .atom _ => return none
  | .paren inner => t.matchWithin? depth .nested inner

mutual

theorem matchOperand?_of_has (d : Nat) (e : Expr Handle) (has : ∀ x ∈ e.entries, t.Has x)
    (hd : countKind .pipe e.entries ≤ d) :
    t.matchOperand? d e.tag = .ok ((e.rewrite? f).map Rewriting.found) := by
  have he := get_node has
  cases e with
  | atom id a => simp only [Expr.tag_atom] at he; simp [matchOperand?, Expr.rewrite?, he, Expr.node]
  | paren id inner =>
    have hi := matchWithin?_of_has d .nested inner (fun x hm => has x (by simp [Expr.entries, hm]))
      (by simpa [Expr.entries, Entry.key] using hd)
    simp only [Expr.tag_paren] at he
    simp [matchOperand?, Expr.rewrite?, he, Expr.node, hi, Function.comp_def, Rewriting.map]

theorem matchOperands_of_has (d : Nat) (es : List (Expr Handle))
    (has : ∀ x ∈ argEntries es, t.Has x) (hd : countKind .pipe (argEntries es) ≤ d) :
    ∀ e ∈ es, t.matchOperand? d e.tag = .ok ((e.rewrite? f).map Rewriting.found) := by
  cases es with
  | nil => simp
  | cons e es =>
    simp only [argEntries, countKind_append] at hd
    have he := matchOperand?_of_has d e (fun x hm => has x (by simp [argEntries, hm])) (by omega)
    have hes := matchOperands_of_has d es (fun x hm => has x (by simp [argEntries, hm])) (by omega)
    simpa using ⟨he, hes⟩

theorem matchCommands_of_has (d : Nat) (cs : List (Command Handle))
    (has : ∀ x ∈ commandEntries cs, t.Has x) (hd : countKind .pipe (commandEntries cs) ≤ d) :
    ∀ c ∈ cs, ((c.head :: c.args).map Expr.tag).findSomeM? (t.matchOperand? d) =
      .ok ((c.rewrite? f).map Rewriting.found) := by
  cases cs with
  | nil => simp
  | cons c cs =>
    obtain ⟨id, head, args⟩ := c
    simp only [commandEntries, Command.entries, countKind_append, countKind_cons, Entry.key] at hd
    have hh := matchOperand?_of_has d head
      (fun x hm => has x (by simp [commandEntries, Command.entries, hm])) (by omega)
    have ha := matchOperands_of_has d args
      (fun x hm => has x (by simp [commandEntries, Command.entries, hm])) (by omega)
    have hcs := matchCommands_of_has d cs (fun x hm => has x (by simp [commandEntries, hm]))
      (by omega)
    have hc : ∀ e ∈ head :: args,
        t.matchOperand? d e.tag = .ok ((e.rewrite? f).map Rewriting.found) := by
      simpa using ⟨hh, ha⟩
    have hfound := findSomeM?_map_eq_ok hc
    rw [show (head :: args).findSome? _ = _ from (command_rewrite?_found f (.mk id head args)).symm]
      at hfound
    simpa using ⟨hfound, hcs⟩

theorem matchWithin?_of_has (d : Nat) (role : Role) (p : Pipe Handle)
    (has : ∀ x ∈ p.entries, t.Has x) (hd : countKind .pipe p.entries ≤ d) :
    t.matchWithin? d role p.tag = .ok ((p.rewrite? f role).map Rewriting.found) := by
  have hp := get_pipe has
  have hrole := match?_of_has f role has
  obtain ⟨id, decls, commands⟩ := p
  simp only [Pipe.entries, countKind_cons, Entry.key, if_true] at hd
  obtain ⟨d, rfl⟩ : ∃ d', d = d' + 1 := ⟨d - 1, by omega⟩
  have hget : ∀ c ∈ commands,
      (do (← t.commands.get c.tag).operands.findSomeM? (t.matchOperand? d)) =
        .ok ((c.rewrite? f).map Rewriting.found) := by
    intro c hc
    have hcommand := get_command (t := t) (c := c) fun x hm =>
      has x (List.mem_cons_of_mem _ (mem_commandEntries.mpr ⟨c, hc, hm⟩))
    rw [hcommand, ok_bind]
    exact matchCommands_of_has d commands (fun x hm => has x (by simp [Pipe.entries, hm]))
      (by omega) c hc
  have hfound := findSomeM?_map_eq_ok (g := Command.tag)
    (f := fun c => do (← t.commands.get c).operands.findSomeM? (t.matchOperand? d)) hget
  rw [← commandRewrite?_found] at hfound
  simp only [Pipe.tag_mk, Pipe.decls_mk, Pipe.commands_mk] at hp hrole
  rw [matchWithin?, Pipe.tag_mk, hp, ok_bind]
  simp only [hrole, ok_bind, Pipe.rewrite?]
  cases role.rewrite? f (.mk id decls commands) with
  | some r => rfl
  | none =>
    simp only [Option.map_none, Option.map_map, Function.comp_def, Rewriting.map]
    exact hfound

end

theorem planPipe?_of_has (host : StmtId) (role : Role) {p : Pipe Handle}
    (has : ∀ x ∈ p.entries, t.Has x) (nodup : (p.entries.map Entry.key).Nodup) :
    t.planPipe? host role p.tag =
      .ok ((p.rewrite? f role).map fun r => { r.found with host }) := by
  have hd := countKind_le_arenaSize .pipe has nodup
  have hp := matchWithin?_of_has f (t.pipes.size + 1) role p has (Nat.le_succ_of_le hd)
  rw [planPipe?, hp, ok_bind, pure_eq_ok, Option.map_map]
  rfl

theorem blockRewrite?_plan (b : Block Handle) :
    (blockRewrite? f b).map BlockRewriting.plan =
      b.findSome? fun s => (s.rewrite? f).map BlockRewriting.plan := by
  induction b with
  | nil => rfl
  | cons s b ih =>
    rw [blockRewrite?, List.findSome?_cons]
    cases s.rewrite? f with
    | some r => rfl
    | none => simpa [Function.comp_def] using ih

mutual

theorem planStmtWithin?_of_has (d : Nat) (s : Stmt Handle) (has : ∀ x ∈ s.entries, t.Has x)
    (nodup : (s.entries.map Entry.key).Nodup) (hd : countKind .stmt s.entries ≤ d) :
    t.planStmtWithin? d s.tag = .ok ((s.rewrite? f).map BlockRewriting.plan) := by
  obtain ⟨d, rfl⟩ := Nat.exists_eq_add_one_of_ne_zero (Stmt.ne_zero_of_countKind_le hd)
  rw [planStmtWithin?, get_stmt has, ok_bind]
  match s with
  | .text id text | .invoke id name none => rfl
  | .action id p =>
    have hhas : ∀ x ∈ p.entries, t.Has x := fun x hm => has x (List.mem_cons_of_mem _ hm)
    have hrole : t.actionRole p.tag = .ok p.actionRole := by
      rw [actionRole, get_pipe hhas, ok_bind, pure_eq_ok, Pipe.actionRole]
    have hp := planPipe?_of_has f id p.actionRole hhas
      (nodup.sublist ((List.sublist_cons_self _ _).map _))
    simp only [Stmt.node, Stmt.tag, ok_bind, hrole, hp, Stmt.rewrite?, Stmt.rewriteOwn?,
      Option.map_map]
    rfl
  | .invoke id name (some p) =>
    have hp := planPipe?_of_has f id .subject (fun x hm => has x (List.mem_cons_of_mem _ hm))
      (nodup.sublist ((List.sublist_cons_self _ _).map _))
    simp only [Stmt.node, Stmt.tag, Option.map_some, hp, Stmt.rewrite?, Stmt.rewriteOwn?,
      Option.map_map]
    rfl
  | .branch id kind p body elseBody =>
    simp only [Stmt.entries, countKind_cons, countKind_append, Entry.key, if_true, List.map_cons,
      List.map_append, List.nodup_cons, List.nodup_append] at hd nodup
    have hp := planPipe?_of_has f id .subject
      (fun x hm => has x (by simp [Stmt.entries, hm])) nodup.2.1.1
    have hb := planStmts_of_has d body (fun x hm => has x (by simp [Stmt.entries, hm]))
      nodup.2.1.2.1 (by omega)
    have he := planStmts_of_has d elseBody (fun x hm => has x (by simp [Stmt.entries, hm]))
      nodup.2.2.1 (by omega)
    simp only [Stmt.node, Stmt.tag, ok_bind, hp, hb, he, Stmt.rewrite?, Stmt.rewriteOwn?]
    cases p.rewrite? f .subject with
    | some r => rfl
    | none =>
      cases blockRewrite? f body with
      | some r => rfl
      | none => simp [Function.comp_def]

theorem planStmts_of_has (d : Nat) (b : Block Handle) (has : ∀ x ∈ blockEntries b, t.Has x)
    (nodup : (blockKeys b).Nodup) (hd : countKind .stmt (blockEntries b) ≤ d) :
    (b.map Stmt.tag).findSomeM? (t.planStmtWithin? d) =
      .ok ((blockRewrite? f b).map BlockRewriting.plan) := by
  rw [blockRewrite?_plan]
  cases b with
  | nil => rfl
  | cons s b =>
    simp only [blockKeys, blockEntries, List.map_append, List.nodup_append, countKind_append]
      at nodup hd
    have hs := planStmtWithin?_of_has d s (fun x hm => has x (by simp [blockEntries, hm]))
      nodup.1 (by omega)
    have hb := planStmts_of_has d b (fun x hm => has x (by simp [blockEntries, hm]))
      nodup.2.1 (by omega)
    rw [blockRewrite?_plan] at hb
    rw [List.map_cons, List.findSomeM?_cons, hs, ok_bind, List.findSome?_cons]
    cases s.rewrite? f with
    | some r => rfl
    | none => exact hb

end

theorem plan?_of_has {b : Block Handle} (root : t.root = b.map Stmt.tag)
    (has : ∀ e ∈ blockEntries b, t.Has e) (nodup : (blockKeys b).Nodup) :
    t.plan? = .ok ((blockRewrite? f b).map BlockRewriting.plan) := by
  have hd := countKind_le_arenaSize .stmt has nodup
  rw [Tree.plan?, root]
  exact planStmts_of_has f _ b has nodup (Nat.le_succ_of_le hd)

theorem Holds.plan? {b : Block Handle} (h : t.Holds b) :
    t.plan? = .ok ((blockRewrite? f b).map BlockRewriting.plan) :=
  plan?_of_has f h.root h.has h.nodup

end Search

end Tree

end FlatTemplate

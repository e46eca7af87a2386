import FlatTemplate.Proofs.Tree.Exchanging
import FlatTemplate.Proofs.Tree.Matching
import FlatTemplate.Rewrite.Apply

namespace FlatTemplate

theorem Arena.get_put_next {kind : NodeKind} {α : Type} {a : Arena kind α} {h : Handle kind}
    {old : α} (hold : a.get h = .ok old) (node : α) : (a.put a.next node).get h = .ok old := by
  have hget := get_put (a := a) (h := a.next) (Nat.le_refl a.size) node h
  rw [hget, if_neg, hold]
  rintro rfl
  exact absurd (index_lt_of_get hold) (Nat.lt_irrefl _)

theorem Arena.next_put {kind : NodeKind} {α : Type} {a : Arena kind α} {h : Handle kind} {old : α}
    (hold : a.get h = .ok old) (node : α) : (a.put h node).next = a.next := by
  have hlt : h.index < a.nodes.size := index_lt_of_get hold
  rw [put, if_pos hlt]
  simp [next]

namespace Tree

def fresh (t : Tree) (name : String) : Fresh :=
  ⟨t.stmts.next, t.pipes.next, t.commands.next, t.exprs.next, name⟩

variable {t : Tree}

@[simp] theorem fresh_name (name : String) : (t.fresh name).name = name := rfl

theorem fold_eq {id : PipeId} {decls : List String} {v c : CommandId} {rest : List CommandId}
    {value head : ExprId} {args : List ExprId}
    (hp : t.pipes.get id = .ok ⟨decls, v :: c :: rest⟩) (hv : t.commands.get v = .ok ⟨value, []⟩)
    (hc : t.commands.get c = .ok ⟨head, args⟩) :
    t.fold id = .ok (t.puts [.command c ⟨head, args ++ [value]⟩, .pipe id ⟨decls, c :: rest⟩]) := by
  simp only [fold, hp, ok_bind, hv, hc, setCommand_eq_put hc]
  exact setPipe_eq_put (t := t.put (.command c ⟨head, args ++ [value]⟩)) hp _

theorem unwrap_eq {id inner : PipeId} {decls names : List String} {commands cs : List CommandId}
    (hp : t.pipes.get id = .ok ⟨decls, commands⟩) (hi : t.pipes.get inner = .ok ⟨names, cs⟩)
    (hne : id ≠ inner) :
    t.unwrap id inner = .ok (t.puts [.pipe inner ⟨names, []⟩, .pipe id ⟨decls, cs⟩]) := by
  have hp' : (t.put (.pipe inner ⟨names, []⟩)).pipes.get id = .ok ⟨decls, commands⟩ := by
    rw [← hp]
    exact (Arena.get_put (Nat.le_of_lt (Arena.index_lt_of_get hi)) _ id).trans (if_neg hne)
  simp only [unwrap, hi, ok_bind, setPipe_eq_put hi, hp']
  exact setPipe_eq_put hp' _

theorem hoistLeading_eq {id : PipeId} {decls : List String} {pre rest : List CommandId}
    (hp : t.pipes.get id = .ok ⟨decls, pre ++ rest⟩) (host : StmtId) (name : String) :
    t.hoistLeading host id pre.length name =
      (t.puts [.pipe (t.fresh name).pipe ⟨[name], pre⟩,
        .stmt (t.fresh name).stmt (.action (t.fresh name).pipe),
        .expr (t.fresh name).expr (.atom (.var [name])),
        .command (t.fresh name).command ⟨(t.fresh name).expr, []⟩,
        .pipe id ⟨decls, (t.fresh name).command :: rest⟩]).insertHoisted host
          (t.fresh name).stmt := by
  simp only [hoistLeading, hp, ok_bind, List.take_left, List.drop_left, addAction, addPipe_eq_put,
    addStmt_eq_put, addRead, addVariable, addBare, addExpr_eq_put, addCommand_eq_put]
  rw [setPipe_eq_put (Arena.get_put_next hp _)]
  rfl

theorem setOperand_eq_put {c : CommandId} {o : Operand} {e : ExprId} {old node : CommandNode}
    (hc : t.commands.get c = .ok old) (hset : old.setOperand? o e = some node) :
    t.setOperand c o e = .ok (t.put (.command c node)) := by
  simp only [setOperand, hc, ok_bind, hset, setCommand_eq_put hc]

theorem hoistPipe_eq {c : CommandId} {o : Operand} {old node : CommandNode}
    (hc : t.commands.get c = .ok old) (hset : old.setOperand? o t.exprs.next = some node)
    (host : StmtId) (pipe : PipeId) (name : String) :
    t.hoistPipe host c o pipe name =
      (t.puts [.stmt t.stmts.next (.action pipe), .expr t.exprs.next (.atom (.var [name])),
        .command c node]).insertHoisted host t.stmts.next := by
  have hput := setOperand_eq_put (t := (t.put (.stmt t.stmts.next (.action pipe))).put
    (.expr t.exprs.next (.atom (.var [name])))) hc hset
  simp only [hoistPipe, addStmt_eq_put, addVariable, addExpr_eq_put]
  exact congrArg (· >>= fun u => u.insertHoisted host t.stmts.next) hput

def boundEntries (f : Fresh) (c : CommandId) (node : CommandNode) : Expr Handle → List Entry
  | .atom id _ =>
    [.command f.command ⟨id, []⟩, .pipe f.pipe ⟨[f.name], [f.command]⟩,
      .stmt f.stmt (.action f.pipe), .expr f.expr (.atom (.var [f.name])), .command c node]
  | .paren _ (.mk inner [] commands) =>
    [.pipe inner ⟨[f.name], commands.map Command.tag⟩, .stmt f.stmt (.action inner),
      .expr f.expr (.atom (.var [f.name])), .command c node]
  | .paren _ (.mk inner (name :: _) _) =>
    [.stmt f.stmt (.action inner), .expr f.expr (.atom (.var [name])), .command c node]

theorem apply_hoistOperand {c : CommandId} {o : Operand} {old node : CommandNode} {e : Expr Handle}
    (hc : t.commands.get c = .ok old) (ho : old.operand? o = some e.tag)
    (names : Supply) (hset : old.setOperand? o (t.fresh names.next).expr = some node)
    (has : ∀ x ∈ e.entries, t.Has x) (rule : Rule) (host : StmtId) :
    Plan.apply ⟨⟨rule, .hoistOperand c o⟩, host⟩ names t = do
      return (← (t.puts (boundEntries (t.fresh names.next) c node e)).insertHoisted host
        (t.fresh names.next).stmt, if e.takes then names.rest else names) := by
  have he := get_node has
  simp only [Plan.apply, operand, hc, ok_bind, ho, pure_eq_ok, he]
  cases e with
  | atom id a =>
    have h := hoistPipe_eq (t := (t.put (.command t.commands.next ⟨id, []⟩)).put
      (.pipe t.pipes.next ⟨[names.next], [t.commands.next]⟩)) (Arena.get_put_next hc _) hset host
      t.pipes.next names.next
    simp only [Expr.node, hoistRead, addBare, addCommand_eq_put, addPipe_eq_put]
    exact congrArg (· >>= fun u => .ok (u, names.rest)) h
  | paren x p =>
    obtain ⟨inner, decls, commands⟩ := p
    have hi := get_pipe (t := t) (p := .mk inner decls commands)
      fun y hm => has y (by simp [Expr.entries, hm])
    simp only [Pipe.tag_mk, Pipe.decls_mk, Pipe.commands_mk] at hi
    cases decls with
    | nil =>
      have h := hoistPipe_eq (t := t.put (.pipe inner ⟨[names.next], commands.map Command.tag⟩)) hc
        hset host inner names.next
      simp only [Expr.node, Pipe.tag_mk, hi, ok_bind, hoistParens, setPipe_eq_put hi]
      exact congrArg (· >>= fun u => .ok (u, names.rest)) h
    | cons name more =>
      simp only [Expr.node, Pipe.tag_mk, hi, ok_bind]
      exact congrArg (· >>= fun u => .ok (u, names)) (hoistPipe_eq hc hset host inner name)

theorem splitPrint_eq {host : StmtId} {id : PipeId} {decls : List String} {cs : List CommandId}
    (hs : t.stmts.get host = .ok (.action id)) (hp : t.pipes.get id = .ok ⟨decls, cs⟩)
    {name : String} {t' : Tree}
    (h : (t.puts [.pipe id ⟨[name], cs⟩, .expr (t.fresh name).expr (.atom (.var [name])),
      .command (t.fresh name).command ⟨(t.fresh name).expr, []⟩,
      .pipe (t.fresh name).pipe ⟨[], [(t.fresh name).command]⟩,
      .stmt (t.fresh name).stmt (.action (t.fresh name).pipe)]).insertAfter host
        (t.fresh name).stmt = .ok (some t')) :
    t.splitPrint host name = .ok t' := by
  have hnext := Arena.next_put hp ⟨[name], cs⟩
  simp only [splitPrint, hs, ok_bind, hp, setPipe_eq_put hp, addPrint, addRead, addVariable,
    addBare, addExpr_eq_put, addCommand_eq_put, addAction, addPipe_eq_put, addStmt_eq_put]
  simp only [puts, List.foldl_cons, List.foldl_nil, fresh] at h
  simp only [put, hnext] at h ⊢
  rw [h]
  rfl

theorem insertHoisted_eq {host new : StmtId} {t' : Tree}
    (h : t.insertBefore host new = .ok (some t')) : t.insertHoisted host new = .ok t' := by
  rw [insertHoisted, h]
  rfl

section Exchanges

variable (name : String)

theorem ne_fresh {e : Entry} (h : t.Has e) :
    e.key ≠ ⟨.stmt, (t.fresh name).stmt⟩ ∧ e.key ≠ ⟨.pipe, (t.fresh name).pipe⟩ ∧
      e.key ≠ ⟨.command, (t.fresh name).command⟩ ∧ e.key ≠ ⟨.expr, (t.fresh name).expr⟩ := by
  have hlt := h.index_lt
  refine ⟨?_, ?_, ?_, ?_⟩ <;>
  · intro hkey
    rw [hkey] at hlt
    exact Nat.lt_irrefl _ hlt

theorem exchanges_unwrap {id inner : PipeId} {c : CommandId} {x : ExprId} {decls : List String}
    {commands : List (Command Handle)}
    (nodup : ((Pipe.mk id decls [.mk c (.paren x (.mk inner [] commands)) []]).entries.map
      Entry.key).Nodup) (hne : commands ≠ []) :
    ∃ olds, t.Exchanges (Pipe.mk id decls [.mk c (.paren x (.mk inner [] commands)) []]).entries
      (Pipe.mk id decls commands).entries olds
      [.pipe inner ⟨[], []⟩, .pipe id ⟨decls, commands.map Command.tag⟩] := by
  refine ⟨[.pipe id ⟨decls, [c]⟩, .command c ⟨x, []⟩, .expr x (.paren inner),
    .pipe inner ⟨[], commands.map Command.tag⟩], ?_, ?_,
    [.pipe id ⟨decls, commands.map Command.tag⟩], commandEntries commands, by simp,
    by simp [Entry.key], ?_, ?_, ?_⟩
  · simp [Entry.key]
  · simp [Pipe.entries, commandEntries, Command.entries, Expr.entries, Entry.key] at nodup ⊢
    grind
  · simp [Pipe.entries, commandEntries, Command.entries, Expr.entries, argEntries]
  · simp [Pipe.entries]
  · simpa [Entry.Sound] using hne

theorem exchanges_fold (id : PipeId) (decls : List String) (v c : CommandId)
    (value head : Expr Handle) (args : List (Expr Handle)) (rest : List (Command Handle)) :
    ∃ olds, t.Exchanges (Pipe.mk id decls (.mk v value [] :: .mk c head args :: rest)).entries
      (Pipe.mk id decls (.mk c head (args ++ [value]) :: rest)).entries olds
      [.command c ⟨head.tag, args.map Expr.tag ++ [value.tag]⟩,
        .pipe id ⟨decls, c :: rest.map Command.tag⟩] := by
  refine ⟨[.pipe id ⟨decls, v :: c :: rest.map Command.tag⟩, .command v ⟨value.tag, []⟩,
    .command c ⟨head.tag, args.map Expr.tag⟩], ?_, by simp [Entry.key], _,
    value.entries ++ head.entries ++ argEntries args ++ commandEntries rest, List.Sublist.refl _,
    fun _ => .inr, ?_, ?_, ?_⟩
  · simp [Entry.key]
  · simp [Pipe.entries, commandEntries, Command.entries, argEntries]
  · simp [Pipe.entries, commandEntries, Command.entries, argEntries]
    grind
  · simp [Entry.Sound]

theorem exchanges_leading {id : PipeId} {decls : List String} {pre rest : List (Command Handle)}
    (has : ∀ x ∈ (Pipe.mk id decls (pre ++ rest)).entries, t.Has x) (hne : pre ≠ []) :
    ∃ olds, t.Exchanges (Pipe.mk id decls (pre ++ rest)).entries
      ((Pipe.mk id decls ((t.fresh name).read :: rest)).entries ++
        (Stmt.action (t.fresh name).stmt (.mk (t.fresh name).pipe [name] pre)).entries) olds
      [.pipe (t.fresh name).pipe ⟨[name], pre.map Command.tag⟩,
        .stmt (t.fresh name).stmt (.action (t.fresh name).pipe),
        .expr (t.fresh name).expr (.atom (.var [name])),
        .command (t.fresh name).command ⟨(t.fresh name).expr, []⟩,
        .pipe id ⟨decls, (t.fresh name).command :: rest.map Command.tag⟩] := by
  have hid := ne_fresh name (has (.pipe id ⟨decls, (pre ++ rest).map Command.tag⟩)
    (by simp [Pipe.entries]))
  simp only [Entry.key, ne_eq, Sigma.mk.injEq, true_and, heq_eq_eq] at hid
  refine ⟨[.pipe id ⟨decls, (pre ++ rest).map Command.tag⟩], ?_, ?_, _,
    commandEntries pre ++ commandEntries rest, List.Sublist.refl _, fun _ => .inr, ?_, ?_, ?_⟩
  · simp [Entry.key, fresh, Arena.next, arenaSize, Arena.size]
  · simp [Entry.key, eq_comm, hid.2.1]
  · simp [Pipe.entries]
  · simp [Pipe.entries, Stmt.entries, Fresh.read, Fresh.reading, commandEntries, Command.entries,
      Expr.entries, argEntries]
    grind
  · simpa [Entry.Sound] using hne

theorem exchanges_split {id : PipeId} {decls : List String} {commands : List (Command Handle)}
    (has : ∀ x ∈ (Pipe.mk id decls commands).entries, t.Has x) (hne : commands ≠ []) :
    ∃ olds, t.Exchanges (Pipe.mk id decls commands).entries
      ((Pipe.mk id [name] commands).entries ++ (t.fresh name).print.entries) olds
      [.pipe id ⟨[name], commands.map Command.tag⟩,
        .expr (t.fresh name).expr (.atom (.var [name])),
        .command (t.fresh name).command ⟨(t.fresh name).expr, []⟩,
        .pipe (t.fresh name).pipe ⟨[], [(t.fresh name).command]⟩,
        .stmt (t.fresh name).stmt (.action (t.fresh name).pipe)] := by
  have hid := ne_fresh name (has (.pipe id ⟨decls, commands.map Command.tag⟩)
    (by simp [Pipe.entries]))
  simp only [Entry.key, ne_eq, Sigma.mk.injEq, true_and, heq_eq_eq] at hid
  refine ⟨[.pipe id ⟨decls, commands.map Command.tag⟩], ?_, ?_, _,
    commandEntries commands, List.Sublist.refl _, fun _ => .inr, ?_, ?_, ?_⟩
  · simp [Entry.key, fresh, Arena.next, arenaSize, Arena.size]
  · simp [Entry.key, hid.2.1]
  · simp [Pipe.entries]
  · simp [Pipe.entries, Stmt.entries, Fresh.print, Fresh.read, Fresh.reading, commandEntries,
      Command.entries, Expr.entries, argEntries, fresh]
    grind
  · simpa [Entry.Sound] using hne

theorem exchanges_bound {c : CommandId} {old : CommandNode} {e : Expr Handle}
    (has : ∀ x ∈ .command c old :: e.entries, t.Has x)
    (nodup : ((.command c old :: e.entries).map Entry.key).Nodup)
    (sound : ∀ x ∈ e.entries, x.Sound) (node : CommandNode) :
    ∃ olds, t.Exchanges (.command c old :: e.entries)
      (.command c node :: ((e.stub (t.fresh name)).entries ++
        (Stmt.action (t.fresh name).stmt (e.bound (t.fresh name))).entries)) olds
      (boundEntries (t.fresh name) c node e) := by
  have hc := ne_fresh name (has (.command c old) (by simp))
  simp only [Entry.key, ne_eq, Sigma.mk.injEq, true_and, heq_eq_eq] at hc
  -- A pipeline in parentheses is kept, and is written anew only to declare the temporary.
  match e with
  | .atom id a =>
    refine ⟨[.command c old], ?_, ?_, _, [.expr id (.atom a)], List.Sublist.refl _,
      fun _ => .inr, ?_, ?_, ?_⟩
    · simp [boundEntries, Entry.key, fresh, Arena.next, arenaSize, Arena.size]
    · simp [boundEntries, Entry.key, eq_comm, hc.2.2.1]
    · simp [Expr.entries]
    · simp [boundEntries, Expr.bound, Expr.stub, Fresh.reading, Expr.entries, Stmt.entries,
        Pipe.entries, commandEntries, Command.entries, argEntries, fresh]
      grind
    · simp [boundEntries, Entry.Sound]
  | .paren x (.mk inner [] commands) =>
    have hne : commands ≠ [] := by
      have := sound (.pipe inner ⟨[], commands.map Command.tag⟩)
        (by simp [Expr.entries, Pipe.entries])
      simpa [Entry.Sound] using this
    refine ⟨[.command c old, .expr x (.paren inner), .pipe inner ⟨[], commands.map Command.tag⟩],
      ?_, ?_, _, commandEntries commands, List.Sublist.refl _, fun _ => .inr, ?_, ?_, ?_⟩
    · simp [boundEntries, Entry.key, fresh, Arena.next, arenaSize, Arena.size]
    · simp [boundEntries, Entry.key]
    · simp [Expr.entries, Pipe.entries]
    · simp [boundEntries, Expr.bound, Expr.stub, Fresh.reading, Expr.entries, Stmt.entries,
        Pipe.entries, fresh]
      grind
    · simpa [boundEntries, Entry.Sound] using hne
  | .paren x (.mk inner (n :: more) commands) =>
    refine ⟨[.command c old, .expr x (.paren inner)],
      ?_, ?_, _, (Pipe.mk inner (n :: more) commands).entries, List.Sublist.refl _,
      fun _ => .inr, ?_, ?_, ?_⟩
    · simp [boundEntries, Entry.key, fresh, Arena.next, arenaSize, Arena.size]
    · simp [boundEntries, Entry.key]
    · simp [Expr.entries]
    · simp [boundEntries, Expr.bound, Expr.stub, Fresh.reading, Expr.entries, Stmt.entries,
        Pipe.entries, fresh]
      grind
    · simp [boundEntries, Entry.Sound]

end Exchanges

end Tree

end FlatTemplate

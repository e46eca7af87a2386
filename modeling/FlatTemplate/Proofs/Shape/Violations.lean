import FlatTemplate.Proofs.Session.Safety
import FlatTemplate.Proofs.Session.Assigning

namespace FlatTemplate

section Argument

variable {c : Command Handle} {e : Expr Handle}

theorem Expr.pipeArgument_mem {k : CommandId} :
    .pipeArgument k ∈ e.shapeViolations c ↔ c.tag = k ∧ e.node.isParen := by
  cases e with
  | paren id inner =>
    rw [shapeViolations]
    split <;> simp [node, ExprNode.isParen, eq_comm]
  | atom id a =>
    rw [shapeViolations]
    split <;> simp [node, ExprNode.isParen]

theorem Expr.pathArgument_mem {k : CommandId} :
    .pathArgument k ∈ e.shapeViolations c ↔ c.tag = k ∧ c.isCall ∧ e.node.isPathRead := by
  cases e with
  | paren id inner =>
    rw [shapeViolations]
    split <;> simp [node, ExprNode.isPathRead]
  | atom id a =>
    rw [shapeViolations, node, ExprNode.isPathRead, ← Bool.and_eq_true]
    split <;> simp [*, eq_comm (a := k)]

theorem Expr.compositeNestedPipe_mem {q : PipeId} : .compositeNestedPipe q ∈ e.shapeViolations c ↔
    ∃ id inner, e = .paren id inner ∧ inner.tag = q ∧ 1 < inner.commands.length := by
  cases e with
  | paren id inner =>
    by_cases hlength : 1 < inner.commands.length <;> simp [shapeViolations, hlength, eq_comm]
  | atom id a =>
    rw [shapeViolations]
    split <;> simp

end Argument

theorem mem_shapeViolations {b : Block Handle} {v : Violation} : v ∈ shapeViolations b ↔
    ∃ p ∈ blockPipes b, ∃ c ∈ p.commands, ∃ e ∈ c.args, v ∈ e.shapeViolations c := by
  simp only [shapeViolations, Command.shapeViolations, List.mem_flatMap]

theorem Pipe.exists_of_mem_scopeViolations {stem : String} {visible : List String} {id : StmtId}
    {p : Pipe Handle} {v : Violation} (h : v ∈ p.scopeViolations stem visible id) :
    ∃ id name, v = .undeclaredTemporary id name := by
  obtain ⟨name, -, rfl⟩ := List.mem_map.mp h
  exact ⟨id, name, rfl⟩

mutual

theorem Stmt.exists_of_mem_scopeViolations {stem : String} {visible : List String}
    {s : Stmt Handle} {v : Violation} (h : v ∈ s.scopeViolations stem visible) :
    ∃ id name, v = .undeclaredTemporary id name := by
  match s with
  | .text .. | .invoke _ _ none => cases h
  | .action .. | .invoke _ _ (some _) => exact Pipe.exists_of_mem_scopeViolations h
  | .branch .. =>
    rw [Stmt.scopeViolations, List.mem_append, List.mem_append] at h
    rcases h with (h | h) | h
    · exact Pipe.exists_of_mem_scopeViolations h
    · exact exists_of_mem_scopeViolations h
    · exact exists_of_mem_scopeViolations h

theorem exists_of_mem_scopeViolations {stem : String} {visible : List String}
    {b : Block Handle} {v : Violation} (h : v ∈ scopeViolations stem visible b) :
    ∃ id name, v = .undeclaredTemporary id name := by
  match b with
  | [] => cases h
  | s :: b =>
    rcases List.mem_append.mp h with h | h
    · exact Stmt.exists_of_mem_scopeViolations h
    · exact exists_of_mem_scopeViolations h

end

namespace Tree

variable {t : Tree} {b : Block Handle}

def CompositeAt (t : Tree) (o : Operand) (q : PipeId) : Prop :=
  ∃ c node e p, t.Reachable (.command c node) ∧ node.operand? o = some e ∧
    t.exprs.get e = .ok (.paren q) ∧ t.pipes.get q = .ok p ∧ 1 < p.commands.length

theorem Holds.reachable_command_iff (h : t.Holds b) {k : CommandId} {node : CommandNode} :
    t.Reachable (.command k node) ↔
      ∃ p ∈ blockPipes b, ∃ c ∈ p.commands, .command k node = c.entry := by
  rw [h.reachable_iff]
  constructor
  · intro he
    obtain hkind | ⟨p, hp, he | ⟨c, hc, he | ⟨x, hx, he⟩⟩⟩ := mem_blockEntries_nodes he
    · cases hkind
    · cases he
    · exact ⟨p, hp, c, hc, he⟩
    · cases he
  · rintro ⟨p, hp, c, hc, he⟩
    exact he ▸ Pipe.nodes_subset hp (Command.entry_mem_nodes hc)

theorem Holds.get_operand (h : t.Holds b) {p : Pipe Handle} {c : Command Handle} {x : Expr Handle}
    (hp : p ∈ blockPipes b) (hc : c ∈ p.commands) (hx : x ∈ c.operands) :
    t.exprs.get x.tag = .ok x.node :=
  h.has x.entry (Pipe.nodes_subset hp (Expr.entry_mem_nodes hc hx))

theorem Holds.get_pipe (h : t.Holds b) {p : Pipe Handle} (hp : p ∈ blockPipes b) :
    t.pipes.get p.tag = .ok ⟨p.decls, p.commands.map Command.tag⟩ :=
  h.has p.entry (Pipe.nodes_subset hp p.entry_mem_nodes)

end Tree

namespace CommandNode

variable {node : CommandNode} {o o' : Operand} {e : ExprId}

theorem mem_operands_of_operand? (h : node.operand? o = some e) : e ∈ node.operands := by
  cases o with
  | head => exact Option.some.inj h ▸ List.mem_cons_self ..
  | arg i => exact List.mem_cons_of_mem _ (List.mem_of_getElem? h)

theorem operand?_inj (nodup : node.operands.Nodup) (ho : node.operand? o = some e)
    (ho' : node.operand? o' = some e) : o = o' := by
  obtain ⟨hhead, hargs⟩ := List.nodup_cons.mp nodup
  match o, o' with
  | .head, .head => rfl
  | .head, .arg i => exact absurd (Option.some.inj ho ▸ List.mem_of_getElem? ho') hhead
  | .arg i, .head => exact absurd (Option.some.inj ho' ▸ List.mem_of_getElem? ho) hhead
  | .arg i, .arg j =>
    obtain ⟨hi, -⟩ := List.getElem?_eq_some_iff.mp ho
    exact congrArg Operand.arg ((List.getElem?_inj hi hargs).mp (ho.trans ho'.symm))

end CommandNode

namespace Command

def operand? (c : Command Handle) : Operand → Option (Expr Handle)
  | .head => some c.head
  | .arg i => c.args[i]?

variable {c : Command Handle} {o : Operand} {x : Expr Handle}

theorem mem_operands_of_operand? (h : c.operand? o = some x) : x ∈ c.operands := by
  cases o with
  | head => exact Option.some.inj h ▸ List.mem_cons_self ..
  | arg i => exact List.mem_cons_of_mem _ (List.mem_of_getElem? h)

theorem operand?_node (c : Command Handle) (o : Operand) :
    CommandNode.operand? ⟨c.head.tag, c.args.map Expr.tag⟩ o = (c.operand? o).map Expr.tag := by
  cases o with
  | head => rfl
  | arg i => exact List.getElem?_map ..

end Command

namespace Tree

variable {t : Tree} {b : Block Handle}

theorem Holds.compositeAt_iff (h : t.Holds b) {o : Operand} {q : PipeId} :
    t.CompositeAt o q ↔ ∃ p ∈ blockPipes b, ∃ c ∈ p.commands, ∃ e inner,
      c.operand? o = some (.paren e inner) ∧ inner.tag = q ∧ 1 < inner.commands.length := by
  constructor
  · rintro ⟨k, node, e, n, hreachable, he, hexpr, hpipe, hlength⟩
    obtain ⟨p, hp, c, hc, hentry⟩ := h.reachable_command_iff.mp hreachable
    obtain ⟨rfl, rfl⟩ := Entry.command.inj hentry
    rw [Command.operand?_node, Option.map_eq_some_iff] at he
    obtain ⟨x, hx, rfl⟩ := he
    have hmem := Command.mem_operands_of_operand? hx
    rw [h.get_operand hp hc hmem] at hexpr
    match x with
    | .paren e inner =>
      obtain rfl : inner.tag = q := ExprNode.paren.inj (Except.ok.inj hexpr)
      rw [h.get_pipe (mem_blockPipes_of_operand hp hc hmem)] at hpipe
      obtain rfl := Except.ok.inj hpipe
      exact ⟨p, hp, c, hc, e, inner, hx, rfl, by simpa using hlength⟩
  · rintro ⟨p, hp, c, hc, e, inner, hx, rfl, hlength⟩
    have hmem := Command.mem_operands_of_operand? hx
    refine ⟨c.tag, _, e, _, h.reachable_command_iff.mpr ⟨p, hp, c, hc, rfl⟩, ?_,
      h.get_operand hp hc hmem, h.get_pipe (mem_blockPipes_of_operand hp hc hmem), ?_⟩
    · rw [Command.operand?_node, hx]
      rfl
    · simpa using hlength

theorem SinglyOwned.compositeAt_inj (h : t.SinglyOwned) {o o' : Operand} {q : PipeId}
    (ho : t.CompositeAt o q) (ho' : t.CompositeAt o' q) : o = o' := by
  obtain ⟨c, node, e, _, hcommand, he, hexpr, -⟩ := ho
  obtain ⟨c', node', e', _, hcommand', he', hexpr', -⟩ := ho'
  have hchild : e.key ∈ (Entry.command c node).children :=
    List.mem_map_of_mem (CommandNode.mem_operands_of_operand? he)
  have hchild' : e'.key ∈ (Entry.command c' node').children :=
    List.mem_map_of_mem (CommandNode.mem_operands_of_operand? he')
  have hreachable : t.Reachable (.expr e (.paren q)) := ⟨hexpr, hcommand.child hchild⟩
  have hreachable' : t.Reachable (.expr e' (.paren q)) := ⟨hexpr', hcommand'.child hchild'⟩
  obtain ⟨rfl, -⟩ := Entry.expr.inj (h.owner _ _ hreachable hreachable' q.key
    (List.mem_singleton_self _) (List.mem_singleton_self _))
  obtain ⟨-, rfl⟩ := Entry.command.inj (h.owner _ _ hcommand hcommand' _ hchild hchild')
  exact CommandNode.operand?_inj (.of_map _ (h.children _ hcommand)) he he'

theorem Holds.compositeNestedPipe_mem_iff (h : t.Holds b) {q : PipeId} :
    .compositeNestedPipe q ∈ shapeViolations b ↔ ∃ i, t.CompositeAt (.arg i) q := by
  simp only [mem_shapeViolations, Expr.compositeNestedPipe_mem, h.compositeAt_iff]
  constructor
  · rintro ⟨p, hp, c, hc, _, hx, e, inner, rfl, hq, hlength⟩
    obtain ⟨i, hi⟩ := List.getElem?_of_mem hx
    exact ⟨i, p, hp, c, hc, e, inner, hi, hq, hlength⟩
  · rintro ⟨i, p, hp, c, hc, e, inner, hi, hq, hlength⟩
    exact ⟨p, hp, c, hc, _, List.mem_of_getElem? hi, e, inner, rfl, hq, hlength⟩

/-- Whatever the configuration, a pipeline in parentheses that has several commands is reported where
it is an argument; one that is the head of a command is not. -/
theorem check_compositeNestedPipe (ht : t.SinglyOwned) (config : Config) :
    ∃ violations, t.check config = .ok violations ∧
      (∀ q, .compositeNestedPipe q ∈ violations ↔ ∃ i, t.CompositeAt (.arg i) q) ∧
      ∀ q, t.CompositeAt .head q → .compositeNestedPipe q ∉ violations := by
  obtain ⟨b, hb⟩ := ht.exists_holds
  have hiff : ∀ q, .compositeNestedPipe q ∈ shapeViolations b ++
      scopeViolations config.tempStem [] b ↔ ∃ i, t.CompositeAt (.arg i) q := by
    intro q
    rw [List.mem_append, hb.compositeNestedPipe_mem_iff, or_iff_left_iff_imp]
    intro hscope
    obtain ⟨_, _, hkind⟩ := exists_of_mem_scopeViolations hscope
    cases hkind
  refine ⟨_, hb.check config, hiff, fun q hhead hmem => ?_⟩
  obtain ⟨i, harg⟩ := (hiff q).mp hmem
  cases ht.compositeAt_inj hhead harg

def chainedArgument : Tree :=
  let call (f : String) : Command Untagged := .mk () (.atom () (.identifier f)) []
  let chain : Pipe Untagged := .mk () [] [.mk () (.atom () (.str "a")) [], call "g", call "h"]
  .ofBlock "" [.action () (.mk () [] [.mk () (.atom () (.identifier "f")) [.paren () chain]])]

theorem parse_chainedArgument :
    Tree.parse (delimited "f (\"a\" | g | h)") = .ok chainedArgument := by
  cbv

theorem check_compositeNestedPipe_chainedArgument :
    ∃ violations, chainedArgument.check {} = .ok violations ∧
      .compositeNestedPipe ⟨0⟩ ∈ violations := by
  obtain ⟨violations, hrun, hiff, -⟩ :=
    check_compositeNestedPipe (parsed_of_parse parse_chainedArgument).singlyOwned {}
  have hreported : chainedArgument.check {} =
      .ok [.pipeArgument ⟨3⟩, .compositeNestedPipe ⟨0⟩] := by cbv
  exact ⟨violations, hrun, by simp [Except.ok.inj (hrun.symm.trans hreported)]⟩

def chainedHead : Tree :=
  let chain : Pipe Untagged :=
    .mk () [] [.mk () (.atom () (.bool true)) [], .mk () (.atom () (.identifier "f")) []]
  .ofBlock "" [.action () (.mk () [] [.mk () (.paren () chain) [.atom () (.number "1")]])]

theorem parse_chainedHead : Tree.parse (delimited "(true | f) 1") = .ok chainedHead := by
  cbv

theorem check_chainedHead :
    (chainedHead.SinglyOwned ∧ chainedHead.CompositeAt .head ⟨0⟩) ∧
      chainedHead.isCanonical = .ok true ∧ chainedHead.check {} = .ok [] := by
  have hstmt : chainedHead.Reachable (.stmt ⟨0⟩ (.action ⟨1⟩)) :=
    ⟨rfl, 0, .root (List.mem_singleton_self _)⟩
  have hpipe : chainedHead.Reachable (.pipe ⟨1⟩ ⟨[], [⟨2⟩]⟩) :=
    ⟨rfl, hstmt.child (List.mem_singleton_self _)⟩
  have hcommand : chainedHead.Reachable (.command ⟨2⟩ ⟨⟨2⟩, [⟨3⟩]⟩) :=
    ⟨rfl, hpipe.child (List.mem_singleton_self _)⟩
  refine ⟨⟨(parsed_of_parse parse_chainedHead).singlyOwned, ?_⟩, by cbv, by cbv⟩
  exact ⟨_, _, _, _, hcommand, rfl, rfl, rfl, by decide⟩

end Tree

end FlatTemplate

import FlatTemplate.Proofs.Tree.Holding

namespace FlatTemplate

namespace Arena

variable {kind : NodeKind} {α : Type}

def put (a : Arena kind α) (h : Handle kind) (node : α) : Arena kind α :=
  if h.index < a.nodes.size then ⟨a.nodes.setIfInBounds h.index node⟩ else a.add node

theorem put_next (a : Arena kind α) (node : α) : a.put a.next node = a.add node := by
  simp [put, next]

theorem set_eq_put {a : Arena kind α} {h : Handle kind} {old : α} (hold : a.get h = .ok old)
    (node : α) : a.set h node = .ok (a.put h node) := by
  have hlt : h.index < a.nodes.size := index_lt_of_get hold
  rw [set, put, if_pos hlt, if_pos hlt]

theorem size_le_size_put (a : Arena kind α) (h : Handle kind) (node : α) :
    a.size ≤ (a.put h node).size := by
  unfold put
  split <;> simp [size, add]

theorem size_put {a : Arena kind α} {h : Handle kind} (hle : h.index ≤ a.size) (node : α) :
    (a.put h node).size = a.size + if h.index = a.size then 1 else 0 := by
  change h.index ≤ a.nodes.size at hle
  unfold put
  split
  · next hlt =>
    have hne : h.index ≠ a.nodes.size := Nat.ne_of_lt hlt
    simp [size, hne]
  · next hlt =>
    have heq : h.index = a.nodes.size := by omega
    simp [size, add, heq]

theorem get_put {a : Arena kind α} {h : Handle kind} (hle : h.index ≤ a.size) (node : α)
    (j : Handle kind) : (a.put h node).get j = if j = h then .ok node else a.get j := by
  by_cases hlt : h.index < a.nodes.size
  · rw [put, if_pos hlt]
    exact get_set (by rw [set, if_pos hlt]) j
  · have hnext : h = a.next := by
      obtain ⟨i⟩ := h
      change i ≤ a.nodes.size at hle
      change ¬i < a.nodes.size at hlt
      simp only [next, Handle.mk.injEq]
      omega
    rw [put, if_neg hlt, get_add, hnext]

end Arena

namespace Tree

def put (t : Tree) : Entry → Tree
  | .stmt id node => { t with stmts := t.stmts.put id node }
  | .pipe id node => { t with pipes := t.pipes.put id node }
  | .command id node => { t with commands := t.commands.put id node }
  | .expr id node => { t with exprs := t.exprs.put id node }

def puts (t : Tree) (entries : List Entry) : Tree := entries.foldl put t

structure Changed (t t' : Tree) (entries : List Entry) : Prop where
  new : ∀ e ∈ entries, t'.Has e
  old : ∀ e, t.Has e → e.key ∉ entries.map Entry.key → t'.Has e
  size : ∀ kind, t.arenaSize kind ≤ t'.arenaSize kind

variable {t : Tree}

theorem setStmt_eq_put {id : StmtId} {old : StmtNode} (h : t.stmts.get id = .ok old)
    (node : StmtNode) : t.setStmt id node = .ok (t.put (.stmt id node)) := by
  rw [setStmt, Arena.set_eq_put h]
  rfl

theorem setPipe_eq_put {id : PipeId} {old : PipeNode} (h : t.pipes.get id = .ok old)
    (node : PipeNode) : t.setPipe id node = .ok (t.put (.pipe id node)) := by
  rw [setPipe, Arena.set_eq_put h]
  rfl

theorem setCommand_eq_put {id : CommandId} {old : CommandNode} (h : t.commands.get id = .ok old)
    (node : CommandNode) : t.setCommand id node = .ok (t.put (.command id node)) := by
  rw [setCommand, Arena.set_eq_put h]
  rfl

theorem addStmt_eq_put (node : StmtNode) :
    t.addStmt node = (t.stmts.next, t.put (.stmt t.stmts.next node)) := by
  rw [addStmt, put, Arena.put_next]

theorem addPipe_eq_put (node : PipeNode) :
    t.addPipe node = (t.pipes.next, t.put (.pipe t.pipes.next node)) := by
  rw [addPipe, put, Arena.put_next]

theorem addCommand_eq_put (node : CommandNode) :
    t.addCommand node = (t.commands.next, t.put (.command t.commands.next node)) := by
  rw [addCommand, put, Arena.put_next]

theorem addExpr_eq_put (node : ExprNode) :
    t.addExpr node = (t.exprs.next, t.put (.expr t.exprs.next node)) := by
  rw [addExpr, put, Arena.put_next]

theorem root_put (e : Entry) : (t.put e).root = t.root := by cases e <;> rfl

theorem arenaSize_le_put (e : Entry) (kind : NodeKind) :
    t.arenaSize kind ≤ (t.put e).arenaSize kind := by
  cases e <;> cases kind <;> simp [put, arenaSize, Arena.size_le_size_put]

theorem has_put {e : Entry} (he : e.key.2.index ≤ t.arenaSize e.key.1) (x : Entry) :
    (t.put e).Has x ↔ if x.key = e.key then x = e else t.Has x := by
  cases e with
  | stmt id node =>
    have hget : ∀ j, (t.stmts.put id node).get j = if j = id then .ok node else t.stmts.get j :=
      Arena.get_put he node
    cases x <;> simp [put, Has, Entry.key, hget]
    grind
  | pipe id node =>
    have hget : ∀ j, (t.pipes.put id node).get j = if j = id then .ok node else t.pipes.get j :=
      Arena.get_put he node
    cases x <;> simp [put, Has, Entry.key, hget]
    grind
  | command id node =>
    have hget : ∀ j, (t.commands.put id node).get j =
        if j = id then .ok node else t.commands.get j :=
      Arena.get_put he node
    cases x <;> simp [put, Has, Entry.key, hget]
    grind
  | expr id node =>
    have hget : ∀ j, (t.exprs.put id node).get j = if j = id then .ok node else t.exprs.get j :=
      Arena.get_put he node
    cases x <;> simp [put, Has, Entry.key, hget]
    grind

theorem root_puts (entries : List Entry) : (t.puts entries).root = t.root := by
  induction entries generalizing t with
  | nil => rfl
  | cons e es ih => rw [puts, List.foldl_cons, ← puts, ih, root_put]

theorem changed_puts {entries : List Entry}
    (hle : ∀ e ∈ entries, e.key.2.index ≤ t.arenaSize e.key.1)
    (nodup : (entries.map Entry.key).Nodup) : t.Changed (t.puts entries) entries := by
  induction entries generalizing t with
  | nil => exact ⟨by simp, fun e he _ => he, fun _ => Nat.le_refl _⟩
  | cons e es ih =>
    rw [List.map_cons, List.nodup_cons] at nodup
    have hput := has_put (hle e (by simp))
    have h := ih (t := t.put e)
      (fun x hx => Nat.le_trans (hle x (by simp [hx])) (arenaSize_le_put e _)) nodup.2
    refine ⟨fun x hx => ?_, fun x hx hkey => ?_, fun kind => ?_⟩
    · rcases List.mem_cons.mp hx with rfl | hx
      · exact h.old x ((hput x).mpr (by simp)) nodup.1
      · exact h.new x hx
    · rw [List.map_cons, List.mem_cons, not_or] at hkey
      exact h.old x ((hput x).mpr (by simpa [hkey.1] using hx)) hkey.2
    · exact Nat.le_trans (arenaSize_le_put e kind) (h.size kind)

theorem arenaSize_put {e : Entry} (hle : e.key.2.index ≤ t.arenaSize e.key.1) (kind : NodeKind) :
    (t.put e).arenaSize kind =
      t.arenaSize kind + if e.key = freshKey t.arenaSize kind then 1 else 0 := by
  have heq {k : NodeKind} (x y : Handle k) : x = y ↔ x.index = y.index := by
    cases x
    cases y
    simp
  cases e with
  | stmt id node =>
    have hput : (t.stmts.put id node).size =
        t.stmts.size + if id.index = t.stmts.size then 1 else 0 := Arena.size_put hle node
    by_cases hnext : id.index = t.stmts.size <;> cases kind <;>
      simp [put, arenaSize, freshKey, Entry.key, heq, hput, hnext]
  | pipe id node =>
    have hput : (t.pipes.put id node).size =
        t.pipes.size + if id.index = t.pipes.size then 1 else 0 := Arena.size_put hle node
    by_cases hnext : id.index = t.pipes.size <;> cases kind <;>
      simp [put, arenaSize, freshKey, Entry.key, heq, hput, hnext]
  | command id node =>
    have hput : (t.commands.put id node).size =
        t.commands.size + if id.index = t.commands.size then 1 else 0 := Arena.size_put hle node
    by_cases hnext : id.index = t.commands.size <;> cases kind <;>
      simp [put, arenaSize, freshKey, Entry.key, heq, hput, hnext]
  | expr id node =>
    have hput : (t.exprs.put id node).size =
        t.exprs.size + if id.index = t.exprs.size then 1 else 0 := Arena.size_put hle node
    by_cases hnext : id.index = t.exprs.size <;> cases kind <;>
      simp [put, arenaSize, freshKey, Entry.key, heq, hput, hnext]

theorem arenaSize_puts {entries : List Entry}
    (hle : ∀ e ∈ entries, e.key.2.index ≤ t.arenaSize e.key.1)
    (nodup : (entries.map Entry.key).Nodup) (kind : NodeKind) :
    (t.puts entries).arenaSize kind =
      t.arenaSize kind + if freshKey t.arenaSize kind ∈ entries.map Entry.key then 1 else 0 := by
  induction entries generalizing t with
  | nil => simp [puts]
  | cons e es ih =>
    rw [List.map_cons, List.nodup_cons] at nodup
    rw [List.forall_mem_cons] at hle
    have hput := arenaSize_put hle.1 kind
    have hputs := ih (t := t.put e)
      (fun x hx => Nat.le_trans (hle.2 x hx) (arenaSize_le_put e _)) nodup.2
    rw [puts, List.foldl_cons, ← puts, hputs, hput]
    simp only [List.map_cons, List.mem_cons]
    by_cases hfresh : e.key = freshKey t.arenaSize kind
    · -- The next handle is taken, and the one behind it is out of reach.
      have hnot : freshKey (t.put e).arenaSize kind ∉ es.map Entry.key := by
        intro hmem
        obtain ⟨x, hx, hkey⟩ := List.mem_map.mp hmem
        have hx' := hle.2 x hx
        rw [hkey] at hx'
        rw [if_pos hfresh] at hput
        simp only [freshKey] at hx'
        omega
      simp [hfresh, hnot]
    · have hsize : freshKey (t.put e).arenaSize kind = freshKey t.arenaSize kind := by
        rw [freshKey, hput, if_neg hfresh]
        rfl
      simp [hfresh, hsize, eq_comm]

theorem Changed.trans {t' t'' : Tree} {es fs : List Entry} (h : t.Changed t' es)
    (h' : t'.Changed t'' fs) (hdisjoint : ∀ e ∈ es, e.key ∉ fs.map Entry.key) :
    t.Changed t'' (es ++ fs) := by
  refine ⟨fun x hx => ?_, fun x hx hkey => ?_, fun kind =>
    Nat.le_trans (h.size kind) (h'.size kind)⟩
  · rcases List.mem_append.mp hx with hx | hx
    · exact h'.old x (h.new x hx) (hdisjoint x hx)
    · exact h'.new x hx
  · rw [List.map_append, List.mem_append, not_or] at hkey
    exact h'.old x (h.old x hx hkey.1) hkey.2

end Tree

end FlatTemplate

import FlatTemplate.Proofs.Tree.Holding

/-!
A store as a graph of nodes. It is a tree if and only if the nodes that the root leads to are there
and each of them has one owner.
-/

namespace FlatTemplate

def Handle.key {kind : NodeKind} (h : Handle kind) : Key := ⟨kind, h⟩

theorem Entry.key_stmt (id : StmtId) (node : StmtNode) : (Entry.stmt id node).key = id.key := rfl

theorem Entry.key_command (id : CommandId) (node : CommandNode) :
    (Entry.command id node).key = id.key := rfl

def Entry.children : Entry → List Key
  | .stmt _ (.text _) | .stmt _ (.invoke _ none) | .expr _ (.atom _) => []
  | .stmt _ (.action p) | .stmt _ (.invoke _ (some p)) => [p.key]
  | .stmt _ (.branch _ p body elseBody) =>
    p.key :: (body.map Handle.key ++ elseBody.map Handle.key)
  | .pipe _ node => node.commands.map Handle.key
  | .command _ node => node.operands.map Handle.key
  | .expr _ (.paren inner) => [inner.key]

namespace Tree

def roots (t : Tree) : List Key := t.root.map Handle.key

inductive ReachesBy (t : Tree) : (n : Nat) → Key → Prop where
  | root {k} (hk : k ∈ t.roots) : ReachesBy t 0 k
  | child {n e k} (he : t.Has e) (h : ReachesBy t n e.key) (hk : k ∈ e.children) :
      ReachesBy t (n + 1) k

def Reaches (t : Tree) (k : Key) : Prop := ∃ n, t.ReachesBy n k

structure Reachable (t : Tree) (e : Entry) : Prop where
  has : t.Has e
  reaches : t.Reaches e.key

/-- No reachable handle dangles, and every reachable node has one owner and is in one place of it. -/
structure OwnedOnce (t : Tree) : Prop where
  inRange : ∀ k, t.Reaches k → ∃ e, t.Has e ∧ e.key = k
  roots : t.roots.Nodup
  children : ∀ e, t.Reachable e → e.children.Nodup
  rootless : ∀ e, t.Reachable e → ∀ k ∈ e.children, k ∉ t.roots
  owner : ∀ e e', t.Reachable e → t.Reachable e' → ∀ k ∈ e.children, k ∈ e'.children → e = e'

/-- No reachable pipeline is without a command either, and no reachable variable without a
segment. -/
structure SinglyOwned (t : Tree) : Prop extends OwnedOnce t where
  sound : ∀ e, t.Reachable e → e.Sound

variable {t : Tree}

theorem Has.inj {e e' : Entry} (h : t.Has e) (h' : t.Has e') (hkey : e.key = e'.key) : e = e' := by
  cases e <;> cases e' <;> simp_all [Entry.key, Has]

theorem Reachable.child {e : Entry} (h : t.Reachable e) {k : Key} (hk : k ∈ e.children) :
    t.Reaches k := by
  obtain ⟨n, hn⟩ := h.reaches
  exact ⟨n + 1, .child h.has hn hk⟩

end Tree

mutual

theorem Expr.children_perm (e : Expr Handle) :
    (e.tag.key :: e.entries.flatMap Entry.children).Perm (e.entries.map Entry.key) := by
  cases e with
  | atom => exact .refl _
  | paren id inner => exact inner.children_perm.cons _

theorem argChildren_perm (es : List (Expr Handle)) :
    ((es.map Expr.tag).map Handle.key ++ (argEntries es).flatMap Entry.children).Perm
      ((argEntries es).map Entry.key) := by
  cases es with
  | nil => exact .refl _
  | cons e es =>
    have he := e.children_perm
    have hes := argChildren_perm es
    simp only [argEntries, List.map_cons, List.map_append, List.flatMap_append]
    grind

theorem Command.children_perm (c : Command Handle) :
    (c.tag.key :: c.entries.flatMap Entry.children).Perm (c.entries.map Entry.key) := by
  obtain ⟨id, head, args⟩ := c
  have hh := head.children_perm
  have ha := argChildren_perm args
  simp only [Command.entries, Command.tag_mk, List.map_cons, List.map_append, List.flatMap_cons,
    List.flatMap_append, Entry.children, CommandNode.operands, Entry.key_command]
  grind

theorem commandChildren_perm (cs : List (Command Handle)) :
    ((cs.map Command.tag).map Handle.key ++ (commandEntries cs).flatMap Entry.children).Perm
      ((commandEntries cs).map Entry.key) := by
  cases cs with
  | nil => exact .refl _
  | cons c cs =>
    have hc := c.children_perm
    have hcs := commandChildren_perm cs
    simp only [commandEntries, List.map_cons, List.map_append, List.flatMap_append]
    grind

theorem Pipe.children_perm (p : Pipe Handle) :
    (p.tag.key :: p.entries.flatMap Entry.children).Perm (p.entries.map Entry.key) := by
  obtain ⟨id, decls, commands⟩ := p
  exact (commandChildren_perm commands).cons _

end

mutual

theorem Stmt.children_perm (s : Stmt Handle) :
    (s.tag.key :: s.entries.flatMap Entry.children).Perm (s.entries.map Entry.key) := by
  match s with
  | .text .. | .invoke _ _ none => exact .refl _
  | .action _ p | .invoke _ _ (some p) => exact p.children_perm.cons _
  | .branch id kind p body elseBody =>
    have hp := p.children_perm
    have hb := blockChildren_perm body
    have he := blockChildren_perm elseBody
    simp only [Stmt.entries, Stmt.tag_branch, List.map_cons, List.map_append, List.flatMap_cons,
      List.flatMap_append, Entry.children, Entry.key_stmt]
    rw [blockKeys] at hb he
    grind

theorem blockChildren_perm (b : Block Handle) :
    ((b.map Stmt.tag).map Handle.key ++ (blockEntries b).flatMap Entry.children).Perm
      (blockKeys b) := by
  cases b with
  | nil => exact .refl _
  | cons s b =>
    have hs := s.children_perm
    have hb := blockChildren_perm b
    simp only [blockKeys, blockEntries, List.map_cons, List.map_append, List.flatMap_append] at hb ⊢
    grind

end

namespace Tree

variable {t : Tree} {b : Block Handle}

theorem Holds.roots (h : t.Holds b) : t.roots = (b.map Stmt.tag).map Handle.key := by
  rw [Tree.roots, h.root]

theorem mem_keys_of_reaches (root : t.root = b.map Stmt.tag) (has : ∀ e ∈ blockEntries b, t.Has e)
    {k : Key} (hk : t.Reaches k) : k ∈ blockKeys b := by
  have hperm := blockChildren_perm b
  rw [← root] at hperm
  obtain ⟨n, hk⟩ := hk
  induction hk with
  | root hk => exact hperm.mem_iff.mp (List.mem_append_left _ hk)
  | @child n e k he _ hk ih =>
    obtain ⟨x, hx, hkey⟩ := List.mem_map.mp ih
    obtain rfl := (has x hx).inj he hkey
    exact hperm.mem_iff.mp (List.mem_append_right _ (List.mem_flatMap.mpr ⟨x, hx, hk⟩))

theorem Holds.mem_keys (h : t.Holds b) {k : Key} (hk : t.Reaches k) : k ∈ blockKeys b :=
  mem_keys_of_reaches h.root h.has hk

theorem mem_entries_of_reachable (root : t.root = b.map Stmt.tag)
    (has : ∀ e ∈ blockEntries b, t.Has e) {e : Entry} (he : t.Reachable e) :
    e ∈ blockEntries b := by
  obtain ⟨x, hx, hkey⟩ := List.mem_map.mp (mem_keys_of_reaches root has he.reaches)
  exact (has x hx).inj he.has hkey ▸ hx

theorem Holds.mem_entries (h : t.Holds b) {e : Entry} (he : t.Reachable e) :
    e ∈ blockEntries b :=
  mem_entries_of_reachable h.root h.has he

theorem Holds.singlyOwned (h : t.Holds b) : t.SinglyOwned := by
  have hperm := blockChildren_perm b
  rw [← h.roots] at hperm
  have nodup := hperm.nodup_iff.mpr h.nodup
  rw [List.nodup_append, List.nodup_flatMap] at nodup
  obtain ⟨hroots, ⟨hchildren, hapart⟩, hrootless⟩ := nodup
  refine ⟨⟨fun k hk => ?_, hroots, fun e he => hchildren e (h.mem_entries he),
    fun e he k hk hroot => ?_, fun e e' he he' k hk hk' => ?_⟩,
    fun e he => h.sound e (h.mem_entries he)⟩
  · obtain ⟨e, he, hkey⟩ := List.mem_map.mp (h.mem_keys hk)
    exact ⟨e, h.has e he, hkey⟩
  · exact hrootless k hroot k (List.mem_flatMap.mpr ⟨e, h.mem_entries he, hk⟩) rfl
  · by_contra hne
    have : Std.Symm (Function.onFun List.Disjoint Entry.children) :=
      ⟨fun _ _ h _ hk hk' => h hk' hk⟩
    exact hapart.forall (h.mem_entries he) (h.mem_entries he') hne hk hk'

def nodeCount (t : Tree) : Nat := t.stmts.size + t.pipes.size + t.commands.size + t.exprs.size

theorem length_le_nodeCount {entries : List Entry} (has : ∀ e ∈ entries, t.Has e)
    (nodup : (entries.map Entry.key).Nodup) : entries.length ≤ t.nodeCount := by
  have hcount (kind : NodeKind) := countKind_le_arenaSize kind has nodup
  have hlength : entries.length = countKind .stmt entries + countKind .pipe entries +
      countKind .command entries + countKind .expr entries := by
    clear has nodup hcount
    induction entries with
    | nil => rfl
    | cons e es ih =>
      simp only [List.length_cons, countKind_cons]
      cases e <;> simp [Entry.key] <;> omega
  have hs := hcount .stmt
  have hp := hcount .pipe
  have hc := hcount .command
  have he := hcount .expr
  simp only [arenaSize] at hs hp hc he
  rw [hlength, nodeCount]
  omega

namespace OwnedOnce

variable (h : t.OwnedOnce)
include h

theorem reachesBy_inj {m n : Nat} {k : Key} (hm : t.ReachesBy m k) (hn : t.ReachesBy n k) :
    m = n := by
  induction hm generalizing n with
  | root hk =>
    cases hn with
    | root => rfl
    | child he hn hk' => exact absurd hk (h.rootless _ ⟨he, _, hn⟩ _ hk')
  | child he hm hk ih =>
    cases hn with
    | root hk' => exact absurd hk' (h.rootless _ ⟨he, _, hm⟩ _ hk)
    | child he' hn hk' =>
      obtain rfl := h.owner _ _ ⟨he, _, hm⟩ ⟨he', _, hn⟩ _ hk hk'
      rw [ih hn]

theorem exists_way {n : Nat} {k : Key} (hk : t.ReachesBy n k) :
    ∃ way : List Entry, way.length = n + 1 ∧ (way.map Entry.key).Nodup ∧
      ∀ e ∈ way, t.Has e ∧ ∃ m ≤ n, t.ReachesBy m e.key := by
  induction hk with
  | @root k hk =>
    obtain ⟨e, he, rfl⟩ := h.inRange k ⟨0, .root hk⟩
    exact ⟨[e], rfl, List.nodup_singleton _, by simpa using ⟨he, .root hk⟩⟩
  | @child n e k he hn hk ih =>
    have hreach := ReachesBy.child he hn hk
    obtain ⟨x, hx, rfl⟩ := h.inRange k ⟨_, hreach⟩
    obtain ⟨way, hlength, nodup, hway⟩ := ih
    refine ⟨x :: way, by rw [List.length_cons, hlength], ?_, ?_⟩
    · rw [List.map_cons, List.nodup_cons]
      refine ⟨fun hmem => ?_, nodup⟩
      obtain ⟨y, hy, hkey⟩ := List.mem_map.mp hmem
      obtain ⟨-, m, hm, hreach'⟩ := hway y hy
      have := h.reachesBy_inj (hkey ▸ hreach') hreach
      omega
    · rw [List.forall_mem_cons]
      refine ⟨⟨hx, n + 1, Nat.le_refl _, hreach⟩, fun y hy => ?_⟩
      obtain ⟨hhas, m, hm, hreach'⟩ := hway y hy
      exact ⟨hhas, m, Nat.le_succ_of_le hm, hreach'⟩

theorem lt_nodeCount {n : Nat} {k : Key} (hk : t.ReachesBy n k) : n < t.nodeCount := by
  obtain ⟨way, hlength, nodup, hway⟩ := h.exists_way hk
  have := length_le_nodeCount (fun e he => (hway e he).1) nodup
  omega

end OwnedOnce

def Unfolds (t : Tree) : Key → Prop
  | ⟨.stmt, id⟩ => ∃ s : Stmt Handle, s.tag = id ∧ ∀ x ∈ s.entries, t.Reachable x
  | ⟨.pipe, id⟩ => ∃ p : Pipe Handle, p.tag = id ∧ ∀ x ∈ p.entries, t.Reachable x
  | ⟨.command, id⟩ => ∃ c : Command Handle, c.tag = id ∧ ∀ x ∈ c.entries, t.Reachable x
  | ⟨.expr, id⟩ => ∃ e : Expr Handle, e.tag = id ∧ ∀ x ∈ e.entries, t.Reachable x

theorem exists_map_eq {α β : Type} {g : β → α} {P : β → Prop} {as : List α}
    (h : ∀ a ∈ as, ∃ b, g b = a ∧ P b) : ∃ bs : List β, bs.map g = as ∧ ∀ b ∈ bs, P b := by
  induction as with
  | nil => exact ⟨[], rfl, nofun⟩
  | cons a as ih =>
    rw [List.forall_mem_cons] at h
    obtain ⟨b, rfl, hb⟩ := h.1
    obtain ⟨bs, rfl, hbs⟩ := ih h.2
    exact ⟨b :: bs, rfl, List.forall_mem_cons.mpr ⟨hb, hbs⟩⟩

theorem unfolds_stmts {ids : List StmtId} (h : ∀ id ∈ ids, t.Unfolds id.key) :
    ∃ b : Block Handle, b.map Stmt.tag = ids ∧ ∀ x ∈ blockEntries b, t.Reachable x := by
  obtain ⟨b, htags, hb⟩ := exists_map_eq (g := Stmt.tag) h
  refine ⟨b, htags, fun x hx => ?_⟩
  obtain ⟨s, hs, hx⟩ := mem_blockEntries.mp hx
  exact hb s hs x hx

theorem Reachable.unfolds {e : Entry} (he : t.Reachable e)
    (h : ∀ k ∈ e.children, t.Unfolds k) : t.Unfolds e.key := by
  match e with
  | .stmt id (.text text) => exact ⟨.text id text, rfl, by simpa [Stmt.entries] using he⟩
  | .stmt id (.invoke name none) =>
    exact ⟨.invoke id name none, rfl, by simpa [Stmt.entries] using he⟩
  | .stmt id (.action pipe) =>
    obtain ⟨p, rfl, hp⟩ := h _ (List.mem_singleton_self _)
    exact ⟨.action id p, rfl, List.forall_mem_cons.mpr ⟨he, hp⟩⟩
  | .stmt id (.invoke name (some pipe)) =>
    obtain ⟨p, rfl, hp⟩ := h _ (List.mem_singleton_self _)
    exact ⟨.invoke id name (some p), rfl, List.forall_mem_cons.mpr ⟨he, hp⟩⟩
  | .stmt id (.branch kind pipe body elseBody) =>
    rw [Entry.children, List.forall_mem_cons, List.forall_mem_append, List.forall_mem_map,
      List.forall_mem_map] at h
    obtain ⟨⟨p, rfl, hp⟩, hbody, helse⟩ := h
    obtain ⟨b, rfl, hb⟩ := unfolds_stmts hbody
    obtain ⟨e, rfl, he'⟩ := unfolds_stmts helse
    refine ⟨.branch id kind p b e, rfl, List.forall_mem_cons.mpr ⟨he, ?_⟩⟩
    exact List.forall_mem_append.mpr ⟨List.forall_mem_append.mpr ⟨hp, hb⟩, he'⟩
  | .pipe id ⟨decls, commands⟩ =>
    rw [Entry.children, List.forall_mem_map] at h
    obtain ⟨cs, rfl, hcs⟩ := exists_map_eq (g := Command.tag) h
    refine ⟨.mk id decls cs, rfl, List.forall_mem_cons.mpr ⟨he, fun x hx => ?_⟩⟩
    obtain ⟨c, hc, hx⟩ := mem_commandEntries.mp hx
    exact hcs c hc x hx
  | .command id ⟨head, args⟩ =>
    simp only [Entry.children, CommandNode.operands, List.map_cons, List.forall_mem_cons,
      List.forall_mem_map] at h
    obtain ⟨⟨e, rfl, he'⟩, hargs⟩ := h
    obtain ⟨es, rfl, hes⟩ := exists_map_eq (g := Expr.tag) hargs
    refine ⟨.mk id e es, rfl, List.forall_mem_cons.mpr ⟨he, List.forall_mem_append.mpr
      ⟨he', fun x hx => ?_⟩⟩⟩
    obtain ⟨a, ha, hx⟩ := mem_argEntries.mp hx
    exact hes a ha x hx
  | .expr id (.atom a) => exact ⟨.atom id a, rfl, by simpa [Expr.entries] using he⟩
  | .expr id (.paren pipe) =>
    obtain ⟨p, rfl, hp⟩ := h _ (List.mem_singleton_self _)
    exact ⟨.paren id p, rfl, List.forall_mem_cons.mpr ⟨he, hp⟩⟩

namespace OwnedOnce

variable (h : t.OwnedOnce)
include h

theorem unfolds {n : Nat} {k : Key} (hk : t.ReachesBy n k) : t.Unfolds k := by
  -- The way to a node is shorter than the store, so there is an end to what it owns.
  induction hm : t.nodeCount - n using Nat.strongRecOn generalizing n k with | _ m ih
  obtain ⟨e, he, rfl⟩ := h.inRange k ⟨n, hk⟩
  refine Reachable.unfolds ⟨he, n, hk⟩ fun c hc => ?_
  have hlt := h.lt_nodeCount hk
  exact ih (t.nodeCount - (n + 1)) (by omega) (.child he hk hc) rfl

theorem count_flatMap_le {e : Entry} (he : t.Reachable e) {k : Key} (hk : k ∈ e.children)
    {entries : List Entry} (hentries : ∀ x ∈ entries, t.Reachable x) :
    (entries.flatMap Entry.children).count k ≤ entries.count e := by
  induction entries with
  | nil => exact Nat.le_refl _
  | cons x xs ih =>
    rw [List.forall_mem_cons] at hentries
    have hxs := ih hentries.2
    rw [List.flatMap_cons, List.count_append, List.count_cons]
    by_cases hx : x = e
    · have := List.nodup_iff_count_le_one.mp (h.children x hentries.1) k
      rw [hx] at this ⊢
      simp only [beq_self_eq_true, if_true]
      omega
    · have hnot : k ∉ x.children := fun hk' => hx (h.owner x e hentries.1 he k hk' hk)
      rw [List.count_eq_zero_of_not_mem hnot]
      omega

theorem count_le_one (hb : ∀ x ∈ blockEntries b, t.Reachable x) (hroot : t.root = b.map Stmt.tag)
    {n : Nat} {k : Key} (hk : t.ReachesBy n k) : (blockKeys b).count k ≤ 1 := by
  have hperm (k : Key) : (blockKeys b).count k =
      t.roots.count k + ((blockEntries b).flatMap Entry.children).count k := by
    rw [← (blockChildren_perm b).count_eq k, List.count_append, Tree.roots, hroot]
  induction hk with
  | @root k hk =>
    have hnot : k ∉ (blockEntries b).flatMap Entry.children := fun hmem =>
      have ⟨e, he, hk'⟩ := List.mem_flatMap.mp hmem
      h.rootless e (hb e he) k hk' hk
    rw [hperm, List.count_eq_zero_of_not_mem hnot]
    exact List.nodup_iff_count_le_one.mp h.roots k
  | @child n e k he hn hk ih =>
    have hreach : t.Reachable e := ⟨he, n, hn⟩
    have hle := h.count_flatMap_le hreach hk hb
    have hkeys : (blockEntries b).count e ≤ (blockKeys b).count e.key :=
      List.count_le_count_map
    rw [hperm, List.count_eq_zero_of_not_mem (h.rootless e hreach k hk)]
    omega

theorem exists_block : ∃ b : Block Handle, t.root = b.map Stmt.tag ∧ (blockKeys b).Nodup ∧
    ∀ e ∈ blockEntries b, t.Reachable e := by
  obtain ⟨b, hroot, hb⟩ := unfolds_stmts (t := t) fun id hid =>
    h.unfolds (.root (List.mem_map_of_mem hid))
  refine ⟨b, hroot.symm, List.nodup_iff_count_le_one.mpr fun k => ?_, hb⟩
  by_cases hk : k ∈ blockKeys b
  · obtain ⟨e, he, rfl⟩ := List.mem_map.mp hk
    obtain ⟨n, hn⟩ := (hb e he).reaches
    exact h.count_le_one hb hroot.symm hn
  · rw [List.count_eq_zero_of_not_mem hk]
    exact Nat.zero_le _

end OwnedOnce

theorem SinglyOwned.exists_reachable (h : t.SinglyOwned) :
    ∃ b, t.Holds b ∧ ∀ e ∈ blockEntries b, t.Reachable e :=
  have ⟨b, root, nodup, hb⟩ := h.toOwnedOnce.exists_block
  ⟨b, ⟨root, fun e he => (hb e he).has, nodup, fun e he => h.sound e (hb e he)⟩, hb⟩

theorem SinglyOwned.exists_holds (h : t.SinglyOwned) : ∃ b, t.Holds b :=
  have ⟨b, hb, _⟩ := h.exists_reachable
  ⟨b, hb⟩

theorem Holds.reachable (h : t.Holds b) {e : Entry} (he : e ∈ blockEntries b) :
    t.Reachable e := by
  obtain ⟨b', hb', hreachable⟩ := h.singlyOwned.exists_reachable
  obtain rfl := Except.ok.inj (h.read.symm.trans hb'.read)
  exact hreachable e he

theorem Holds.reachable_iff (h : t.Holds b) {e : Entry} : t.Reachable e ↔ e ∈ blockEntries b :=
  ⟨h.mem_entries, h.reachable⟩

theorem singlyOwned_iff : t.SinglyOwned ↔ ∃ b, t.Holds b :=
  ⟨SinglyOwned.exists_holds, fun ⟨_, h⟩ => h.singlyOwned⟩

end Tree

end FlatTemplate

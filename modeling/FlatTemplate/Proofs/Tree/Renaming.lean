import FlatTemplate.Proofs.Parser.Building
import FlatTemplate.Proofs.Template.Hygiene
import FlatTemplate.Proofs.Tree.Respelling

namespace FlatTemplate

namespace Arena

variable {kind : NodeKind} {α : Type}

def map (f : α → α) (a : Arena kind α) : Arena kind α := ⟨a.nodes.map f⟩

theorem size_map (f : α → α) (a : Arena kind α) : (a.map f).size = a.size := Array.size_map

theorem get_map_eq_ok_iff {f : α → α} {a : Arena kind α} {h : Handle kind} {node : α} :
    (a.map f).get h = .ok node ↔ ∃ old, a.get h = .ok old ∧ f old = node := by
  simp only [map, get, Array.getElem?_map]
  cases a.nodes[h.index]? <;> simp

theorem eq_of_get {a b : Arena kind α} (hsize : a.size = b.size)
    (hget : ∀ h node, a.get h = .ok node → b.get h = .ok node) : a = b := by
  obtain ⟨xs⟩ := a
  obtain ⟨ys⟩ := b
  congr 1
  apply Array.ext hsize
  intro i hx hy
  have hnode := hget ⟨i⟩ xs[i] (by simp [get, hx])
  simpa [get, hy] using hnode.symm

end Arena

def PipeNode.rename (g : String → String) (node : PipeNode) : PipeNode :=
  { node with decls := node.decls.map g }

def ExprNode.rename (g : String → String) : ExprNode → ExprNode
  | .atom a => .atom (a.rename g)
  | .paren inner => .paren inner

namespace Tree

def rename (g : String → String) (t : Tree) : Tree :=
  { t with pipes := t.pipes.map (·.rename g), exprs := t.exprs.map (·.rename g) }

variable {t t' : Tree} {b : Block Handle} {g : String → String}

theorem eq_of_has (hname : t.name = t'.name) (hroot : t.root = t'.root)
    (hsize : ∀ kind, t.arenaSize kind = t'.arenaSize kind) (has : ∀ e, t.Has e → t'.Has e) :
    t = t' := by
  obtain ⟨name, root, stmts, pipes, commands, exprs⟩ := t
  obtain ⟨name', root', stmts', pipes', commands', exprs'⟩ := t'
  obtain rfl : name = name' := hname
  obtain rfl : root = root' := hroot
  obtain rfl := Arena.eq_of_get (hsize .stmt) fun id node => has (.stmt id node)
  obtain rfl := Arena.eq_of_get (hsize .pipe) fun id node => has (.pipe id node)
  obtain rfl := Arena.eq_of_get (hsize .command) fun id node => has (.command id node)
  obtain rfl := Arena.eq_of_get (hsize .expr) fun id node => has (.expr id node)
  rfl

theorem arenaSize_rename (g : String → String) (t : Tree) (kind : NodeKind) :
    (t.rename g).arenaSize kind = t.arenaSize kind := by
  cases kind with
  | stmt | command => rfl
  | pipe => exact Arena.size_map _ _
  | expr => exact Arena.size_map _ _

theorem exists_of_has_rename {e : Entry} (h : (t.rename g).Has e) :
    ∃ x, t.Has x ∧ x.rename g = e := by
  cases e with
  | stmt id node => exact ⟨.stmt id node, h, rfl⟩
  | command id node => exact ⟨.command id node, h, rfl⟩
  | pipe id node =>
    obtain ⟨old, hold, rfl⟩ := Arena.get_map_eq_ok_iff.mp h
    exact ⟨.pipe id old, hold, rfl⟩
  | expr id node =>
    obtain ⟨old, hold, rfl⟩ := Arena.get_map_eq_ok_iff.mp h
    refine ⟨.expr id old, hold, ?_⟩
    cases old <;> rfl

theorem name_countEach {α : Type} {f : Tree → α → Except Fault (Tree × Nat)}
    (hf : ∀ {t a t' n}, f t a = .ok (t', n) → t'.name = t.name) {as : List α} {n : Nat}
    (h : countEach f t as = .ok (t', n)) : t'.name = t.name := by
  induction as generalizing t n with
  | nil =>
    obtain ⟨rfl, -⟩ := Prod.mk.inj (Except.ok.inj h)
    rfl
  | cons a as ih =>
    obtain ⟨⟨t₁, m⟩, ha, h⟩ := bind_eq_ok_iff.mp h
    obtain ⟨⟨t₂, k⟩, has, h⟩ := bind_eq_ok_iff.mp h
    obtain ⟨rfl, -⟩ := Prod.mk.inj (Except.ok.inj h)
    exact (ih has).trans (hf ha)

theorem name_respellOperand {tag : String} {e : ExprId} {n : Nat}
    (h : respellOperand tag t e = .ok (t', n)) : t'.name = t.name := by
  obtain ⟨node, -, h⟩ := bind_eq_ok_iff.mp h
  split at h
  · cases h
  · split at h
    · obtain ⟨rfl, -⟩ := Prod.mk.inj (Except.ok.inj h)
      rfl
    · obtain ⟨t₁, hset, h⟩ := bind_eq_ok_iff.mp h
      obtain ⟨rfl, -⟩ := Prod.mk.inj (Except.ok.inj h)
      obtain ⟨exprs, -, hset⟩ := bind_eq_ok_iff.mp hset
      rw [← Except.ok.inj hset]
  · obtain ⟨rfl, -⟩ := Prod.mk.inj (Except.ok.inj h)
    rfl

theorem name_respellPipe {tag : String} {pipe : PipeId} {n : Nat}
    (h : respellPipe tag t pipe = .ok (t', n)) : t'.name = t.name := by
  obtain ⟨node, -, h⟩ := bind_eq_ok_iff.mp h
  obtain ⟨t₁, hset, h⟩ := bind_eq_ok_iff.mp h
  obtain ⟨⟨t₂, m⟩, hcount, h⟩ := bind_eq_ok_iff.mp h
  obtain ⟨rfl, -⟩ := Prod.mk.inj (Except.ok.inj h)
  obtain ⟨pipes, -, hset⟩ := bind_eq_ok_iff.mp hset
  have hname : t₁.name = t.name := by rw [← Except.ok.inj hset]
  refine (name_countEach (fun h => ?_) hcount).trans hname
  obtain ⟨c, -, h⟩ := bind_eq_ok_iff.mp h
  exact name_countEach name_respellOperand h

theorem name_respellVariables {tag : String} {n : Nat}
    (h : t.respellVariables tag = .ok (t', n)) : t'.name = t.name := by
  obtain ⟨pipes, -, h⟩ := bind_eq_ok_iff.mp h
  exact name_countEach name_respellPipe h

theorem Stores.respellVariables (h : t.Stores b) (hproper : ∀ p ∈ blockPipes b, p.Proper)
    (tag : String) :
    t.respellVariables tag = .ok (t.rename (respell tag), countNames t.entries) := by
  obtain ⟨t', hrun, hholds, hsize⟩ := (h.holds hproper).respellVariables tag
  have heq : t.rename (respell tag) = t' := by
    refine eq_of_has (name_respellVariables hrun).symm ?_ (fun kind => ?_) fun e he => ?_
    · rw [hholds.root, map_tag_blockRename, ← h.root]
      rfl
    · rw [arenaSize_rename, hsize]
    · obtain ⟨x, hx, rfl⟩ := exists_of_has_rename he
      apply hholds.has
      rw [blockEntries_rename]
      exact List.mem_map_of_mem ((h.has_iff x).mp hx)
  rw [hrun, heq, countNames_perm h.entries_perm]

/-- Respelling the variables of a template is one renaming of all its names, which is one to one and
leaves the root variable. Every node is reachable, every declaration and every read is renamed once,
and the count is that of the names other than the root variable. -/
theorem Parsed.respells (ht : t.Parsed) {tag : String} (htag : tag ≠ "") :
    respell tag rootVariable = rootVariable ∧
      (∀ bare, bare ≠ "" → respell tag ("$" ++ bare) = "$" ++ tag ++ bare) ∧
      Set.InjOn (respell tag) {name | IsVariable name} ∧
      (∀ e ∈ t.entries, t.Reachable e ∧ ∀ name ∈ e.names, IsVariable name) ∧
      t.respellVariables tag = .ok (t.rename (respell tag), countNames t.entries) := by
  obtain ⟨b, hstores, hlegible, -⟩ := ht.stores
  have hholds := hstores.holds hlegible.pipes
  have hlist : tag.toList ≠ [] := fun h => htag (String.toList_eq_nil_iff.mp h)
  refine ⟨respell_root tag, fun bare => respell_variable tag,
    fun x hx y hy => respell_inj hlist hx hy, fun e he => ?_,
    hstores.respellVariables hlegible.pipes tag⟩
  have hmem : e ∈ blockEntries b := hstores.entries_perm.mem_iff.mp he
  have hnamed := governed_named.mp (named_of_proper hlegible.pipes) e hmem
  exact ⟨hholds.reachable hmem, Entry.named_iff.mp hnamed⟩

def pairedLoop : Tree :=
  let read (name : String) : Expr Untagged := .atom () (.var [name])
  let printed : Pipe Untagged :=
    .mk () [] [.mk () (read "$i") [], .mk () (.atom () (.identifier "print")) []]
  let compared : Pipe Untagged :=
    .mk () [] [.mk () (.atom () (.identifier "eq")) [.paren () printed, read "$v"]]
  .ofBlock "" [.branch () .range (.mk () ["$i", "$v"] [.mk () (.atom () (.field ["L"])) []])
    [.action () compared] [.action () (.mk () [] [.mk () (read "$i") []])]]

theorem parse_pairedLoop : Tree.parse (delimited "range $i, $v := .L" ++
    delimited "eq ($i | print) $v" ++ delimited "else" ++ delimited "$i" ++ delimited "end") =
      .ok pairedLoop := by cbv

theorem respells_pairedLoop : ("tpl_" : String) ≠ "" ∧
    pairedLoop.respellVariables "tpl_" = .ok (pairedLoop.rename (respell "tpl_"), 5) ∧
      (pairedLoop.rename (respell "tpl_")).Has (.pipe ⟨0⟩ ⟨["$tpl_i", "$tpl_v"], [⟨0⟩]⟩) := by
  have htag : ("tpl_" : String) ≠ "" := by decide
  obtain ⟨-, -, -, -, hrun⟩ := (parsed_of_parse parse_pairedLoop).respells htag
  have hcount : countNames pairedLoop.entries = 5 := by cbv
  rw [hcount] at hrun
  exact ⟨htag, hrun, by cbv⟩

end Tree

end FlatTemplate

import FlatTemplate.Proofs.Except
import FlatTemplate.Proofs.Template.Entries
import FlatTemplate.Tree.Reading

/-!
What it means for a store to hold a template, and that reading a store finds the template it holds.
-/

namespace FlatTemplate

namespace Tree

def Has (t : Tree) : Entry → Prop
  | .stmt id node => t.stmts.get id = .ok node
  | .pipe id node => t.pipes.get id = .ok node
  | .command id node => t.commands.get id = .ok node
  | .expr id node => t.exprs.get id = .ok node

/-- The store holds `b`: a tree, every pipeline of which has a command and every variable of which
has a segment. -/
structure Holds (t : Tree) (b : Block Handle) : Prop where
  root : t.root = b.map Stmt.tag
  has : ∀ e ∈ blockEntries b, t.Has e
  nodup : (blockKeys b).Nodup
  sound : ∀ e ∈ blockEntries b, e.Sound

def arenaSize (t : Tree) : NodeKind → Nat
  | .stmt => t.stmts.size
  | .pipe => t.pipes.size
  | .command => t.commands.size
  | .expr => t.exprs.size

end Tree

theorem Arena.index_lt_of_get {kind : NodeKind} {α : Type} {a : Arena kind α} {h : Handle kind}
    {node : α} (hg : a.get h = .ok node) : h.index < a.size := by
  unfold Arena.get at hg
  split at hg
  · next node' hn =>
    obtain ⟨hlt, _⟩ := Array.getElem?_eq_some_iff.mp hn
    exact hlt
  · cases hg

namespace Tree

variable {t : Tree}

theorem Has.index_lt {e : Entry} (h : t.Has e) : e.key.2.index < t.arenaSize e.key.1 := by
  cases e <;> exact Arena.index_lt_of_get h

theorem countKind_le_arenaSize {entries : List Entry} (kind : NodeKind)
    (has : ∀ e ∈ entries, t.Has e) (nodup : (entries.map Entry.key).Nodup) :
    countKind kind entries ≤ t.arenaSize kind := by
  let those := (entries.map Entry.key).filter fun k => k.1 = kind
  have hlen : countKind kind entries = those.length := by
    simp only [those, countKind, List.countP_eq_length_filter, List.filter_map, List.length_map]
    rfl
  have hinj : (those.map fun k => k.2.index).Nodup := by
    refine List.Nodup.map_on ?_ (nodup.filter _)
    rintro ⟨j, x⟩ hj ⟨k, y⟩ hk hxy
    obtain rfl : j = kind := by simpa using (List.mem_filter.mp hj).2
    obtain rfl : k = j := by simpa using (List.mem_filter.mp hk).2
    obtain ⟨x⟩ := x
    obtain ⟨y⟩ := y
    obtain rfl : x = y := hxy
    rfl
  have hsub : (those.map fun k => k.2.index) ⊆ List.range (t.arenaSize kind) := by
    intro i hi
    obtain ⟨k, hk, rfl⟩ := List.mem_map.mp hi
    obtain ⟨hk, hkind⟩ := List.mem_filter.mp hk
    obtain ⟨e, he, rfl⟩ := List.mem_map.mp hk
    obtain rfl : e.key.1 = kind := by simpa using hkind
    exact List.mem_range.mpr (has e he).index_lt
  have := (List.subperm_of_subset hinj hsub).length_le
  simpa [hlen] using this

theorem get_node {e : Expr Handle} (has : ∀ x ∈ e.entries, t.Has x) :
    t.exprs.get e.tag = .ok e.node := by
  cases e with
  | atom id a => exact has (.expr id (.atom a)) (by simp [Expr.entries])
  | paren id inner => exact has (.expr id (.paren inner.tag)) (by simp [Expr.entries])

theorem get_pipe {p : Pipe Handle} (has : ∀ x ∈ p.entries, t.Has x) :
    t.pipes.get p.tag = .ok ⟨p.decls, p.commands.map Command.tag⟩ := by
  obtain ⟨id, decls, commands⟩ := p
  exact has (.pipe id _) (by simp [Pipe.entries, Pipe.decls, Pipe.commands])

theorem get_command {c : Command Handle} (has : ∀ x ∈ c.entries, t.Has x) :
    t.commands.get c.tag = .ok ⟨c.head.tag, c.args.map Expr.tag⟩ := by
  obtain ⟨id, head, args⟩ := c
  exact has (.command id _) (by simp [Command.entries, Command.head, Command.args])

theorem get_stmt {s : Stmt Handle} (has : ∀ x ∈ s.entries, t.Has x) :
    t.stmts.get s.tag = .ok s.node :=
  has s.entry s.entry_mem_entries

mutual

theorem readExpr_of_has (d : Nat) (e : Expr Handle) (has : ∀ x ∈ e.entries, t.Has x)
    (hd : countKind .pipe e.entries ≤ d) : t.readExpr (t.readPipeWithin d) e.tag = .ok e := by
  rw [readExpr, get_node has, ok_bind]
  cases e with
  | atom id a => rfl
  | paren id inner =>
    have hi := readPipeWithin_of_has d inner (fun x hm => has x (by simp [Expr.entries, hm]))
      (by simpa [Expr.entries, Entry.key] using hd)
    simp [Expr.node, hi]

theorem readArgs_of_has (d : Nat) (es : List (Expr Handle)) (has : ∀ x ∈ argEntries es, t.Has x)
    (hd : countKind .pipe (argEntries es) ≤ d) :
    ∀ e ∈ es, t.readExpr (t.readPipeWithin d) e.tag = .ok e := by
  cases es with
  | nil => simp
  | cons e es =>
    simp only [argEntries, countKind_append] at hd
    have he := readExpr_of_has d e (fun x hm => has x (by simp [argEntries, hm])) (by omega)
    have hes := readArgs_of_has d es (fun x hm => has x (by simp [argEntries, hm])) (by omega)
    simpa using ⟨he, hes⟩

theorem readCommand_of_has (d : Nat) (c : Command Handle) (has : ∀ x ∈ c.entries, t.Has x)
    (hd : countKind .pipe c.entries ≤ d) :
    t.readCommand (t.readPipeWithin d) c.tag = .ok c := by
  rw [readCommand, get_command has, ok_bind]
  obtain ⟨id, head, args⟩ := c
  simp only [Command.entries, countKind_cons, countKind_append, Entry.key] at hd
  have hh := readExpr_of_has d head (fun x hm => has x (by simp [Command.entries, hm])) (by omega)
  have ha := readArgs_of_has d args (fun x hm => has x (by simp [Command.entries, hm])) (by omega)
  simp [hh, mapM_map_eq_ok ha]

theorem readCommands_of_has (d : Nat) (cs : List (Command Handle))
    (has : ∀ x ∈ commandEntries cs, t.Has x) (hd : countKind .pipe (commandEntries cs) ≤ d) :
    ∀ c ∈ cs, t.readCommand (t.readPipeWithin d) c.tag = .ok c := by
  cases cs with
  | nil => simp
  | cons c cs =>
    simp only [commandEntries, countKind_append] at hd
    have hc := readCommand_of_has d c (fun x hm => has x (by simp [commandEntries, hm])) (by omega)
    have hcs := readCommands_of_has d cs (fun x hm => has x (by simp [commandEntries, hm]))
      (by omega)
    simpa using ⟨hc, hcs⟩

theorem readPipeWithin_of_has (d : Nat) (p : Pipe Handle) (has : ∀ x ∈ p.entries, t.Has x)
    (hd : countKind .pipe p.entries ≤ d) : t.readPipeWithin d p.tag = .ok p := by
  have hp := get_pipe has
  obtain ⟨id, decls, commands⟩ := p
  simp only [Pipe.entries, countKind_cons, Entry.key, if_true] at hd
  obtain ⟨d, rfl⟩ : ∃ d', d = d' + 1 := ⟨d - 1, by omega⟩
  have hc := readCommands_of_has d commands (fun x hm => has x (by simp [Pipe.entries, hm]))
    (by omega)
  rw [readPipeWithin, hp, ok_bind]
  simp [mapM_map_eq_ok hc]

end

theorem readPipe_of_has {p : Pipe Handle} (has : ∀ x ∈ p.entries, t.Has x)
    (nodup : (p.entries.map Entry.key).Nodup) : t.readPipe p.tag = .ok p := by
  have := countKind_le_arenaSize .pipe has nodup
  exact readPipeWithin_of_has _ p has (Nat.le_succ_of_le this)

mutual

theorem readStmtWithin_of_has (d : Nat) (s : Stmt Handle) (has : ∀ x ∈ s.entries, t.Has x)
    (nodup : (s.entries.map Entry.key).Nodup) (hd : countKind .stmt s.entries ≤ d) :
    t.readStmtWithin d s.tag = .ok s := by
  obtain ⟨d, rfl⟩ := Nat.exists_eq_add_one_of_ne_zero (Stmt.ne_zero_of_countKind_le hd)
  rw [readStmtWithin, get_stmt has, ok_bind]
  match s with
  | .text id text | .invoke id name none => rfl
  | .action id p | .invoke id name (some p) =>
    have hp := readPipe_of_has (fun x hm => has x (List.mem_cons_of_mem _ hm))
      (nodup.sublist ((List.sublist_cons_self _ _).map _))
    simp [Stmt.node, Stmt.tag, hp]
  | .branch id kind p body elseBody =>
    simp only [Stmt.entries, countKind_cons, countKind_append, Entry.key, if_true, List.map_cons,
      List.map_append, List.nodup_cons, List.nodup_append] at hd nodup
    have hp := readPipe_of_has (p := p) (fun x hm => has x (by simp [Stmt.entries, hm]))
      nodup.2.1.1
    have hb := readStmts_of_has d body (fun x hm => has x (by simp [Stmt.entries, hm]))
      nodup.2.1.2.1 (by omega)
    have he := readStmts_of_has d elseBody (fun x hm => has x (by simp [Stmt.entries, hm]))
      nodup.2.2.1 (by omega)
    simp [Stmt.node, Stmt.tag, hp, mapM_map_eq_ok hb, mapM_map_eq_ok he]

theorem readStmts_of_has (d : Nat) (b : Block Handle) (has : ∀ x ∈ blockEntries b, t.Has x)
    (nodup : ((blockEntries b).map Entry.key).Nodup)
    (hd : countKind .stmt (blockEntries b) ≤ d) :
    ∀ s ∈ b, t.readStmtWithin d s.tag = .ok s := by
  cases b with
  | nil => simp
  | cons s b =>
    simp only [blockEntries, List.map_append, List.nodup_append, countKind_append] at nodup hd
    have hs := readStmtWithin_of_has d s (fun x hm => has x (by simp [blockEntries, hm]))
      nodup.1 (by omega)
    have hb := readStmts_of_has d b (fun x hm => has x (by simp [blockEntries, hm]))
      nodup.2.1 (by omega)
    simpa using ⟨hs, hb⟩

end

theorem read_of_has {b : Block Handle} (root : t.root = b.map Stmt.tag)
    (has : ∀ e ∈ blockEntries b, t.Has e) (nodup : (blockKeys b).Nodup) : t.read = .ok b := by
  have hd := countKind_le_arenaSize .stmt has nodup
  rw [Tree.read, root]
  exact mapM_map_eq_ok fun s hs => readStmts_of_has _ b has nodup (Nat.le_succ_of_le hd) s hs

theorem Holds.read {b : Block Handle} (h : t.Holds b) : t.read = .ok b :=
  read_of_has h.root h.has h.nodup

def Finds {α : Type} {kind : NodeKind} (t : Tree) (tag : α → Handle kind)
    (entries : α → List Entry) (read : Handle kind → Except Fault α) : Prop :=
  ∀ id a, read id = .ok a → tag a = id ∧ ∀ x ∈ entries a, t.Has x

theorem readExpr_finds {pipe : PipeId → Except Fault (Pipe Handle)}
    (hp : t.Finds Pipe.tag Pipe.entries pipe) :
    t.Finds Expr.tag Expr.entries (t.readExpr pipe) := by
  intro id e h
  simp only [readExpr, bind_eq_ok_iff] at h
  obtain ⟨node, hn, h⟩ := h
  cases node with
  | atom a =>
    obtain rfl : .atom id a = e := by simpa using h
    simpa [Expr.tag, Expr.entries, Has] using hn
  | paren inner =>
    simp only [bind_eq_ok_iff] at h
    obtain ⟨p, hq, h⟩ := h
    obtain rfl : .paren id p = e := by simpa using h
    obtain ⟨rfl, hx⟩ := hp inner p hq
    refine ⟨rfl, fun x hm => ?_⟩
    rcases List.mem_cons.mp hm with rfl | hm
    · exact hn
    · exact hx x hm

theorem readCommand_finds {pipe : PipeId → Except Fault (Pipe Handle)}
    (hp : t.Finds Pipe.tag Pipe.entries pipe) :
    t.Finds Command.tag Command.entries (t.readCommand pipe) := by
  intro id c h
  simp only [readCommand, bind_eq_ok_iff] at h
  obtain ⟨⟨head, args⟩, hn, e, he, es, hes, h⟩ := h
  obtain rfl : .mk id e es = c := by simpa using h
  have hexpr := readExpr_finds hp
  obtain ⟨rfl, hx⟩ := hexpr head e he
  obtain ⟨rfl, hargs⟩ := eq_map_of_mapM (fun i x h => (hexpr i x h).1) hes
  refine ⟨rfl, fun x hm => ?_⟩
  simp only [Command.entries, List.mem_cons, List.mem_append] at hm
  rcases hm with rfl | hm | hm
  · exact hn
  · exact hx x hm
  · obtain ⟨e, he, hm⟩ := mem_argEntries.mp hm
    exact (hexpr _ _ (hargs e he)).2 x hm

theorem readPipeWithin_finds (d : Nat) :
    t.Finds Pipe.tag Pipe.entries (t.readPipeWithin d) := by
  induction d with
  | zero =>
    intro id p h
    simp [readPipeWithin, throw, throwThe, MonadExceptOf.throw] at h
  | succ d ih =>
    intro id p h
    simp only [readPipeWithin, bind_eq_ok_iff] at h
    obtain ⟨⟨decls, ids⟩, hn, cs, hcs, h⟩ := h
    obtain rfl : .mk id decls cs = p := by simpa using h
    have hcommand := readCommand_finds ih
    obtain ⟨rfl, hall⟩ := eq_map_of_mapM (fun i x h => (hcommand i x h).1) hcs
    refine ⟨rfl, fun x hm => ?_⟩
    rcases List.mem_cons.mp hm with rfl | hm
    · exact hn
    · obtain ⟨c, hc, hm⟩ := mem_commandEntries.mp hm
      exact (hcommand _ _ (hall c hc)).2 x hm

theorem readStmtWithin_finds (d : Nat) :
    t.Finds Stmt.tag Stmt.entries (t.readStmtWithin d) := by
  induction d with
  | zero =>
    intro id s h
    simp [readStmtWithin, throw, throwThe, MonadExceptOf.throw] at h
  | succ d ih =>
    intro id s h
    simp only [readStmtWithin, bind_eq_ok_iff] at h
    obtain ⟨node, hn, h⟩ := h
    cases node with
    | text text =>
      obtain rfl : .text id text = s := by simpa using h
      simpa [Stmt.tag, Stmt.entries, Has] using hn
    | action pipe =>
      simp only [bind_eq_ok_iff] at h
      obtain ⟨p, hp, h⟩ := h
      obtain rfl : .action id p = s := by simpa using h
      obtain ⟨rfl, hx⟩ := readPipeWithin_finds _ pipe p hp
      refine ⟨rfl, fun x hm => ?_⟩
      rcases List.mem_cons.mp hm with rfl | hm
      · exact hn
      · exact hx x hm
    | branch kind pipe body elseBody =>
      simp only [bind_eq_ok_iff] at h
      obtain ⟨p, hp, b, hb, e, he, h⟩ := h
      obtain rfl : .branch id kind p b e = s := by simpa using h
      obtain ⟨rfl, hx⟩ := readPipeWithin_finds _ pipe p hp
      obtain ⟨rfl, hbody⟩ := eq_map_of_mapM (fun i x h => (ih i x h).1) hb
      obtain ⟨rfl, helse⟩ := eq_map_of_mapM (fun i x h => (ih i x h).1) he
      refine ⟨rfl, fun x hm => ?_⟩
      simp only [Stmt.entries, List.mem_cons, List.mem_append] at hm
      rcases hm with rfl | (hm | hm) | hm
      · exact hn
      · exact hx x hm
      · obtain ⟨s, hs, hm⟩ := mem_blockEntries.mp hm
        exact (ih _ _ (hbody s hs)).2 x hm
      · obtain ⟨s, hs, hm⟩ := mem_blockEntries.mp hm
        exact (ih _ _ (helse s hs)).2 x hm
    | invoke name pipe =>
      cases pipe with
      | none =>
        obtain rfl : .invoke id name none = s := by simpa using h
        simpa [Stmt.tag, Stmt.entries, Has] using hn
      | some pipe =>
        simp only [bind_eq_ok_iff] at h
        obtain ⟨p, hp, h⟩ := h
        obtain rfl : .invoke id name (some p) = s := by simpa using h
        obtain ⟨rfl, hx⟩ := readPipeWithin_finds _ pipe p hp
        refine ⟨rfl, fun x hm => ?_⟩
        rcases List.mem_cons.mp hm with rfl | hm
        · exact hn
        · exact hx x hm

theorem holds_iff {b : Block Handle} : t.Holds b ↔
    t.read = .ok b ∧ (blockKeys b).Nodup ∧ ∀ e ∈ blockEntries b, e.Sound := by
  refine ⟨fun h => ⟨h.read, h.nodup, h.sound⟩, fun ⟨hb, nodup, sound⟩ => ?_⟩
  have hfind := readStmtWithin_finds (t := t) (t.stmts.size + 1)
  obtain ⟨root, hall⟩ := eq_map_of_mapM (fun i x h => (hfind i x h).1) hb
  refine ⟨root, fun e he => ?_, nodup, sound⟩
  obtain ⟨s, hs, he⟩ := mem_blockEntries.mp he
  exact (hfind _ _ (hall s hs)).2 e he

end Tree

end FlatTemplate

import FlatTemplate.Proofs.Template.Entries
import FlatTemplate.Variable

namespace FlatTemplate

variable {ι : NodeKind → Type} (g : String → String)

def Atom.rename : Atom → Atom
  | .var (first :: path) => .var (g first :: path)
  | a => a

mutual

def Expr.rename : Expr ι → Expr ι
  | .atom id a => .atom id (a.rename g)
  | .paren id inner => .paren id inner.rename

def argRename : List (Expr ι) → List (Expr ι)
  | [] => []
  | e :: es => e.rename :: argRename es

def Command.rename : Command ι → Command ι
  | .mk id head args => .mk id head.rename (argRename args)

def commandRename : List (Command ι) → List (Command ι)
  | [] => []
  | c :: cs => c.rename :: commandRename cs

def Pipe.rename : Pipe ι → Pipe ι
  | .mk id decls commands => .mk id (decls.map g) (commandRename commands)

end

mutual

def Stmt.rename : Stmt ι → Stmt ι
  | .text id text => .text id text
  | .action id pipe => .action id (pipe.rename g)
  | .branch id kind pipe body elseBody =>
    .branch id kind (pipe.rename g) (blockRename body) (blockRename elseBody)
  | .invoke id name none => .invoke id name none
  | .invoke id name (some pipe) => .invoke id name (some (pipe.rename g))

def blockRename : Block ι → Block ι
  | [] => []
  | s :: rest => s.rename :: blockRename rest

end

def Entry.rename : Entry → Entry
  | .pipe id node => .pipe id { node with decls := node.decls.map g }
  | .expr id (.atom a) => .expr id (.atom (a.rename g))
  | e => e

theorem Entry.key_rename (e : Entry) : (e.rename g).key = e.key := by
  match e with
  | .stmt .. | .pipe .. | .command .. | .expr _ (.atom _) | .expr _ (.paren _) => rfl

theorem Entry.sound_rename {e : Entry} (h : e.Sound) : (e.rename g).Sound := by
  match e with
  | .expr _ (.atom (.var (first :: path))) => simp [rename, Atom.rename, Sound]
  | .expr _ (.atom (.var [])) => exact h
  | .stmt .. | .pipe .. | .command .. | .expr _ (.paren _) | .expr _ (.atom .dot)
  | .expr _ (.atom (.field _)) | .expr _ (.atom (.identifier _)) | .expr _ (.atom (.str _))
  | .expr _ (.atom (.number _)) | .expr _ (.atom (.bool _)) => exact h

def Entry.names : Entry → List String
  | .pipe _ node => node.decls
  | .expr _ (.atom (.var path)) => path.take 1
  | _ => []

theorem Entry.names_of_stmt {e : Entry} (h : e.key.1 = .stmt) : e.names = [] := by
  match e with
  | .stmt .. => rfl

theorem Entry.rename_of_names_nil {e : Entry} (h : e.names = []) : e.rename g = e := by
  match e with
  | .stmt .. | .command .. | .expr _ (.paren _) => rfl
  | .pipe id ⟨decls, commands⟩ =>
    obtain rfl : decls = [] := h
    rfl
  | .expr _ (.atom (.var [])) => rfl
  | .expr _ (.atom .dot) | .expr _ (.atom (.field _)) | .expr _ (.atom (.identifier _))
  | .expr _ (.atom (.str _)) | .expr _ (.atom (.number _)) | .expr _ (.atom (.bool _)) => rfl

def countNames (entries : List Entry) : Nat :=
  (entries.flatMap Entry.names).countP (· ≠ rootVariable)

@[simp] theorem countNames_nil : countNames [] = 0 := rfl

@[simp] theorem countNames_append (as bs : List Entry) :
    countNames (as ++ bs) = countNames as + countNames bs := by
  rw [countNames, List.flatMap_append, List.countP_append]
  rfl

theorem countNames_perm {as bs : List Entry} (h : as.Perm bs) : countNames as = countNames bs :=
  (h.flatMap_right _).countP_eq _

theorem countNames_eq_zero {entries : List Entry} (h : ∀ e ∈ entries, e.names = []) :
    countNames entries = 0 := by
  rw [countNames, List.flatMap_eq_nil_iff.mpr h]
  rfl

section Tags

theorem Expr.tag_rename (e : Expr ι) : (e.rename g).tag = e.tag := by
  cases e <;> rfl

theorem Command.tag_rename (c : Command ι) : (c.rename g).tag = c.tag := by
  cases c
  rfl

theorem Pipe.tag_rename (p : Pipe ι) : (p.rename g).tag = p.tag := by
  cases p
  rfl

theorem Stmt.tag_rename (s : Stmt ι) : (s.rename g).tag = s.tag := by
  match s with
  | .text .. | .action .. | .branch .. | .invoke _ _ none | .invoke _ _ (some _) => rfl

theorem Atom.rename_id (a : Atom) : a.rename id = a := by
  match a with
  | .var (_ :: _) | .var [] | .field _ | .dot | .identifier _ | .str _ | .number _ | .bool _ => rfl

mutual

theorem Expr.rename_id (e : Expr ι) : e.rename id = e := by
  cases e with
  | atom _ a => rw [Expr.rename, a.rename_id]
  | paren _ inner => rw [Expr.rename, inner.rename_id]

theorem argRename_id (es : List (Expr ι)) : argRename id es = es := by
  cases es with
  | nil => rfl
  | cons e es => rw [argRename, e.rename_id, argRename_id es]

theorem Command.rename_id (c : Command ι) : c.rename id = c := by
  obtain ⟨_, head, args⟩ := c
  rw [Command.rename, head.rename_id, argRename_id args]

theorem commandRename_id (cs : List (Command ι)) : commandRename id cs = cs := by
  cases cs with
  | nil => rfl
  | cons c cs => rw [commandRename, c.rename_id, commandRename_id cs]

theorem Pipe.rename_id (p : Pipe ι) : p.rename id = p := by
  obtain ⟨_, decls, commands⟩ := p
  rw [Pipe.rename, List.map_id, commandRename_id commands]

end

mutual

theorem Stmt.rename_id (s : Stmt ι) : s.rename id = s := by
  match s with
  | .text .. | .invoke _ _ none => rfl
  | .action _ p | .invoke _ _ (some p) => rw [Stmt.rename, p.rename_id]
  | .branch _ _ p body elseBody =>
    rw [Stmt.rename, p.rename_id, blockRename_id body, blockRename_id elseBody]

theorem blockRename_id (b : Block ι) : blockRename id b = b := by
  cases b with
  | nil => rfl
  | cons s b => rw [blockRename, s.rename_id, blockRename_id b]

end

theorem argRename_eq_map (es : List (Expr ι)) : argRename g es = es.map (·.rename g) := by
  induction es with
  | nil => rfl
  | cons e es ih => rw [argRename, ih, List.map_cons]

theorem commandRename_eq_map (cs : List (Command ι)) :
    commandRename g cs = cs.map (·.rename g) := by
  induction cs with
  | nil => rfl
  | cons c cs ih => rw [commandRename, ih, List.map_cons]

theorem blockRename_eq_map (b : Block ι) : blockRename g b = b.map (·.rename g) := by
  induction b with
  | nil => rfl
  | cons s b ih => rw [blockRename, ih, List.map_cons]

theorem map_tag_blockRename (b : Block ι) : (blockRename g b).map Stmt.tag = b.map Stmt.tag := by
  simp [blockRename_eq_map, Function.comp_def, Stmt.tag_rename]

end Tags

mutual

theorem Expr.entries_rename (e : Expr Handle) :
    (e.rename g).entries = e.entries.map (Entry.rename g) := by
  cases e with
  | atom id a => rfl
  | paren id inner =>
    simp [Expr.rename, Expr.entries, Pipe.tag_rename, inner.entries_rename, Entry.rename]

theorem argEntries_rename (es : List (Expr Handle)) :
    argEntries (argRename g es) = (argEntries es).map (Entry.rename g) := by
  cases es with
  | nil => rfl
  | cons e es => simp [argRename, argEntries, e.entries_rename, argEntries_rename es]

theorem Command.entries_rename (c : Command Handle) :
    (c.rename g).entries = c.entries.map (Entry.rename g) := by
  obtain ⟨id, head, args⟩ := c
  simp [Command.rename, Command.entries, Expr.tag_rename, head.entries_rename,
    argEntries_rename args, Entry.rename]
  simp [argRename_eq_map, Expr.tag_rename]

theorem commandEntries_rename (cs : List (Command Handle)) :
    commandEntries (commandRename g cs) = (commandEntries cs).map (Entry.rename g) := by
  cases cs with
  | nil => rfl
  | cons c cs => simp [commandRename, commandEntries, c.entries_rename, commandEntries_rename cs]

theorem Pipe.entries_rename (p : Pipe Handle) :
    (p.rename g).entries = p.entries.map (Entry.rename g) := by
  obtain ⟨id, decls, commands⟩ := p
  simp [Pipe.rename, Pipe.entries, commandEntries_rename commands, Entry.rename]
  simp [commandRename_eq_map, Command.tag_rename]

end

mutual

theorem Stmt.entries_rename (s : Stmt Handle) :
    (s.rename g).entries = s.entries.map (Entry.rename g) := by
  match s with
  | .text .. | .invoke _ _ none => rfl
  | .action id p =>
    simp [Stmt.rename, Stmt.entries, Pipe.tag_rename, p.entries_rename, Entry.rename]
  | .branch id kind p body elseBody =>
    simp [Stmt.rename, Stmt.entries, Pipe.tag_rename, p.entries_rename, Entry.rename,
      map_tag_blockRename, blockEntries_rename body, blockEntries_rename elseBody]
  | .invoke id name (some p) =>
    simp [Stmt.rename, Stmt.entries, Pipe.tag_rename, p.entries_rename, Entry.rename]

theorem blockEntries_rename (b : Block Handle) :
    blockEntries (blockRename g b) = (blockEntries b).map (Entry.rename g) := by
  cases b with
  | nil => rfl
  | cons s b => simp [blockRename, blockEntries, s.entries_rename, blockEntries_rename b]

end

theorem blockKeys_rename (b : Block Handle) : blockKeys (blockRename g b) = blockKeys b := by
  rw [blockKeys, blockEntries_rename, List.map_map]
  exact List.map_congr_left fun e _ => e.key_rename g

def Expr.entry (e : Expr Handle) : Entry := .expr e.tag e.node

def Command.entry (c : Command Handle) : Entry := .command c.tag ⟨c.head.tag, c.args.map Expr.tag⟩

def Pipe.entry (p : Pipe Handle) : Entry := .pipe p.tag ⟨p.decls, p.commands.map Command.tag⟩

namespace Command

def operands (c : Command ι) : List (Expr ι) := c.head :: c.args

def spelled (c : Command Handle) : List Entry := c.operands.map Expr.entry

end Command

namespace Pipe

def spelled (p : Pipe Handle) : List Entry := p.entry :: p.commands.flatMap Command.spelled

def nodes (p : Pipe Handle) : List Entry := p.spelled ++ p.commands.map Command.entry

end Pipe

mutual

theorem Expr.entries_perm (e : Expr Handle) :
    e.entries.Perm (e.entry :: e.pipes.flatMap Pipe.nodes) := by
  cases e with
  | atom id a => exact .refl _
  | paren id inner => exact .cons _ inner.entries_perm

theorem argEntries_perm (es : List (Expr Handle)) :
    (argEntries es).Perm (es.map Expr.entry ++ (argPipes es).flatMap Pipe.nodes) := by
  cases es with
  | nil => exact .refl _
  | cons e es =>
    have he := e.entries_perm
    have hes := argEntries_perm es
    simp only [argEntries, argPipes, List.map_cons, List.flatMap_append]
    grind

theorem Command.entries_perm (c : Command Handle) :
    c.entries.Perm (c.entry :: c.spelled ++ c.pipes.flatMap Pipe.nodes) := by
  obtain ⟨id, head, args⟩ := c
  have hh := head.entries_perm
  have ha := argEntries_perm args
  simp only [Command.entries, Command.entry, Command.spelled, Command.operands, Command.pipes,
    Command.tag_mk, Command.head_mk, Command.args_mk, List.map_cons, List.flatMap_append]
  grind

theorem commandEntries_perm (cs : List (Command Handle)) :
    (commandEntries cs).Perm (cs.flatMap Command.spelled ++ cs.map Command.entry ++
      (commandPipes cs).flatMap Pipe.nodes) := by
  cases cs with
  | nil => exact .refl _
  | cons c cs =>
    have hc := c.entries_perm
    have hcs := commandEntries_perm cs
    simp only [commandEntries, commandPipes, List.map_cons, List.flatMap_append, List.flatMap_cons]
    grind

theorem Pipe.entries_perm (p : Pipe Handle) : p.entries.Perm (p.pipes.flatMap Pipe.nodes) := by
  obtain ⟨id, decls, commands⟩ := p
  have hc := commandEntries_perm commands
  simp only [Pipe.entries, Pipe.pipes, List.flatMap_cons, Pipe.nodes, Pipe.spelled, Pipe.entry,
    Pipe.tag_mk, Pipe.decls_mk, Pipe.commands_mk]
  grind

end

mutual

theorem Stmt.entries_perm (s : Stmt Handle) : ∃ stmts, (∀ e ∈ stmts, e.key.1 = .stmt) ∧
    s.entries.Perm (s.pipes.flatMap Pipe.nodes ++ stmts) := by
  match s with
  | .text id text => exact ⟨[.stmt id (.text text)], by simp [Entry.key], .refl _⟩
  | .invoke id name none => exact ⟨[.stmt id (.invoke name none)], by simp [Entry.key], .refl _⟩
  | .action id p =>
    refine ⟨[.stmt id (.action p.tag)], by simp [Entry.key], ?_⟩
    exact (p.entries_perm.cons _).trans (List.perm_append_singleton _ _).symm
  | .branch id kind p body elseBody =>
    obtain ⟨bs, hbs, hb⟩ := blockEntries_perm body
    obtain ⟨es, hes, he⟩ := blockEntries_perm elseBody
    have hp := p.entries_perm
    refine ⟨.stmt id (.branch kind p.tag (body.map Stmt.tag) (elseBody.map Stmt.tag)) ::
      (bs ++ es), ?_, ?_⟩
    · simp only [List.mem_cons, List.mem_append, forall_eq_or_imp, Entry.key, true_and]
      exact fun x hx => hx.elim (hbs x) (hes x)
    · simp only [Stmt.entries, Stmt.pipes, List.flatMap_append]
      grind
  | .invoke id name (some p) =>
    refine ⟨[.stmt id (.invoke name (some p.tag))], by simp [Entry.key], ?_⟩
    exact (p.entries_perm.cons _).trans (List.perm_append_singleton _ _).symm

theorem blockEntries_perm (b : Block Handle) : ∃ stmts, (∀ e ∈ stmts, e.key.1 = .stmt) ∧
    (blockEntries b).Perm ((blockPipes b).flatMap Pipe.nodes ++ stmts) := by
  cases b with
  | nil => exact ⟨[], by simp, .refl _⟩
  | cons s b =>
    obtain ⟨ss, hss, hs⟩ := s.entries_perm
    obtain ⟨bs, hbs, hb⟩ := blockEntries_perm b
    refine ⟨ss ++ bs, fun x hx => (List.mem_append.mp hx).elim (hss x) (hbs x), ?_⟩
    simp only [blockEntries, blockPipes, List.flatMap_append]
    grind

end

section Nodes

variable {b : Block Handle} {p : Pipe Handle} {c : Command Handle} {x : Expr Handle} {e : Entry}

theorem Pipe.nodes_subset (hp : p ∈ blockPipes b) : p.nodes ⊆ blockEntries b := by
  obtain ⟨stmts, -, hperm⟩ := blockEntries_perm b
  exact fun e he => hperm.mem_iff.mpr (List.mem_append_left _ (List.mem_flatMap.mpr ⟨p, hp, he⟩))

theorem Pipe.entry_mem_nodes (p : Pipe Handle) : p.entry ∈ p.nodes := List.mem_cons_self ..

theorem Command.entry_mem_nodes (hc : c ∈ p.commands) : c.entry ∈ p.nodes :=
  List.mem_append_right _ (List.mem_map_of_mem hc)

theorem Expr.entry_mem_nodes (hc : c ∈ p.commands) (hx : x ∈ c.operands) : x.entry ∈ p.nodes :=
  List.mem_append_left _ (List.mem_cons_of_mem _
    (List.mem_flatMap.mpr ⟨c, hc, List.mem_map_of_mem hx⟩))

theorem mem_blockEntries_nodes (he : e ∈ blockEntries b) : e.key.1 = .stmt ∨
    ∃ p ∈ blockPipes b, e = p.entry ∨ ∃ c ∈ p.commands, e = c.entry ∨
      ∃ x ∈ c.operands, e = x.entry := by
  obtain ⟨stmts, hstmts, hperm⟩ := blockEntries_perm b
  rcases List.mem_append.mp (hperm.mem_iff.mp he) with he | he
  · obtain ⟨p, hp, he⟩ := List.mem_flatMap.mp he
    refine .inr ⟨p, hp, ?_⟩
    simp only [Pipe.nodes, Pipe.spelled, Command.spelled, List.cons_append, List.mem_cons,
      List.mem_append, List.mem_flatMap, List.mem_map] at he
    rcases he with rfl | ⟨c, hc, x, hx, rfl⟩ | ⟨c, hc, rfl⟩
    · exact .inl rfl
    · exact .inr ⟨c, hc, .inr ⟨x, hx, rfl⟩⟩
    · exact .inr ⟨c, hc, .inl rfl⟩
  · exact .inl (hstmts e he)

end Nodes

end FlatTemplate

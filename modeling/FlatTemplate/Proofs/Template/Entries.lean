import Mathlib
import FlatTemplate.Template.Size
import FlatTemplate.Tree.Node

/-!
The nodes of a template as a store keeps them, each under its handle. A template whose handles are
distinct has every node owned by one parent.
-/

namespace FlatTemplate

inductive Entry where
  | stmt (id : StmtId) (node : StmtNode)
  | pipe (id : PipeId) (node : PipeNode)
  | command (id : CommandId) (node : CommandNode)
  | expr (id : ExprId) (node : ExprNode)
  deriving DecidableEq, Repr

abbrev Key := (kind : NodeKind) × Handle kind

def freshKey (bound : NodeKind → Nat) (kind : NodeKind) : Key := ⟨kind, ⟨bound kind⟩⟩

namespace Entry

def key : Entry → Key
  | .stmt id _ => ⟨.stmt, id⟩
  | .pipe id _ => ⟨.pipe, id⟩
  | .command id _ => ⟨.command, id⟩
  | .expr id _ => ⟨.expr, id⟩

def Sound : Entry → Prop
  | .pipe _ node => node.commands ≠ []
  | .expr _ (.atom (.var path)) => path ≠ []
  | _ => True

end Entry

variable {ι : NodeKind → Type}

namespace Stmt

def tag : Stmt ι → ι .stmt
  | .text tag _ => tag
  | .action tag _ => tag
  | .branch tag _ _ _ _ => tag
  | .invoke tag _ _ => tag

def governing? : Stmt ι → Option (Pipe ι)
  | .text _ _ => none
  | .action _ pipe => some pipe
  | .branch _ _ pipe _ _ => some pipe
  | .invoke _ _ pipe => pipe

end Stmt

section Parts

variable (tag : ι .expr) (c : ι .command) (id : ι .pipe) (a : Atom) (inner : Pipe ι) (head : Expr ι)
  (args : List (Expr ι)) (decls : List String) (commands : List (Command ι))

@[simp] theorem Expr.tag_atom : (Expr.atom tag a).tag = tag := rfl

@[simp] theorem Expr.tag_paren : (Expr.paren tag inner).tag = tag := rfl

@[simp] theorem Command.tag_mk : (Command.mk c head args).tag = c := rfl

@[simp] theorem Command.head_mk : (Command.mk c head args).head = head := rfl

@[simp] theorem Command.args_mk : (Command.mk c head args).args = args := rfl

@[simp] theorem Pipe.tag_mk : (Pipe.mk id decls commands).tag = id := rfl

@[simp] theorem Pipe.decls_mk : (Pipe.mk id decls commands).decls = decls := rfl

@[simp] theorem Pipe.commands_mk : (Pipe.mk id decls commands).commands = commands := rfl

end Parts

@[simp] theorem Stmt.tag_branch (id : ι .stmt) (kind : BranchKind) (p : Pipe ι)
    (body elseBody : Block ι) : (Stmt.branch id kind p body elseBody).tag = id := rfl

@[simp] theorem Stmt.tag_action (id : ι .stmt) (p : Pipe ι) : (Stmt.action id p).tag = id := rfl

@[simp] theorem argsSize_append (as bs : List (Expr ι)) :
    argsSize (as ++ bs) = argsSize as + argsSize bs := by
  induction as with
  | nil => simp [argsSize]
  | cons e es ih => simp [argsSize, ih, Nat.add_assoc]

@[simp] theorem commandsSize_append (cs ds : List (Command ι)) :
    commandsSize (cs ++ ds) = commandsSize cs + commandsSize ds := by
  induction cs with
  | nil => simp [commandsSize]
  | cons c cs ih => simp [commandsSize, ih, Nat.add_assoc]

@[simp] theorem blockSize_append (as bs : Block ι) :
    blockSize (as ++ bs) = blockSize as + blockSize bs := by
  induction as with
  | nil => simp [blockSize]
  | cons s as ih => simp [blockSize, ih, Nat.add_assoc]

mutual

def Stmt.stmts : Stmt ι → List (Stmt ι)
  | .text tag text => [.text tag text]
  | .action tag pipe => [.action tag pipe]
  | .branch tag kind pipe body elseBody =>
    .branch tag kind pipe body elseBody :: (blockStmts body ++ blockStmts elseBody)
  | .invoke tag name pipe => [.invoke tag name pipe]

def blockStmts : Block ι → List (Stmt ι)
  | [] => []
  | s :: rest => s.stmts ++ blockStmts rest

end

def Expr.node : Expr Handle → ExprNode
  | .atom _ a => .atom a
  | .paren _ inner => .paren inner.tag

def Stmt.node : Stmt Handle → StmtNode
  | .text _ s => .text s
  | .action _ pipe => .action pipe.tag
  | .branch _ kind pipe body elseBody =>
    .branch kind pipe.tag (body.map Stmt.tag) (elseBody.map Stmt.tag)
  | .invoke _ name pipe => .invoke name (pipe.map Pipe.tag)

def Stmt.entry (s : Stmt Handle) : Entry := .stmt s.tag s.node

mutual

def Expr.entries : Expr Handle → List Entry
  | .atom id a => [.expr id (.atom a)]
  | .paren id inner => .expr id (.paren inner.tag) :: inner.entries

def argEntries : List (Expr Handle) → List Entry
  | [] => []
  | e :: es => e.entries ++ argEntries es

def Command.entries : Command Handle → List Entry
  | .mk id head args =>
    .command id ⟨head.tag, args.map Expr.tag⟩ :: (head.entries ++ argEntries args)

def commandEntries : List (Command Handle) → List Entry
  | [] => []
  | c :: cs => c.entries ++ commandEntries cs

def Pipe.entries : Pipe Handle → List Entry
  | .mk id decls commands =>
    .pipe id ⟨decls, commands.map Command.tag⟩ :: commandEntries commands

end

mutual

def Stmt.entries : Stmt Handle → List Entry
  | .text id text => [.stmt id (.text text)]
  | .action id pipe => .stmt id (.action pipe.tag) :: pipe.entries
  | .branch id kind pipe body elseBody =>
    .stmt id (.branch kind pipe.tag (body.map Stmt.tag) (elseBody.map Stmt.tag)) ::
      (pipe.entries ++ blockEntries body ++ blockEntries elseBody)
  | .invoke id name none => [.stmt id (.invoke name none)]
  | .invoke id name (some pipe) => .stmt id (.invoke name (some pipe.tag)) :: pipe.entries

def blockEntries : Block Handle → List Entry
  | [] => []
  | s :: rest => s.entries ++ blockEntries rest

end

@[simp] theorem argEntries_append (as bs : List (Expr Handle)) :
    argEntries (as ++ bs) = argEntries as ++ argEntries bs := by
  induction as with
  | nil => simp [argEntries]
  | cons e es ih => simp [argEntries, ih]

@[simp] theorem commandEntries_append (cs ds : List (Command Handle)) :
    commandEntries (cs ++ ds) = commandEntries cs ++ commandEntries ds := by
  induction cs with
  | nil => simp [commandEntries]
  | cons c cs ih => simp [commandEntries, ih]

@[simp] theorem blockEntries_append (as bs : Block Handle) :
    blockEntries (as ++ bs) = blockEntries as ++ blockEntries bs := by
  induction as with
  | nil => simp [blockEntries]
  | cons s as ih => simp [blockEntries, ih]

theorem mem_argEntries {es : List (Expr Handle)} {entry : Entry} :
    entry ∈ argEntries es ↔ ∃ e ∈ es, entry ∈ e.entries := by
  induction es with
  | nil => simp [argEntries]
  | cons e es ih => simp [argEntries, ih]

theorem mem_commandEntries {cs : List (Command Handle)} {entry : Entry} :
    entry ∈ commandEntries cs ↔ ∃ c ∈ cs, entry ∈ c.entries := by
  induction cs with
  | nil => simp [commandEntries]
  | cons c cs ih => simp [commandEntries, ih]

theorem mem_blockEntries {b : Block Handle} {entry : Entry} :
    entry ∈ blockEntries b ↔ ∃ s ∈ b, entry ∈ s.entries := by
  induction b with
  | nil => simp [blockEntries]
  | cons s b ih => simp [blockEntries, ih]

mutual

theorem Expr.kind_ne_stmt (e : Expr Handle) : ∀ x ∈ e.entries, x.key.1 ≠ .stmt := by
  cases e with
  | atom id a => simp [Expr.entries, Entry.key]
  | paren id inner =>
    have := inner.kind_ne_stmt
    simpa [Expr.entries, Entry.key] using this

theorem argEntries_kind_ne_stmt (es : List (Expr Handle)) :
    ∀ x ∈ argEntries es, x.key.1 ≠ .stmt := by
  cases es with
  | nil => simp [argEntries]
  | cons e es =>
    have he := e.kind_ne_stmt
    have hes := argEntries_kind_ne_stmt es
    simp only [argEntries, List.mem_append]
    exact fun x hx => hx.elim (he x) (hes x)

theorem Command.kind_ne_stmt (c : Command Handle) : ∀ x ∈ c.entries, x.key.1 ≠ .stmt := by
  obtain ⟨id, head, args⟩ := c
  have hh := head.kind_ne_stmt
  have ha := argEntries_kind_ne_stmt args
  simp only [Command.entries, List.mem_cons, List.mem_append, forall_eq_or_imp, Entry.key]
  exact ⟨by simp, fun x hx => hx.elim (hh x) (ha x)⟩

theorem commandEntries_kind_ne_stmt (cs : List (Command Handle)) :
    ∀ x ∈ commandEntries cs, x.key.1 ≠ .stmt := by
  cases cs with
  | nil => simp [commandEntries]
  | cons c cs =>
    have hc := c.kind_ne_stmt
    have hcs := commandEntries_kind_ne_stmt cs
    simp only [commandEntries, List.mem_append]
    exact fun x hx => hx.elim (hc x) (hcs x)

theorem Pipe.kind_ne_stmt (p : Pipe Handle) : ∀ x ∈ p.entries, x.key.1 ≠ .stmt := by
  obtain ⟨id, decls, commands⟩ := p
  have hc := commandEntries_kind_ne_stmt commands
  simp only [Pipe.entries, List.mem_cons, forall_eq_or_imp, Entry.key]
  exact ⟨by simp, hc⟩

end

def blockKeys (b : Block Handle) : List Key := (blockEntries b).map Entry.key

theorem blockKeys_append (as bs : Block Handle) :
    blockKeys (as ++ bs) = blockKeys as ++ blockKeys bs := by
  rw [blockKeys, blockEntries_append, List.map_append]
  rfl

theorem Stmt.entry_mem_entries (s : Stmt Handle) : s.entry ∈ s.entries := by
  match s with
  | .text .. | .action .. | .branch .. | .invoke _ _ none | .invoke _ _ (some _) =>
    exact List.mem_cons_self ..

theorem Stmt.key_mem_entries (s : Stmt Handle) : ⟨.stmt, s.tag⟩ ∈ s.entries.map Entry.key :=
  List.mem_map_of_mem s.entry_mem_entries

def countKind (kind : NodeKind) (entries : List Entry) : Nat :=
  entries.countP fun e => e.key.1 = kind

section Count

variable (kind : NodeKind)

@[simp] theorem countKind_nil : countKind kind [] = 0 := rfl

@[simp] theorem countKind_cons (e : Entry) (es : List Entry) :
    countKind kind (e :: es) = countKind kind es + if e.key.1 = kind then 1 else 0 := by
  simp [countKind, List.countP_cons]

@[simp] theorem countKind_append (as bs : List Entry) :
    countKind kind (as ++ bs) = countKind kind as + countKind kind bs := by
  simp [countKind]

end Count

theorem Stmt.ne_zero_of_countKind_le {s : Stmt Handle} {d : Nat}
    (h : countKind .stmt s.entries ≤ d) : d ≠ 0 := by
  have hpos : 0 < countKind .stmt s.entries :=
    List.countP_pos_iff.mpr ⟨s.entry, s.entry_mem_entries, rfl⟩
  omega

mutual

theorem Expr.length_entries (e : Expr Handle) : e.entries.length = e.size := by
  cases e with
  | atom => rfl
  | paren id inner => simp [Expr.entries, Expr.size, inner.length_entries, Nat.add_comm]

theorem length_argEntries (es : List (Expr Handle)) : (argEntries es).length = argsSize es := by
  cases es with
  | nil => rfl
  | cons e es => simp [argEntries, argsSize, e.length_entries, length_argEntries es]

theorem Command.length_entries (c : Command Handle) : c.entries.length = c.size := by
  obtain ⟨id, head, args⟩ := c
  simp [Command.entries, Command.size, head.length_entries, length_argEntries args]
  omega

theorem length_commandEntries (cs : List (Command Handle)) :
    (commandEntries cs).length = commandsSize cs := by
  cases cs with
  | nil => rfl
  | cons c cs => simp [commandEntries, commandsSize, c.length_entries, length_commandEntries cs]

theorem Pipe.length_entries (p : Pipe Handle) : p.entries.length = p.size := by
  obtain ⟨id, decls, commands⟩ := p
  simp [Pipe.entries, Pipe.size, length_commandEntries commands, Nat.add_comm]

end

mutual

theorem Stmt.length_entries (s : Stmt Handle) : s.entries.length = s.size := by
  match s with
  | .text .. | .invoke _ _ none => rfl
  | .action id p => simp [Stmt.entries, Stmt.size, p.length_entries, Nat.add_comm]
  | .branch id kind p body elseBody =>
    simp [Stmt.entries, Stmt.size, p.length_entries, length_blockEntries body,
      length_blockEntries elseBody]
    omega
  | .invoke id name (some p) => simp [Stmt.entries, Stmt.size, p.length_entries, Nat.add_comm]

theorem length_blockEntries (b : Block Handle) : (blockEntries b).length = blockSize b := by
  cases b with
  | nil => rfl
  | cons s b => simp [blockEntries, blockSize, s.length_entries, length_blockEntries b]

end

theorem countKind_add_le (entries : List Entry) :
    countKind .stmt entries + countKind .command entries + countKind .expr entries ≤
      entries.length := by
  induction entries with
  | nil => simp
  | cons e es ih =>
    simp only [countKind_cons, List.length_cons]
    cases e <;> simp [Entry.key] <;> omega

end FlatTemplate

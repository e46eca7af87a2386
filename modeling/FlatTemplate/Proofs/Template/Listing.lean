import FlatTemplate.Proofs.Template.Legible
import FlatTemplate.Proofs.Template.Skeleton

namespace FlatTemplate

variable {ι : NodeKind → Type}

def Stmt.text? : Stmt ι → Option String
  | .text _ s => some s
  | .action .. | .branch .. | .invoke .. => none

def blockTexts (b : Block ι) : List String := (blockStmts b).filterMap Stmt.text?

@[simp] theorem blockTexts_nil : blockTexts ([] : Block ι) = [] := rfl

theorem blockTexts_cons (s : Stmt ι) (b : Block ι) :
    blockTexts (s :: b) = blockTexts [s] ++ blockTexts b := by
  simp [blockTexts, blockStmts]

@[simp] theorem blockTexts_text (id : ι .stmt) (text : String) :
    blockTexts [.text id text] = [text] := rfl

@[simp] theorem blockTexts_action (id : ι .stmt) (p : Pipe ι) : blockTexts [.action id p] = [] :=
  rfl

@[simp] theorem blockTexts_invoke (id : ι .stmt) (name : String) (p : Option (Pipe ι)) :
    blockTexts [.invoke id name p] = [] := rfl

@[simp] theorem blockTexts_branch (id : ι .stmt) (kind : BranchKind) (p : Pipe ι)
    (body elseBody : Block ι) :
    blockTexts [.branch id kind p body elseBody] = blockTexts body ++ blockTexts elseBody := by
  simp [blockTexts, blockStmts, Stmt.stmts, List.filterMap_cons, Stmt.text?]

mutual

theorem Expr.legible_erase (e : Expr ι) : e.erase.Legible ↔ e.Legible := by
  cases e with
  | atom => rfl
  | paren _ inner => exact inner.legible_erase

theorem argsLegible_erase (es : List (Expr ι)) : ArgsLegible (argErase es) ↔ ArgsLegible es := by
  cases es with
  | nil => rfl
  | cons e es => rw [argErase, ArgsLegible, ArgsLegible, e.legible_erase, argsLegible_erase es]

theorem Command.legible_erase (c : Command ι) : c.erase.Legible ↔ c.Legible := by
  obtain ⟨_, head, args⟩ := c
  rw [Command.erase, Command.Legible, Command.Legible, head.legible_erase, argsLegible_erase args]

theorem commandsLegible_erase (cs : List (Command ι)) :
    CommandsLegible (commandErase cs) ↔ CommandsLegible cs := by
  cases cs with
  | nil => rfl
  | cons c cs =>
    rw [commandErase, CommandsLegible, CommandsLegible, c.legible_erase, commandsLegible_erase cs]

theorem Pipe.legible_erase {limit : Parser.DeclLimit} (p : Pipe ι) :
    p.erase.Legible limit ↔ p.Legible limit := by
  obtain ⟨_, decls, commands⟩ := p
  have hne : commandErase commands ≠ [] ↔ commands ≠ [] := by
    rw [commandErase_eq_map, ne_eq, List.map_eq_nil_iff]
  rw [Pipe.erase, Pipe.Legible, Pipe.Legible, hne, commandsLegible_erase commands]

end

mutual

theorem Stmt.legible_erase (s : Stmt ι) : s.erase.Legible ↔ s.Legible := by
  match s with
  | .text .. | .invoke _ _ none => rfl
  | .action _ p | .invoke _ _ (some p) => exact p.legible_erase
  | .branch _ kind p body elseBody =>
    rw [Stmt.erase, Stmt.Legible, Stmt.Legible, p.legible_erase, blockLegible_erase body,
      blockLegible_erase elseBody]

theorem blockLegible_erase (b : Block ι) : BlockLegible (blockErase b) ↔ BlockLegible b := by
  cases b with
  | nil => rfl
  | cons s b => rw [blockErase, BlockLegible, BlockLegible, s.legible_erase, blockLegible_erase b]

end

mutual

theorem Stmt.texts_erase (s : Stmt ι) : blockTexts [s.erase] = blockTexts [s] := by
  match s with
  | .text .. | .action .. | .invoke _ _ none | .invoke _ _ (some _) => rfl
  | .branch _ kind p body elseBody =>
    rw [Stmt.erase, blockTexts_branch, blockTexts_branch, blockTexts_erase body,
      blockTexts_erase elseBody]

theorem blockTexts_erase (b : Block ι) : blockTexts (blockErase b) = blockTexts b := by
  cases b with
  | nil => rfl
  | cons s b =>
    rw [blockErase, blockTexts_cons, blockTexts_cons s, s.texts_erase, blockTexts_erase b]

end

namespace Stmt

def declLimit : Stmt ι → Parser.DeclLimit
  | .branch _ kind _ _ _ => Parser.declLimit kind
  | .invoke .. => .none
  | .text .. | .action .. => .one

theorem Legible.governing {s : Stmt ι} {p : Pipe ι} (h : s.Legible) (hp : s.governing? = some p) :
    p.Legible s.declLimit := by
  match s with
  | .action _ q | .invoke _ _ (some q) =>
    obtain rfl := Option.some.inj hp
    exact h
  | .branch _ kind q body elseBody =>
    obtain rfl := Option.some.inj hp
    exact h.1

end Stmt

mutual

theorem Stmt.Legible.stmts {s : Stmt ι} (h : s.Legible) : ∀ x ∈ s.stmts, x.Legible := by
  match s with
  | .text .. | .action .. | .invoke .. => exact List.forall_mem_singleton.mpr h
  | .branch _ kind p body elseBody =>
    exact List.forall_mem_cons.mpr ⟨h, List.forall_mem_append.mpr ⟨h.2.1.stmts, h.2.2.stmts⟩⟩

theorem BlockLegible.stmts {b : Block ι} (h : BlockLegible b) : ∀ x ∈ blockStmts b, x.Legible := by
  cases b with
  | nil => exact nofun
  | cons s b => exact List.forall_mem_append.mpr ⟨h.1.stmts, h.2.stmts⟩

end

def Entry.Legible (limit : Parser.DeclLimit) : Entry → Prop
  | .pipe _ node => node.commands ≠ [] ∧ node.decls.length ≤ limit.most
  | .expr _ (.atom a) => a.Legible
  | _ => True

theorem Pipe.Legible.entry {limit : Parser.DeclLimit} {p : Pipe Handle} (h : p.Legible limit) :
    p.entry.Legible limit := by
  obtain ⟨id, decls, commands⟩ := p
  exact ⟨fun hnil => h.2.2.1 (List.map_eq_nil_iff.mp hnil), h.1⟩

theorem Pipe.entries_eq (p : Pipe Handle) : p.entries = p.entry :: commandEntries p.commands := by
  cases p
  rfl

mutual

theorem Expr.Legible.entries {e : Expr Handle} (h : e.Legible) :
    ∀ x ∈ e.entries, x.Legible .one := by
  cases e with
  | atom id a => exact List.forall_mem_singleton.mpr h
  | paren id inner => exact List.forall_mem_cons.mpr ⟨trivial, Pipe.Legible.entries h⟩

theorem ArgsLegible.entries {es : List (Expr Handle)} (h : ArgsLegible es) :
    ∀ x ∈ argEntries es, x.Legible .one := by
  cases es with
  | nil => exact nofun
  | cons e es => exact List.forall_mem_append.mpr ⟨h.1.entries, h.2.entries⟩

theorem Command.Legible.entries {c : Command Handle} (h : c.Legible) :
    ∀ x ∈ c.entries, x.Legible .one := by
  obtain ⟨id, head, args⟩ := c
  exact List.forall_mem_cons.mpr ⟨trivial, List.forall_mem_append.mpr ⟨h.1.entries, h.2.entries⟩⟩

theorem CommandsLegible.entries {cs : List (Command Handle)} (h : CommandsLegible cs) :
    ∀ x ∈ commandEntries cs, x.Legible .one := by
  cases cs with
  | nil => exact nofun
  | cons c cs => exact List.forall_mem_append.mpr ⟨h.1.entries, h.2.entries⟩

theorem Pipe.Legible.entries {p : Pipe Handle} (h : p.Legible .one) :
    ∀ x ∈ p.entries, x.Legible .one := by
  obtain ⟨id, decls, commands⟩ := p
  exact List.forall_mem_cons.mpr ⟨Pipe.Legible.entry h, CommandsLegible.entries h.2.2.2⟩

end

theorem governing_entries {b : Block Handle} {s : Stmt Handle} {p : Pipe Handle}
    (hs : s ∈ blockStmts b) (hp : s.governing? = some p) : ∀ e ∈ p.entries, e ∈ blockEntries b := by
  have hgoverned : Governed (fun p => ∀ e ∈ p.entries, e.key.1 ≠ .stmt → e ∈ blockEntries b) b :=
    (governed_entries (fun _ _ hne => absurd rfl hne) b).mpr fun _ he _ => he
  exact fun e he => hgoverned s hs p hp e he (p.kind_ne_stmt e he)

theorem mem_blockEntries_cases {b : Block Handle} {e : Entry} (he : e ∈ blockEntries b) :
    (∃ id node, e = .stmt id node) ∨ ∃ s ∈ blockStmts b, ∃ p ∈ s.governing?,
      e = p.entry ∨ e ∈ commandEntries p.commands := by
  have hgoverned : Governed (fun p => ∀ x ∈ p.entries, (∃ id node, x = .stmt id node) ∨
      ∃ s ∈ blockStmts b, ∃ p ∈ s.governing?, x = p.entry ∨ x ∈ commandEntries p.commands) b := by
    intro s hs p hp x hx
    rw [p.entries_eq, List.mem_cons] at hx
    exact Or.inr ⟨s, hs, p, hp, hx⟩
  exact (governed_entries (fun id node => Or.inl ⟨id, node, rfl⟩) b).mp hgoverned e he

theorem BlockLegible.entries {b : Block Handle} (h : BlockLegible b) :
    ∀ e ∈ blockEntries b, e.Legible .one ∨
      ∃ s ∈ blockStmts b, ∃ p ∈ s.governing?, e = p.entry ∧ e.Legible s.declLimit := by
  intro e he
  rcases mem_blockEntries_cases he with ⟨id, node, rfl⟩ | ⟨s, hs, p, hp, hentry | hinside⟩
  · exact Or.inl trivial
  · have hlegible := (h.stmts s hs).governing hp
    exact Or.inr ⟨s, hs, p, hp, hentry, hentry ▸ hlegible.entry⟩
  · have hlegible := (h.stmts s hs).governing hp
    obtain ⟨id, decls, commands⟩ := p
    exact Or.inl (CommandsLegible.entries hlegible.2.2.2 e hinside)

theorem BlockLegible.atom {b : Block Handle} (h : BlockLegible b) {id : ExprId} {a : Atom}
    (ha : .expr id (.atom a) ∈ blockEntries b) : a.Legible := by
  rcases h.entries _ ha with ha | ⟨s, hs, p, hp, hentry, -⟩
  · exact ha
  · cases hentry

theorem BlockLegible.decls {b : Block Handle} (h : BlockLegible b) {id : PipeId} {node : PipeNode}
    (hp : .pipe id node ∈ blockEntries b) :
    node.decls.length ≤ 1 ∨ node.decls.length = 2 ∧ ∃ owner body elseBody,
      .stmt owner (.branch .range id body elseBody) ∈ blockEntries b := by
  rcases h.entries _ hp with hp | ⟨s, hs, p, hp, hentry, hlegible⟩
  · exact Or.inl hp.2
  obtain ⟨rfl, -⟩ := Entry.pipe.inj hentry
  have hmost : node.decls.length ≤ s.declLimit.most := hlegible.2
  match s with
  | .action .. => exact Or.inl hmost
  | .invoke .. => exact Or.inl (Nat.le_trans hmost (Nat.zero_le 1))
  | .branch _ .cond .. | .branch _ .within .. => exact Or.inl hmost
  | .branch owner .range q body elseBody =>
    obtain rfl := Option.some.inj hp
    have hstmt := stmt_mem_blockEntries.mpr ⟨_, hs, rfl, rfl⟩
    rcases Nat.lt_or_eq_of_le hmost with hlt | htwo
    · exact Or.inl (Nat.le_of_lt_succ hlt)
    · exact Or.inr ⟨htwo, owner, _, _, hstmt⟩

theorem BlockLegible.invocation {b : Block Handle} (h : BlockLegible b) {owner : StmtId}
    {name : String} {id : PipeId} (hinvoke : .stmt owner (.invoke name (some id)) ∈ blockEntries b) :
    ∃ node, .pipe id node ∈ blockEntries b ∧ node.decls = [] := by
  obtain ⟨s, hs, -, hnode⟩ := stmt_mem_blockEntries.mp hinvoke
  have hlegible := h.stmts s hs
  match s with
  | .invoke _ _ (some p) =>
    obtain ⟨-, hid⟩ := StmtNode.invoke.inj hnode
    obtain rfl := Option.some.inj hid
    have hlegible : p.Legible .none := hlegible
    have hentry : p.entry ∈ p.entries := p.entries_eq ▸ List.mem_cons_self
    refine ⟨_, governing_entries hs rfl _ hentry, ?_⟩
    exact List.eq_nil_of_length_eq_zero (Nat.le_zero.mp hlegible.entry.2)
  | .invoke _ _ none | .text .. | .action .. | .branch .. => cases hnode

theorem mem_blockTexts {b : Block Handle} {id : StmtId} {s : String}
    (h : .stmt id (.text s) ∈ blockEntries b) : s ∈ blockTexts b := by
  obtain ⟨x, hx, -, hnode⟩ := stmt_mem_blockEntries.mp h
  refine List.mem_filterMap.mpr ⟨x, hx, ?_⟩
  match x with
  | .text _ s' =>
    obtain rfl := StmtNode.text.inj hnode
    rfl
  | .action .. | .branch .. | .invoke .. => cases hnode

theorem BlockLegible.texts {b : Block ι} (h : BlockLegible b) : ∀ s ∈ blockTexts b, s ≠ "" := by
  intro s hs
  obtain ⟨x, hx, htext⟩ := List.mem_filterMap.mp hs
  have hlegible := h.stmts x hx
  match x with
  | .text _ s' =>
    obtain rfl := Option.some.inj htext
    exact hlegible
  | .action .. | .branch .. | .invoke .. => cases htext

end FlatTemplate

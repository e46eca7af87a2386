import FlatTemplate.Proofs.Template.Proper

namespace FlatTemplate

structure Relabelling (ι κ : NodeKind → Type) where
  tag : {kind : NodeKind} → ι kind → κ kind
  name : String → String

namespace Relabelling

variable {ι κ μ : NodeKind → Type}

def ofNames (g : String → String) : Relabelling ι ι := ⟨id, g⟩

def untagging : Relabelling ι Untagged := ⟨fun _ => (), id⟩

def trans (F : Relabelling ι κ) (G : Relabelling κ μ) : Relabelling ι μ :=
  ⟨G.tag ∘ F.tag, G.name ∘ F.name⟩

end Relabelling

section

variable {ι κ μ : NodeKind → Type} (F : Relabelling ι κ) (G : Relabelling κ μ)

mutual

def Expr.relabel : Expr ι → Expr κ
  | .atom id a => .atom (F.tag id) (a.rename F.name)
  | .paren id inner => .paren (F.tag id) inner.relabel

def argRelabel : List (Expr ι) → List (Expr κ)
  | [] => []
  | e :: es => e.relabel :: argRelabel es

def Command.relabel : Command ι → Command κ
  | .mk id head args => .mk (F.tag id) head.relabel (argRelabel args)

def commandRelabel : List (Command ι) → List (Command κ)
  | [] => []
  | c :: cs => c.relabel :: commandRelabel cs

def Pipe.relabel : Pipe ι → Pipe κ
  | .mk id decls commands => .mk (F.tag id) (decls.map F.name) (commandRelabel commands)

end

mutual

def Stmt.relabel : Stmt ι → Stmt κ
  | .text id text => .text (F.tag id) text
  | .action id pipe => .action (F.tag id) (pipe.relabel F)
  | .branch id kind pipe body elseBody =>
    .branch (F.tag id) kind (pipe.relabel F) (blockRelabel body) (blockRelabel elseBody)
  | .invoke id name none => .invoke (F.tag id) name none
  | .invoke id name (some pipe) => .invoke (F.tag id) name (some (pipe.relabel F))

def blockRelabel : Block ι → Block κ
  | [] => []
  | s :: rest => s.relabel :: blockRelabel rest

end

theorem Atom.rename_rename (g h : String → String) (a : Atom) :
    (a.rename g).rename h = a.rename (h ∘ g) := by
  match a with
  | .var (_ :: _) | .var [] | .field _ | .dot | .identifier _ | .str _ | .number _ | .bool _ => rfl

theorem argRelabel_eq_map (es : List (Expr ι)) : argRelabel F es = es.map (·.relabel F) := by
  induction es with
  | nil => rfl
  | cons e es ih => rw [argRelabel, ih, List.map_cons]

theorem commandRelabel_eq_map (cs : List (Command ι)) :
    commandRelabel F cs = cs.map (·.relabel F) := by
  induction cs with
  | nil => rfl
  | cons c cs ih => rw [commandRelabel, ih, List.map_cons]

theorem blockRelabel_eq_map (b : Block ι) : blockRelabel F b = b.map (·.relabel F) := by
  induction b with
  | nil => rfl
  | cons s b ih => rw [blockRelabel, ih, List.map_cons]

mutual

theorem Expr.relabel_ofNames (g : String → String) (e : Expr ι) :
    e.relabel (.ofNames g) = e.rename g := by
  cases e with
  | atom => rfl
  | paren _ inner => rw [Expr.relabel, inner.relabel_ofNames g]; rfl

theorem argRelabel_ofNames (g : String → String) (es : List (Expr ι)) :
    argRelabel (.ofNames g) es = argRename g es := by
  cases es with
  | nil => rfl
  | cons e es => rw [argRelabel, e.relabel_ofNames g, argRelabel_ofNames g es, argRename]

theorem Command.relabel_ofNames (g : String → String) (c : Command ι) :
    c.relabel (.ofNames g) = c.rename g := by
  obtain ⟨_, head, args⟩ := c
  rw [Command.relabel, head.relabel_ofNames g, argRelabel_ofNames g args]
  rfl

theorem commandRelabel_ofNames (g : String → String) (cs : List (Command ι)) :
    commandRelabel (.ofNames g) cs = commandRename g cs := by
  cases cs with
  | nil => rfl
  | cons c cs => rw [commandRelabel, c.relabel_ofNames g, commandRelabel_ofNames g cs,
      commandRename]

theorem Pipe.relabel_ofNames (g : String → String) (p : Pipe ι) :
    p.relabel (.ofNames g) = p.rename g := by
  obtain ⟨_, decls, commands⟩ := p
  rw [Pipe.relabel, commandRelabel_ofNames g commands]
  rfl

end

mutual

theorem Stmt.relabel_ofNames (g : String → String) (s : Stmt ι) :
    s.relabel (.ofNames g) = s.rename g := by
  match s with
  | .text .. | .invoke _ _ none => rfl
  | .action _ p | .invoke _ _ (some p) => rw [Stmt.relabel, p.relabel_ofNames g]; rfl
  | .branch _ _ p body elseBody =>
    rw [Stmt.relabel, p.relabel_ofNames g, blockRelabel_ofNames g body,
      blockRelabel_ofNames g elseBody]
    rfl

theorem blockRelabel_ofNames (g : String → String) (b : Block ι) :
    blockRelabel (.ofNames g) b = blockRename g b := by
  cases b with
  | nil => rfl
  | cons s b => rw [blockRelabel, s.relabel_ofNames g, blockRelabel_ofNames g b, blockRename]

end

mutual

theorem Expr.relabel_untagging (e : Expr ι) : e.relabel .untagging = e.erase := by
  match e with
  | .atom id a => rw [Expr.relabel, Relabelling.untagging, Atom.rename_id]; rfl
  | .paren _ inner => rw [Expr.relabel, inner.relabel_untagging]; rfl

theorem argRelabel_untagging (es : List (Expr ι)) : argRelabel .untagging es = argErase es := by
  cases es with
  | nil => rfl
  | cons e es => rw [argRelabel, e.relabel_untagging, argRelabel_untagging es, argErase]

theorem Command.relabel_untagging (c : Command ι) : c.relabel .untagging = c.erase := by
  obtain ⟨_, head, args⟩ := c
  rw [Command.relabel, head.relabel_untagging, argRelabel_untagging args]
  rfl

theorem commandRelabel_untagging (cs : List (Command ι)) :
    commandRelabel .untagging cs = commandErase cs := by
  cases cs with
  | nil => rfl
  | cons c cs =>
    rw [commandRelabel, c.relabel_untagging, commandRelabel_untagging cs, commandErase]

theorem Pipe.relabel_untagging (p : Pipe ι) : p.relabel .untagging = p.erase := by
  obtain ⟨_, decls, commands⟩ := p
  rw [Pipe.relabel, commandRelabel_untagging commands, Relabelling.untagging, List.map_id]
  rfl

end

mutual

theorem Stmt.relabel_untagging (s : Stmt ι) : s.relabel .untagging = s.erase := by
  match s with
  | .text .. | .invoke _ _ none => rfl
  | .action _ p | .invoke _ _ (some p) => rw [Stmt.relabel, p.relabel_untagging]; rfl
  | .branch _ _ p body elseBody =>
    rw [Stmt.relabel, p.relabel_untagging, blockRelabel_untagging body,
      blockRelabel_untagging elseBody]
    rfl

theorem blockRelabel_untagging (b : Block ι) : blockRelabel .untagging b = blockErase b := by
  cases b with
  | nil => rfl
  | cons s b => rw [blockRelabel, s.relabel_untagging, blockRelabel_untagging b, blockErase]

end

mutual

theorem Expr.relabel_relabel (e : Expr ι) : (e.relabel F).relabel G = e.relabel (F.trans G) := by
  match e with
  | .atom _ a => rw [Expr.relabel, Expr.relabel, a.rename_rename]; rfl
  | .paren _ inner => rw [Expr.relabel, Expr.relabel, inner.relabel_relabel]; rfl

theorem argRelabel_relabel (es : List (Expr ι)) :
    argRelabel G (argRelabel F es) = argRelabel (F.trans G) es := by
  cases es with
  | nil => rfl
  | cons e es => rw [argRelabel, argRelabel, e.relabel_relabel, argRelabel_relabel es, argRelabel]

theorem Command.relabel_relabel (c : Command ι) :
    (c.relabel F).relabel G = c.relabel (F.trans G) := by
  obtain ⟨_, head, args⟩ := c
  rw [Command.relabel, Command.relabel, head.relabel_relabel, argRelabel_relabel args]
  rfl

theorem commandRelabel_relabel (cs : List (Command ι)) :
    commandRelabel G (commandRelabel F cs) = commandRelabel (F.trans G) cs := by
  cases cs with
  | nil => rfl
  | cons c cs =>
    rw [commandRelabel, commandRelabel, c.relabel_relabel, commandRelabel_relabel cs,
      commandRelabel]

theorem Pipe.relabel_relabel (p : Pipe ι) : (p.relabel F).relabel G = p.relabel (F.trans G) := by
  obtain ⟨_, decls, commands⟩ := p
  rw [Pipe.relabel, Pipe.relabel, List.map_map, commandRelabel_relabel commands]
  rfl

end

mutual

theorem Stmt.relabel_relabel (s : Stmt ι) : (s.relabel F).relabel G = s.relabel (F.trans G) := by
  match s with
  | .text .. | .invoke _ _ none => rfl
  | .action _ p | .invoke _ _ (some p) =>
    rw [Stmt.relabel, Stmt.relabel, p.relabel_relabel]
    rfl
  | .branch _ _ p body elseBody =>
    rw [Stmt.relabel, Stmt.relabel, p.relabel_relabel, blockRelabel_relabel body,
      blockRelabel_relabel elseBody]
    rfl

theorem blockRelabel_relabel (b : Block ι) :
    blockRelabel G (blockRelabel F b) = blockRelabel (F.trans G) b := by
  cases b with
  | nil => rfl
  | cons s b =>
    rw [blockRelabel, blockRelabel, s.relabel_relabel, blockRelabel_relabel b, blockRelabel]

end

theorem blockRename_rename (g h : String → String) (b : Block ι) :
    blockRename h (blockRename g b) = blockRename (h ∘ g) b := by
  simp only [← blockRelabel_ofNames]
  exact blockRelabel_relabel _ _ b

end

end FlatTemplate

import FlatTemplate.Proofs.Template.Proper
import FlatTemplate.Template.Parser

namespace FlatTemplate

open FlatTemplate.Parser Text

variable {ι : NodeKind → Type}

def isWord : List Char → Bool
  | [] => false
  | c :: cs => isWordStart c && cs.all isWordChar

def isReserved (name : String) : Bool :=
  name ∈ ["true", "false", "nil"] || (Keyword.ofWord? name).isSome

def isVariableName : List Char → Bool
  | '$' :: cs => cs.all isWordChar
  | _ => false

def opensNumber (c : Char) (cs : List Char) : Bool :=
  c = '-' || c = '+' || c.isDigit || (c = '.' && cs.head?.any Char.isDigit)

/-- Whether a number can be spelled like this: it goes on to the end. -/
def isNumberSpelling : List Char → Bool
  | [] => false
  | c :: cs => opensNumber c cs && Lexer.numberTail false cs = cs && Lexer.isNumber (c :: cs)

def Atom.Legible : Atom → Prop
  | .var [] => False
  | .var (first :: path) => isVariableName first.toList ∧ ∀ segment ∈ path, isWord segment.toList
  | .field path => path ≠ [] ∧ ∀ segment ∈ path, isWord segment.toList
  | .identifier name => isWord name.toList ∧ isReserved name = false
  | .number spelling => isNumberSpelling spelling.toList
  | .dot | .str _ | .bool _ => True

def Parser.DeclLimit.most : DeclLimit → Nat
  | .none => 0
  | .one => 1
  | .two => 2

mutual

def Expr.Legible : Expr ι → Prop
  | .atom _ a => a.Legible
  | .paren _ inner => inner.Legible .one

def ArgsLegible : List (Expr ι) → Prop
  | [] => True
  | e :: es => e.Legible ∧ ArgsLegible es

def Command.Legible : Command ι → Prop
  | .mk _ head args => head.Legible ∧ ArgsLegible args

def CommandsLegible : List (Command ι) → Prop
  | [] => True
  | c :: cs => c.Legible ∧ CommandsLegible cs

def Pipe.Legible (limit : DeclLimit) : Pipe ι → Prop
  | .mk _ decls commands =>
    decls.length ≤ limit.most ∧ (∀ name ∈ decls, isVariableName name.toList) ∧
      commands ≠ [] ∧ CommandsLegible commands

end

mutual

def Stmt.Legible : Stmt ι → Prop
  | .text _ text => text ≠ ""
  | .action _ pipe => pipe.Legible .one
  | .branch _ kind pipe body elseBody =>
    pipe.Legible (declLimit kind) ∧ BlockLegible body ∧ BlockLegible elseBody
  | .invoke _ _ none => True
  | .invoke _ _ (some pipe) => pipe.Legible .none

def BlockLegible : Block ι → Prop
  | [] => True
  | s :: rest => s.Legible ∧ BlockLegible rest

end

theorem isVariable_of_isVariableName {name : String} (h : isVariableName name.toList = true) :
    IsVariable name := by
  unfold isVariableName at h
  split at h
  · next cs heq => exact ⟨cs, heq⟩
  · cases h

theorem Atom.Legible.proper {a : Atom} (h : a.Legible) : a.Proper := by
  match a with
  | .var (first :: path) => exact ⟨first, path, rfl, isVariable_of_isVariableName h.1⟩
  | .field _ | .dot | .identifier _ | .str _ | .number _ | .bool _ => trivial

theorem Expr.Legible.proper {e : Expr ι} (h : e.Legible) : e.Proper := by
  cases e with
  | atom _ a => exact Atom.Legible.proper h
  | paren _ inner => trivial

theorem ArgsLegible.proper {es : List (Expr ι)} (h : ArgsLegible es) : ∀ e ∈ es, e.Proper := by
  induction es with
  | nil => simp
  | cons e es ih => exact List.forall_mem_cons.mpr ⟨h.1.proper, ih h.2⟩

theorem Command.Legible.proper {c : Command ι} (h : c.Legible) : ∀ e ∈ c.operands, e.Proper := by
  obtain ⟨_, head, args⟩ := c
  exact List.forall_mem_cons.mpr ⟨h.1.proper, h.2.proper⟩

theorem CommandsLegible.proper {cs : List (Command ι)} (h : CommandsLegible cs) :
    ∀ c ∈ cs, ∀ e ∈ c.operands, e.Proper := by
  induction cs with
  | nil => simp
  | cons c cs ih => exact List.forall_mem_cons.mpr ⟨h.1.proper, ih h.2⟩

mutual

theorem Expr.Legible.pipes {e : Expr ι} (h : e.Legible) : ∀ p ∈ e.pipes, p.Proper := by
  cases e with
  | atom _ a => simp [Expr.pipes]
  | paren _ inner => exact Pipe.Legible.pipes h

theorem ArgsLegible.pipes {es : List (Expr ι)} (h : ArgsLegible es) :
    ∀ p ∈ argPipes es, p.Proper := by
  cases es with
  | nil => simp [argPipes]
  | cons e es => exact List.forall_mem_append.mpr ⟨h.1.pipes, h.2.pipes⟩

theorem Command.Legible.pipes {c : Command ι} (h : c.Legible) : ∀ p ∈ c.pipes, p.Proper := by
  obtain ⟨_, head, args⟩ := c
  exact List.forall_mem_append.mpr ⟨h.1.pipes, h.2.pipes⟩

theorem CommandsLegible.pipes {cs : List (Command ι)} (h : CommandsLegible cs) :
    ∀ p ∈ commandPipes cs, p.Proper := by
  cases cs with
  | nil => simp [commandPipes]
  | cons c cs => exact List.forall_mem_append.mpr ⟨h.1.pipes, h.2.pipes⟩

theorem Pipe.Legible.pipes {limit : DeclLimit} {p : Pipe ι} (h : p.Legible limit) :
    ∀ q ∈ p.pipes, q.Proper := by
  obtain ⟨_, decls, commands⟩ := p
  obtain ⟨-, hdecls, hne, hcommands⟩ := h
  exact List.forall_mem_cons.mpr ⟨⟨hne, fun name hname =>
    isVariable_of_isVariableName (hdecls name hname), hcommands.proper⟩, hcommands.pipes⟩

end

mutual

theorem Stmt.Legible.pipes {s : Stmt ι} (h : s.Legible) : ∀ p ∈ s.pipes, p.Proper := by
  match s with
  | .text .. | .invoke _ _ none => simp [Stmt.pipes]
  | .action _ pipe | .invoke _ _ (some pipe) => exact Pipe.Legible.pipes h
  | .branch _ kind pipe body elseBody =>
    exact List.forall_mem_append.mpr
      ⟨List.forall_mem_append.mpr ⟨h.1.pipes, h.2.1.pipes⟩, h.2.2.pipes⟩

theorem BlockLegible.pipes {b : Block ι} (h : BlockLegible b) : ∀ p ∈ blockPipes b, p.Proper := by
  cases b with
  | nil => simp [blockPipes]
  | cons s b => exact List.forall_mem_append.mpr ⟨h.1.pipes, h.2.pipes⟩

end

end FlatTemplate

import FlatTemplate.Proofs.Template.Contexts

/-!
The weight of a template, which every rewrite lowers. It counts pipelines in parentheses, the path
reads that calls take, two for each bar between commands, and one for each statement whose own
pipeline prints or decides on more than a plain value. A bar behind a value in front of its pipeline
counts one, unless the value is a path read.
-/

namespace FlatTemplate

def Command.leadWeight (c : Command Handle) : Nat :=
  if c.view.isBare && !c.isCall && !c.head.node.isPathRead then 1 else 2

def barWeight : List (Command Handle) → Nat
  | c :: _ :: rest => c.leadWeight + 2 * rest.length
  | _ => 0

def Command.pathArgs (c : Command Handle) : Nat :=
  if c.isCall then c.args.countP (·.node.isPathRead) else 0

mutual

def Expr.weight : Expr Handle → Nat
  | .atom _ _ => 0
  | .paren _ inner => 1 + inner.weight

def argWeight : List (Expr Handle) → Nat
  | [] => 0
  | e :: es => e.weight + argWeight es

def Command.weight : Command Handle → Nat
  | .mk id head args => head.weight + argWeight args + (Command.mk id head args).pathArgs

def commandWeight : List (Command Handle) → Nat
  | [] => 0
  | c :: cs => c.weight + commandWeight cs

def Pipe.weight : Pipe Handle → Nat
  | .mk _ _ commands => barWeight commands + commandWeight commands

end

def Pipe.isSettled (p : Pipe Handle) : Bool :=
  match p.commands with
  | [c] => c.view.isPlain
  | _ => false

def Role.uses : Role → Bool
  | .print | .subject => true
  | .assign | .nested => false

def Pipe.hostWeight (role : Role) (p : Pipe Handle) : Nat :=
  p.weight + if role.uses && !p.isSettled then 1 else 0

mutual

def Stmt.weight : Stmt Handle → Nat
  | .text _ _ => 0
  | .action _ pipe => pipe.hostWeight pipe.actionRole
  | .branch _ _ pipe body elseBody =>
    pipe.hostWeight .subject + blockWeight body + blockWeight elseBody
  | .invoke _ _ none => 0
  | .invoke _ _ (some pipe) => pipe.hostWeight .subject

def blockWeight : Block Handle → Nat
  | [] => 0
  | s :: rest => s.weight + blockWeight rest

end

section Append

@[simp] theorem argWeight_append (as bs : List (Expr Handle)) :
    argWeight (as ++ bs) = argWeight as + argWeight bs := by
  induction as with
  | nil => simp [argWeight]
  | cons e as ih => simp [argWeight, ih, Nat.add_assoc]

@[simp] theorem commandWeight_append (cs ds : List (Command Handle)) :
    commandWeight (cs ++ ds) = commandWeight cs + commandWeight ds := by
  induction cs with
  | nil => simp [commandWeight]
  | cons c cs ih => simp [commandWeight, ih, Nat.add_assoc]

@[simp] theorem blockWeight_append (as bs : Block Handle) :
    blockWeight (as ++ bs) = blockWeight as + blockWeight bs := by
  induction as with
  | nil => simp [blockWeight]
  | cons s as ih => simp [blockWeight, ih, Nat.add_assoc]

end Append

theorem barWeight_le (cs : List (Command Handle)) : barWeight cs ≤ 2 * cs.length := by
  match cs with
  | [] | [_] => simp [barWeight]
  | c :: _ :: rest =>
    have : c.leadWeight ≤ 2 := by
      unfold Command.leadWeight
      split <;> omega
    simp only [barWeight, List.length_cons]
    omega

mutual

theorem Expr.weight_le (e : Expr Handle) :
    e.weight + (if e.node.isPathRead then 1 else 0) ≤
      2 * countKind .command e.entries + countKind .expr e.entries := by
  cases e with
  | atom id a =>
    simp only [Expr.weight, Expr.entries, countKind_cons, countKind_nil, Entry.key]
    split <;> simp
  | paren id inner =>
    have := inner.weight_le
    simp [Expr.weight, Expr.entries, Entry.key, Expr.node, ExprNode.isPathRead]
    omega

theorem argWeight_le (es : List (Expr Handle)) :
    argWeight es + es.countP (·.node.isPathRead) ≤
      2 * countKind .command (argEntries es) + countKind .expr (argEntries es) := by
  cases es with
  | nil => simp [argWeight, argEntries]
  | cons e es =>
    have he := e.weight_le
    have hes := argWeight_le es
    simp only [argWeight, argEntries, countKind_append, List.countP_cons]
    omega

theorem Command.weight_le (c : Command Handle) :
    c.weight + 2 ≤ 2 * countKind .command c.entries + countKind .expr c.entries := by
  obtain ⟨id, head, args⟩ := c
  have hh := head.weight_le
  have ha := argWeight_le args
  have hpath : (Command.mk id head args).pathArgs ≤ args.countP (·.node.isPathRead) := by
    unfold Command.pathArgs
    split <;> simp
  simp [Command.weight, Command.entries, Entry.key]
  omega

theorem commandWeight_le (cs : List (Command Handle)) :
    commandWeight cs + 2 * cs.length ≤
      2 * countKind .command (commandEntries cs) + countKind .expr (commandEntries cs) := by
  cases cs with
  | nil => simp [commandWeight, commandEntries]
  | cons c cs =>
    have hc := c.weight_le
    have hcs := commandWeight_le cs
    simp only [commandWeight, commandEntries, countKind_append, List.length_cons]
    omega

theorem Pipe.weight_le (p : Pipe Handle) :
    p.weight ≤ 2 * countKind .command p.entries + countKind .expr p.entries := by
  obtain ⟨id, decls, commands⟩ := p
  have hb := barWeight_le commands
  have hc := commandWeight_le commands
  simp [Pipe.weight, Pipe.entries, Entry.key]
  omega

end

theorem Pipe.hostWeight_le (role : Role) (p : Pipe Handle) :
    p.hostWeight role ≤ 1 + 2 * countKind .command p.entries + countKind .expr p.entries := by
  have := p.weight_le
  unfold Pipe.hostWeight
  split <;> omega

mutual

theorem Stmt.weight_le (s : Stmt Handle) :
    s.weight ≤ countKind .stmt s.entries + 2 * countKind .command s.entries +
      countKind .expr s.entries := by
  match s with
  | .text .. | .invoke _ _ none => simp [Stmt.weight]
  | .action id p =>
    have := p.hostWeight_le p.actionRole
    simp [Stmt.weight, Stmt.entries, Entry.key]
    omega
  | .branch id kind p body elseBody =>
    have hp := p.hostWeight_le .subject
    have hb := blockWeight_le body
    have he := blockWeight_le elseBody
    simp [Stmt.weight, Stmt.entries, Entry.key]
    omega
  | .invoke id name (some p) =>
    have := p.hostWeight_le .subject
    simp [Stmt.weight, Stmt.entries, Entry.key]
    omega

theorem blockWeight_le (b : Block Handle) :
    blockWeight b ≤ countKind .stmt (blockEntries b) + 2 * countKind .command (blockEntries b) +
      countKind .expr (blockEntries b) := by
  cases b with
  | nil => simp [blockWeight]
  | cons s b =>
    have hs := s.weight_le
    have hb := blockWeight_le b
    simp only [blockWeight, blockEntries, countKind_append]
    omega

end

end FlatTemplate

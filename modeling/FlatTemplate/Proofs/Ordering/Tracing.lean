import FlatTemplate.Proofs.Ordering.Hoisting
import FlatTemplate.Proofs.Template.Governing
import FlatTemplate.Proofs.Tree.Applying

/-!
What is seen of a block while its pipelines are evaluated, one after the other. A rewrite adds
statements and moves calls and reads to them, but not past the statements that were there.
-/

namespace FlatTemplate

inductive Moment where
  | event (id : ExprId)
  | mark (stmt : StmtId)
  | close
  deriving DecidableEq, Repr

section Trace

variable (order : Pipe Handle → List ExprId) (old : List StmtId)

def moments (id : StmtId) (p : Option (Pipe Handle)) : List Moment :=
  ((p.map order).getD []).map .event ++ if id ∈ old then [.mark id] else []

mutual

def Stmt.trace : Stmt Handle → List Moment
  | .text id _ => moments order old id none
  | .action id p => moments order old id (some p)
  | .branch id _ p body elseBody =>
    moments order old id (some p) ++ blockTrace body ++ .close :: (blockTrace elseBody ++ [.close])
  | .invoke id _ p => moments order old id p

def blockTrace : Block Handle → List Moment
  | [] => []
  | s :: rest => s.trace ++ blockTrace rest

end

end Trace

/-- The calls and reads for the sake of a statement: those since the last mark in its block. -/
def evaluated (id : StmtId) (since : List ExprId) : List Moment → List ExprId
  | [] => []
  | .event x :: ms => evaluated id (since ++ [x]) ms
  | .mark s :: ms => if s = id then since else evaluated id [] ms
  | .close :: ms => evaluated id [] ms

section Trace

variable {order : Pipe Handle → List ExprId} {old : List StmtId}

@[simp] theorem blockTrace_append (as bs : Block Handle) :
    blockTrace order old (as ++ bs) = blockTrace order old as ++ blockTrace order old bs := by
  induction as with
  | nil => rfl
  | cons s as ih => rw [List.cons_append, blockTrace, blockTrace, ih, List.append_assoc]

theorem blockTrace_plug (C : BlockContext) {b b' : Block Handle}
    (h : blockTrace order old b = blockTrace order old b') :
    blockTrace order old (C.plug b) = blockTrace order old (C.plug b') := by
  induction C with
  | hole => exact h
  | inBody pre id kind pipe inner elseBody post ih | inElse pre id kind pipe body inner post ih =>
    simp only [BlockContext.plug, blockTrace_append, blockTrace, Stmt.trace, ih]

theorem Stmt.exists_trace (order : Pipe Handle → List ExprId) (old : List StmtId)
    (s : Stmt Handle) {p : Pipe Handle} (hp : s.governing? = some p) :
    ∃ bodies, ∀ q, (s.govern q).trace order old =
      (order q).map .event ++ ((if s.tag ∈ old then [.mark s.tag] else []) ++ bodies) := by
  match s with
  | .action id _ => exact ⟨[], fun q => (List.append_nil _ ▸ rfl)⟩
  | .invoke id name (some _) => exact ⟨[], fun q => (List.append_nil _ ▸ rfl)⟩
  | .branch id kind _ body elseBody =>
    exact ⟨blockTrace order old body ++ .close :: (blockTrace order old elseBody ++ [.close]),
      fun q => by
        simp only [govern, trace, moments, Option.map_some, Option.getD_some, List.append_assoc]
        rfl⟩

theorem Stmt.trace_rewriteOwn? {f : Fresh} {s : Stmt Handle} {own : BlockRewriting}
    (h : s.rewriteOwn? f = some own) (hold : f.stmt ∉ old)
    (hprint : order (.mk f.pipe [] [f.read]) = [])
    (horder : ∀ role p r, s.governing? = some p → Pipe.Rewrites f role p r →
      ((r.ahead.map order).getD []) ++ order r.rest = order p) :
    blockTrace order old own.block = s.trace order old := by
  obtain ⟨p, r, hp, hrewrites, -, hblock⟩ := Stmt.rewriteOwn?_eq_some h
  obtain ⟨bodies, hbodies⟩ := s.exists_trace order old hp
  have hahead : blockTrace order old (r.ahead.map (.action f.stmt)).toList =
      ((r.ahead.map order).getD []).map .event := by
    cases r.ahead with
    | none => rfl
    | some a => simp [blockTrace, trace, moments, hold]
  have hbehind : blockTrace order old
      (if r.found.edit = .splitPrint then [f.print] else []) = [] := by
    split
    · simp [blockTrace, Fresh.print, trace, moments, hprint, hold]
    · rfl
  have hs := hbodies p
  rw [Tree.govern_governing hp] at hs
  rw [hblock, blockTrace_append, blockTrace, hahead, hbehind, List.append_nil, hbodies,
    ← List.append_assoc, ← List.map_append, horder _ p r hp hrewrites, hs]

end Trace

mutual

theorem Stmt.trace_congr {order order' : Pipe Handle → List ExprId} {old : List StmtId}
    (s : Stmt Handle) (h : Governed (fun p => order p = order' p) [s]) :
    s.trace order old = s.trace order' old := by
  match s with
  | .text .. | .invoke _ _ none => rfl
  | .action _ p | .invoke _ _ (some p) =>
    have hp : order p = order' p := Stmt.governed_own rfl h
    simp only [Stmt.trace, moments, Option.map_some, hp]
  | .branch _ _ p body elseBody =>
    obtain ⟨hp, hbody, helse⟩ := governed_branch.mp h
    simp only [Stmt.trace, moments, Option.map_some, hp, blockTrace_congr body hbody,
      blockTrace_congr elseBody helse]

theorem blockTrace_congr {order order' : Pipe Handle → List ExprId} {old : List StmtId}
    (b : Block Handle) (h : Governed (fun p => order p = order' p) b) :
    blockTrace order old b = blockTrace order' old b := by
  cases b with
  | nil => rfl
  | cons s b =>
    obtain ⟨hs, hb⟩ := governed_cons.mp h
    rw [blockTrace, blockTrace, s.trace_congr hs, blockTrace_congr b hb]

end

theorem blockTrace_of_blockRewrite? {f : Fresh} {b : Block Handle} (h : blockRewrite? f b = none)
    (hquiet : Governed Pipe.Quiet b) (hacting : Governed Pipe.Acting b) (old : List StmtId) :
    blockTrace Pipe.events old b = blockTrace Pipe.hoisted old b := by
  refine (blockTrace_congr b fun s hs p hp => ?_).symm
  have hown := Stmt.rewrite?_governing (rewriteOwn?_eq_none_of_block h s hs) hp
  exact Role.hoisted_eq_events hown (hquiet s hs p hp) (hacting s hs p hp)

theorem blockTrace_blockRewrite? {f : Fresh} {b : Block Handle} {r : BlockRewriting}
    (h : blockRewrite? f b = some r) {old : List StmtId} (hold : f.stmt ∉ old)
    (hquiet : Governed Pipe.Quiet b) (hacting : Governed Pipe.Acting b) :
    blockTrace Pipe.hoisted old r.block = blockTrace Pipe.hoisted old b := by
  obtain ⟨C, pre, s, post, own, hown, rfl, rfl⟩ := blockRewrite?_eq_some h
  have hs {P : Pipe Handle → Prop} (h : Governed P (C.plug (pre ++ s :: post))) :
      Governed P [s] := (governed_cons.mp (governed_append.mp h.of_plug).2).1
  refine blockTrace_plug C ?_
  rw [blockTrace_append, blockTrace_append, blockTrace_append, blockTrace, List.append_assoc,
    Stmt.trace_rewriteOwn? hown hold hoisted_print fun role p r hp hr =>
      hr.hoisted (Stmt.governed_own hp (hs hquiet)) (Stmt.governed_own hp (hs hacting))]

section Rename

variable (g : String → String)

@[simp] theorem Atom.isPathRead_rename (a : Atom) : (a.rename g).isPathRead = a.isPathRead := by
  match a with
  | .var [] | .var (_ :: _) | .field _ | .dot | .identifier _ | .str _ | .number _ | .bool _ => rfl

theorem Atom.rename_eq_dot (a : Atom) : a.rename g = .dot ↔ a = .dot := by
  match a with
  | .var [] | .var (_ :: _) | .field _ | .dot | .identifier _ | .str _ | .number _ | .bool _ =>
    simp [rename]

@[simp] theorem Atom.acts_rename (id : ExprId) (args : List (Expr Handle)) (a : Atom) :
    (a.rename g).acts id (argRename g args) = a.acts id args := by
  have hid : (a.rename g).isIdentifier = a.isIdentifier := by
    match a with
    | .var [] | .var (_ :: _) | .field _ | .dot | .identifier _ | .str _ | .number _ | .bool _ =>
      rfl
  have hempty : (argRename g args).isEmpty = args.isEmpty := by cases args <;> rfl
  simp only [acts, hid, isPathRead_rename, rename_eq_dot, hempty]

theorem readEvents_rename (es : List (Expr Handle)) :
    readEvents (argRename g es) = readEvents es := by
  induction es with
  | nil => rfl
  | cons e es ih =>
    rw [argRename, readEvents_cons, readEvents_cons, ih]
    cases e with
    | atom id a =>
      have hread : (Expr.atom id (a.rename g)).node.isPathRead =
          (Expr.atom id a).node.isPathRead := a.isPathRead_rename g
      rw [Expr.rename, hread]
      rfl
    | paren => rfl

mutual

theorem Expr.hoisted_rename (e : Expr Handle) : (e.rename g).hoisted = e.hoisted := by
  cases e with
  | atom id a => rw [Expr.rename, Expr.hoisted, Expr.hoisted, a.isPathRead_rename]
  | paren _ inner => exact inner.hoisted_rename

theorem argHoisted_rename (es : List (Expr Handle)) :
    argHoisted (argRename g es) = argHoisted es := by
  cases es with
  | nil => rfl
  | cons e es => rw [argRename, argHoisted, argHoisted, e.hoisted_rename, argHoisted_rename es]

theorem parenHoisted_rename (es : List (Expr Handle)) :
    parenHoisted (argRename g es) = parenHoisted es := by
  match es with
  | [] => rfl
  | .atom _ _ :: es => exact parenHoisted_rename es
  | .paren _ inner :: es =>
    rw [argRename, Expr.rename, parenHoisted, parenHoisted, inner.hoisted_rename,
      parenHoisted_rename es]

theorem Command.hoisted_rename (c : Command Handle) : (c.rename g).hoisted = c.hoisted := by
  match c with
  | .mk _ (.atom id a) args =>
    simp only [Command.rename, Expr.rename, Command.hoisted, a.isPathRead_rename, a.rename_eq_dot,
      a.acts_rename, argHoisted_rename args, parenHoisted_rename args, readEvents_rename]
  | .mk _ (.paren _ inner) args =>
    rw [Command.rename, Expr.rename, Command.hoisted, Command.hoisted, inner.hoisted_rename,
      argHoisted_rename args]

theorem commandHoisted_rename (cs : List (Command Handle)) :
    commandHoisted (commandRename g cs) = commandHoisted cs := by
  cases cs with
  | nil => rfl
  | cons c cs =>
    rw [commandRename, commandHoisted, commandHoisted, c.hoisted_rename, commandHoisted_rename cs]

theorem Pipe.hoisted_rename (p : Pipe Handle) : (p.rename g).hoisted = p.hoisted := by
  obtain ⟨_, _, commands⟩ := p
  exact commandHoisted_rename commands

end

mutual

theorem Stmt.trace_rename {old : List StmtId} (s : Stmt Handle) :
    (s.rename g).trace Pipe.hoisted old = s.trace Pipe.hoisted old := by
  match s with
  | .text .. | .invoke _ _ none => rfl
  | .action _ p | .invoke _ _ (some p) =>
    simp only [Stmt.rename, Stmt.trace, moments, Option.map_some, p.hoisted_rename]
  | .branch _ _ p body elseBody =>
    simp only [Stmt.rename, Stmt.trace, moments, Option.map_some, p.hoisted_rename,
      blockTrace_rename body, blockTrace_rename elseBody]

theorem blockTrace_rename {old : List StmtId} (b : Block Handle) :
    blockTrace Pipe.hoisted old (blockRename g b) = blockTrace Pipe.hoisted old b := by
  cases b with
  | nil => rfl
  | cons s b => rw [blockRename, blockTrace, blockTrace, s.trace_rename, blockTrace_rename b]

end

end Rename

end FlatTemplate

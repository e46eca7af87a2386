import FlatTemplate.Proofs.Template.Changes

namespace FlatTemplate

def Atom.acts (id : ExprId) (args : List (Expr Handle)) (a : Atom) : List ExprId :=
  if a.isIdentifier || a.isPathRead || (a = .dot && !args.isEmpty) then [id] else []

def readEvents (args : List (Expr Handle)) : List ExprId :=
  (args.filter (·.node.isPathRead)).map Expr.tag

mutual

def Expr.events : Expr Handle → List ExprId
  | .atom id a => if a.isPathRead then [id] else []
  | .paren _ inner => inner.events

def argEvents : List (Expr Handle) → List ExprId
  | [] => []
  | e :: es => e.events ++ argEvents es

/-- Arguments come before the head, but for a head in parentheses. -/
def Command.events : Command Handle → List ExprId
  | .mk _ (.atom id a) args => argEvents args ++ a.acts id args
  | .mk _ (.paren _ inner) args => inner.events ++ argEvents args

def commandEvents : List (Command Handle) → List ExprId
  | [] => []
  | c :: cs => c.events ++ commandEvents cs

def Pipe.events : Pipe Handle → List ExprId
  | .mk _ _ commands => commandEvents commands

end

mutual

/-- The calls and reads of an argument as rewriting orders them. -/
def Expr.hoisted : Expr Handle → List ExprId
  | .atom id a => if a.isPathRead then [id] else []
  | .paren _ inner => inner.hoisted

def argHoisted : List (Expr Handle) → List ExprId
  | [] => []
  | e :: es => e.hoisted ++ argHoisted es

def parenHoisted : List (Expr Handle) → List ExprId
  | [] => []
  | .atom _ _ :: es => parenHoisted es
  | .paren _ inner :: es => inner.hoisted ++ parenHoisted es

def Command.hoisted : Command Handle → List ExprId
  | .mk _ (.atom id a) args =>
    if a.isPathRead || a = .dot then parenHoisted args ++ readEvents args ++ a.acts id args
    else argHoisted args ++ a.acts id args
  | .mk _ (.paren _ inner) args => inner.hoisted ++ argHoisted args

def commandHoisted : List (Command Handle) → List ExprId
  | [] => []
  | c :: cs => c.hoisted ++ commandHoisted cs

def Pipe.hoisted : Pipe Handle → List ExprId
  | .mk _ _ commands => commandHoisted commands

end

theorem Command.isMethodCall_atom {id : CommandId} {x : ExprId} {a : Atom}
    {args : List (Expr Handle)} : (Command.mk id (.atom x a) args).view.isMethodCall ↔
      args ≠ [] ∧ (a.isPathRead || a = .dot) := by
  simp [CommandView.isMethodCall, ExprNode.isPathRead, Expr.node]

def Command.Orderly (c : Command Handle) : Prop :=
  c.view.isMethodCall → c.args.Pairwise fun a e =>
    a.node.isPathRead → e.node.isParen → e.events = []

def Pipe.Orderly (p : Pipe Handle) : Prop := ∀ c ∈ p.commands, c.Orderly

section Append

@[simp] theorem readEvents_nil : readEvents [] = [] := rfl

@[simp] theorem readEvents_append (as bs : List (Expr Handle)) :
    readEvents (as ++ bs) = readEvents as ++ readEvents bs := by
  simp [readEvents]

theorem readEvents_cons (e : Expr Handle) (es : List (Expr Handle)) :
    readEvents (e :: es) = (if e.node.isPathRead then [e.tag] else []) ++ readEvents es := by
  unfold readEvents
  by_cases h : e.node.isPathRead <;> simp [h]

@[simp] theorem argEvents_append (as bs : List (Expr Handle)) :
    argEvents (as ++ bs) = argEvents as ++ argEvents bs := by
  induction as with
  | nil => rfl
  | cons e es ih => rw [List.cons_append, argEvents, argEvents, ih, List.append_assoc]

@[simp] theorem argHoisted_append (as bs : List (Expr Handle)) :
    argHoisted (as ++ bs) = argHoisted as ++ argHoisted bs := by
  induction as with
  | nil => rfl
  | cons e es ih => rw [List.cons_append, argHoisted, argHoisted, ih, List.append_assoc]

@[simp] theorem parenHoisted_append (as bs : List (Expr Handle)) :
    parenHoisted (as ++ bs) = parenHoisted as ++ parenHoisted bs := by
  induction as with
  | nil => rfl
  | cons e es ih =>
    cases e with
    | atom => exact ih
    | paren => rw [List.cons_append, parenHoisted, parenHoisted, ih, List.append_assoc]

@[simp] theorem commandHoisted_append (cs ds : List (Command Handle)) :
    commandHoisted (cs ++ ds) = commandHoisted cs ++ commandHoisted ds := by
  induction cs with
  | nil => rfl
  | cons c cs ih => rw [List.cons_append, commandHoisted, commandHoisted, ih, List.append_assoc]

end Append

section NoParens

variable {es : List (Expr Handle)}

theorem parenHoisted_eq_nil (h : ∀ e ∈ es, e.node.isParen = false) : parenHoisted es = [] := by
  induction es with
  | nil => rfl
  | cons e es ih =>
    rw [List.forall_mem_cons] at h
    cases e with
    | atom => exact ih h.2
    | paren => cases h.1

theorem readEvents_eq_argEvents (h : ∀ e ∈ es, e.node.isParen = false) :
    readEvents es = argEvents es := by
  induction es with
  | nil => rfl
  | cons e es ih =>
    rw [List.forall_mem_cons] at h
    cases e with
    | atom => rw [readEvents_cons, argEvents, Expr.events, ih h.2]; rfl
    | paren => cases h.1

theorem argHoisted_eq_argEvents (h : ∀ e ∈ es, e.node.isParen = false) :
    argHoisted es = argEvents es := by
  induction es with
  | nil => rfl
  | cons e es ih =>
    rw [List.forall_mem_cons] at h
    cases e with
    | atom => rw [argHoisted, argEvents, Expr.hoisted, Expr.events, ih h.2]
    | paren => cases h.1

theorem argHoisted_eq_nil
    (h : ∀ e ∈ es, e.node.isParen = false ∧ e.node.isPathRead = false) : argHoisted es = [] := by
  induction es with
  | nil => rfl
  | cons e es ih =>
    rw [List.forall_mem_cons] at h
    match e with
    | .atom _ a =>
      have hread : a.isPathRead = false := h.1.2
      rw [argHoisted, Expr.hoisted, ih h.2, hread]
      rfl
    | .paren .. => cases h.1.1

end NoParens

end FlatTemplate

import FlatTemplate.Proofs.Scope.Steps
import FlatTemplate.Proofs.Template.Canonical

namespace FlatTemplate

section Definitions

variable (x : String) (n : Nat)

mutual

/-- The reads and declarations of `x`, in the order that rewriting leaves. -/
def Expr.moved : Expr Handle → List Step
  | .atom id a => if a.reads x n id then [.read id] else []
  | .paren _ inner => inner.moved

def argMoved (which : Expr Handle → Bool) : List (Expr Handle) → List Step
  | [] => []
  | e :: es => (if which e then e.moved else []) ++ argMoved which es

/-- What is hoisted comes before what stays. -/
def Command.moved : Command Handle → List Step
  | .mk id head args =>
    argMoved (Command.mk id head args).hoists args ++
      (head.moved ++ argMoved (fun e => !(Command.mk id head args).hoists e) args)

def commandMoved : List (Command Handle) → List Step
  | [] => []
  | c :: cs => c.moved ++ commandMoved cs

/-- A plain value in front waits for the command behind it. -/
def passedMoved : List (Command Handle) → List Step
  | [] => []
  | [c] => c.moved
  | l :: c :: cs =>
    if l.view.isPlain then c.moved ++ (l.moved ++ commandMoved cs)
    else l.moved ++ (c.moved ++ commandMoved cs)

def Pipe.moved : Pipe Handle → List Step
  | .mk id decls commands => passedMoved commands ++ if x ∈ decls then [.declare id] else []

end

mutual

/-- What is moved out of a pipeline. What parentheses declare stays if they are all there is. -/
def Pipe.front : Pipe Handle → List Step
  | .mk _ _ commands => commandFront commands

def commandFront : List (Command Handle) → List Step
  | [.mk _ (.paren _ inner) []] => inner.front
  | cs => passedMoved x n cs

end

end Definitions

namespace Command

theorem hoists_head (c : Command Handle) : c.hoists c.head = false := by
  by_cases hcall : c.isCall
  · rw [hoists_call hcall]
    obtain ⟨id, head, args⟩ := c
    rw [isCall_mk] at hcall
    cases head with
    | paren => cases hcall
    | atom id a =>
      cases a with
      | identifier => rfl
      | _ => cases hcall
  · rw [hoists, CommandView.hoists, isCall_view, if_neg hcall, Bool.and_eq_false_iff]
    by_cases hparen : c.head.node.isParen
    · left
      obtain ⟨id, head, args⟩ := c
      cases head with
      | atom => cases hparen
      | paren => simp [CommandView.isMethodCall, ExprNode.isPathRead, Expr.node]
    · exact .inr (Bool.eq_false_iff.mpr hparen)

theorem hoists_cases (c : Command Handle) :
    (∀ e, c.hoists e = false) ∨ ∀ e, c.hoists e = false → e.node.isParen = false := by
  by_cases hcall : c.isCall
  · right
    intro e he
    rw [hoists_call hcall, Bool.or_eq_false_iff] at he
    exact he.1
  · by_cases hmethod : c.view.isMethodCall
    · right
      intro e he
      rwa [hoists_method hmethod hcall] at he
    · left
      intro e
      rw [hoists, CommandView.hoists, isCall_view, if_neg hcall, Bool.eq_false_iff.mpr hmethod,
        Bool.false_and]

end Command

section Moved

variable {x : String} {n : Nat}

theorem argMoved_eq (which : Expr Handle → Bool) (es : List (Expr Handle)) :
    argMoved x n which es = (es.filter which).flatMap (Expr.moved x n) := by
  induction es with
  | nil => rfl
  | cons e es ih =>
    rw [argMoved, ih, List.filter_cons]
    split <;> rfl

theorem Command.moved_eq (c : Command Handle) : c.moved x n =
    (c.operands.filter c.hoists).flatMap (Expr.moved x n) ++
      (c.operands.filter fun e => !c.hoists e).flatMap (Expr.moved x n) := by
  have hhead := c.hoists_head
  obtain ⟨id, head, args⟩ := c
  have hoperands : (Command.mk id head args).operands = head :: args := rfl
  rw [Command.moved, argMoved_eq, argMoved_eq, hoperands, List.filter_cons_of_neg (by simpa using hhead),
    List.filter_cons_of_pos (by simpa using hhead), List.flatMap_cons]

theorem commandMoved_eq (cs : List (Command Handle)) :
    commandMoved x n cs = cs.flatMap (Command.moved x n) := by
  induction cs with
  | nil => rfl
  | cons c cs ih => rw [commandMoved, ih, List.flatMap_cons]

theorem passedMoved_plain {l : Command Handle} (h : l.view.isPlain) (c : Command Handle)
    (cs : List (Command Handle)) : passedMoved x n (l :: c :: cs) =
      c.moved x n ++ (l.moved x n ++ cs.flatMap (Command.moved x n)) := by
  rw [passedMoved, if_pos h, commandMoved_eq]

theorem passedMoved_cons {l : Command Handle} (h : l.view.isPlain = false)
    (cs : List (Command Handle)) :
    passedMoved x n (l :: cs) = l.moved x n ++ cs.flatMap (Command.moved x n) := by
  cases cs with
  | nil => exact (List.append_nil _).symm
  | cons c cs =>
    rw [passedMoved, if_neg (by simp [h]), commandMoved_eq, List.flatMap_cons]

theorem passedMoved_of_nil {l : Command Handle} (h : l.moved x n = []) (cs : List (Command Handle)) :
    passedMoved x n (l :: cs) = cs.flatMap (Command.moved x n) := by
  cases cs with
  | nil => exact h
  | cons c cs =>
    rw [passedMoved, h, commandMoved_eq, List.nil_append, List.nil_append, ite_self,
      List.flatMap_cons]

theorem passedMoved_append {pre : List (Command Handle)} (hpre : pre ≠ [])
    {rest : List (Command Handle)} (h : ∀ l, pre = [l] → rest = [] ∨ l.view.isPlain = false) :
    passedMoved x n (pre ++ rest) = passedMoved x n pre ++ rest.flatMap (Command.moved x n) := by
  match pre with
  | [l] =>
    rcases h l rfl with rfl | hl
    · simp
    · rw [List.singleton_append, passedMoved_cons hl]
      rfl
  | l :: c :: pre =>
    rw [List.cons_append, List.cons_append, passedMoved, passedMoved, commandMoved_eq,
      commandMoved_eq, List.flatMap_append]
    split <;> simp only [List.append_assoc]

theorem Pipe.moved_eq (p : Pipe Handle) : p.moved x n =
    passedMoved x n p.commands ++ if x ∈ p.decls then [.declare p.tag] else [] := by
  obtain ⟨id, decls, commands⟩ := p
  rfl

theorem Expr.moved_of_atom {e : Expr Handle} (h : e.node.isParen = false) :
    e.moved x n = e.steps x n := by
  cases e with
  | atom => rw [Expr.moved, Expr.steps]
  | paren => cases h

theorem Expr.declaredBy_of_atom {e : Expr Handle} (h : e.node.isParen = false) :
    declaredBy (e.steps x n) = [] := by
  cases e with
  | atom id a =>
    rw [Expr.steps]
    split <;> rfl
  | paren => cases h

theorem Command.rearranged {c : Command Handle}
    (h : ∀ e ∈ c.operands, Rearranged (e.moved x n) (e.steps x n)) :
    Rearranged (c.moved x n) (c.steps x n) := by
  rw [c.moved_eq, c.steps_eq]
  rcases c.hoists_cases with hnone | hall
  · have hstay : (c.operands.filter fun e => !c.hoists e) = c.operands :=
      List.filter_eq_self.mpr fun e _ => by simp [hnone e]
    rw [List.filter_eq_nil_iff.mpr fun e _ => by simp [hnone e], hstay]
    exact .flatMap h
  · generalize c.operands = es at h
    induction es with
    | nil => exact .refl _
    | cons e es ih =>
      rw [List.forall_mem_cons] at h
      cases he : c.hoists e with
      | true =>
        simp only [List.filter_cons, he, Bool.not_true, if_true, Bool.false_eq_true, if_false,
          List.flatMap_cons, List.append_assoc]
        exact h.1.append (ih h.2)
      | false =>
        have hatom := hall e he
        have hnone := Expr.declaredBy_of_atom (x := x) (n := n) hatom
        rw [← Expr.moved_of_atom hatom] at hnone
        simp only [List.filter_cons, he, Bool.not_false, if_true, Bool.false_eq_true, if_false,
          List.flatMap_cons]
        exact (Rearranged.swap hnone).trans (h.1.append (ih h.2))

theorem Command.head_of_isPlain {c : Command Handle} (h : c.view.isPlain) :
    c.args = [] ∧ c.head.node.isParen = false := by
  obtain ⟨id, head, args⟩ := c
  rw [CommandView.isPlain, Bool.and_eq_true, Command.isBare_view, List.isEmpty_iff] at h
  refine ⟨h.1, ?_⟩
  cases head with
  | atom => rfl
  | paren => cases h.2

theorem Command.declaredBy_of_isPlain {c : Command Handle} (h : c.view.isPlain) :
    declaredBy (c.steps x n) = [] := by
  obtain ⟨hargs, hatom⟩ := Command.head_of_isPlain h
  obtain ⟨id, head, args⟩ := c
  obtain rfl : args = [] := hargs
  rw [Command.steps, argSteps, List.append_nil]
  exact Expr.declaredBy_of_atom hatom

theorem passedMoved_rearranged {cs : List (Command Handle)}
    (h : ∀ c ∈ cs, Rearranged (c.moved x n) (c.steps x n)) :
    Rearranged (passedMoved x n cs) (cs.flatMap (Command.steps x n)) := by
  have hall : Rearranged (cs.flatMap (Command.moved x n)) (cs.flatMap (Command.steps x n)) :=
    .flatMap h
  match cs with
  | [] => exact .refl _
  | l :: rest =>
    cases hplain : l.view.isPlain with
    | false => rwa [passedMoved_cons hplain, ← List.flatMap_cons]
    | true =>
      match rest with
      | [] => simpa [passedMoved] using hall
      | c :: cs =>
        have hl := List.forall_mem_cons.mp h
        have hnone := hl.1.declares.trans (Command.declaredBy_of_isPlain hplain)
        rw [passedMoved_plain hplain]
        exact (Rearranged.swap hnone).trans (by simpa only [List.flatMap_cons] using hall)

/-- Whatever the order, the same is read and declared, and what is declared in the same order. -/
theorem Pipe.rearranged (p : Pipe Handle) : Rearranged (p.moved x n) (p.steps x n) := by
  induction p using Pipe.forall_of_operands with | h p ih
  rw [p.moved_eq, p.steps_eq]
  refine .append (passedMoved_rearranged fun c hc => Command.rearranged fun e he => ?_) (.refl _)
  cases e with
  | atom => rw [Expr.moved_of_atom rfl]; exact .refl _
  | paren id inner => exact ih c hc id inner he

theorem Expr.rearranged (e : Expr Handle) : Rearranged (e.moved x n) (e.steps x n) := by
  cases e with
  | atom => rw [Expr.moved_of_atom rfl]; exact .refl _
  | paren id inner => exact inner.rearranged

end Moved

end FlatTemplate

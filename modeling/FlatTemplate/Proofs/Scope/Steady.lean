import FlatTemplate.Proofs.Scope.Moving

namespace FlatTemplate

section Definitions

variable (x : String) (n : Nat)

def Expr.reads : Expr Handle → Bool
  | .atom id a => a.reads x n id
  | .paren _ _ => false

/-- No read that stays stands in front of what is hoisted and declares `x`. -/
def Command.Steady (c : Command Handle) : Prop :=
  c.operands.Pairwise fun a e =>
    a.reads x n → c.hoists a = false → c.hoists e → ∀ q ∈ e.pipes, x ∉ q.decls

/-- No plain value that reads `x` waits for a command that declares it. -/
def LeadSteady : List (Command Handle) → Prop
  | l :: c :: _ => l.view.isPlain → l.head.reads x n → ∀ q ∈ c.pipes, x ∉ q.decls
  | _ => True

def CommandsSteady (cs : List (Command Handle)) : Prop :=
  (∀ c ∈ cs, c.Steady x n) ∧ LeadSteady x n cs

def Pipe.Steady (p : Pipe Handle) : Prop := ∀ q ∈ p.pipes, CommandsSteady x n q.commands

instance (c : Command Handle) : Decidable (c.Steady x n) :=
  inferInstanceAs (Decidable (List.Pairwise _ c.operands))

instance : DecidablePred (LeadSteady x n)
  | [] | [_] => isTrue trivial
  | l :: c :: _ => inferInstanceAs (Decidable
      (l.view.isPlain → l.head.reads x n → ∀ q ∈ c.pipes, x ∉ q.decls))

instance (cs : List (Command Handle)) : Decidable (CommandsSteady x n cs) :=
  inferInstanceAs (Decidable (_ ∧ _))

instance (p : Pipe Handle) : Decidable (p.Steady x n) :=
  inferInstanceAs (Decidable (∀ q ∈ p.pipes, CommandsSteady x n q.commands))

end Definitions

variable {x : String} {n : Nat}

theorem Expr.steps_of_reads {e : Expr Handle} (h : e.reads x n) :
    e.node.isParen = false ∧ e.steps x n = [.read e.tag] := by
  cases e with
  | atom id a => exact ⟨rfl, if_pos h⟩
  | paren => cases h

theorem Expr.steps_of_not_reads {e : Expr Handle} (hatom : e.node.isParen = false)
    (h : e.reads x n = false) : e.steps x n = [] := by
  cases e with
  | atom id a => exact if_neg (by simpa [Expr.reads] using h)
  | paren => cases hatom

theorem Pipe.steady_iff {p : Pipe Handle} : p.Steady x n ↔
    CommandsSteady x n p.commands ∧ ∀ q ∈ commandPipes p.commands, CommandsSteady x n q.commands := by
  rw [Steady, p.pipes_eq, List.forall_mem_cons]

theorem Pipe.steady_of_operand {p : Pipe Handle} (h : p.Steady x n) {c : Command Handle}
    (hc : c ∈ p.commands) {id : ExprId} {inner : Pipe Handle} (hx : .paren id inner ∈ c.operands) :
    inner.Steady x n := fun q hq =>
  (steady_iff.mp h).2 q (commandPipes_subset (mem_commandPipes_of_operand hc hx) hq)

theorem declaredBy_flatMap_eq_nil {α : Type} {g : α → List Step} {as : List α}
    (h : ∀ a ∈ as, declaredBy (g a) = []) : declaredBy (as.flatMap g) = [] := by
  induction as with
  | nil => rfl
  | cons a as ih =>
    rw [List.forall_mem_cons] at h
    rw [List.flatMap_cons, declaredBy_append, h.1, ih h.2, List.append_nil]

theorem Expr.declaredBy_moved_eq_nil {e : Expr Handle} :
    declaredBy (e.moved x n) = [] ↔ ∀ q ∈ e.pipes, x ∉ q.decls := by
  rw [e.rearranged.declares, declaredBy_steps_eq_nil]

theorem Command.rearranged_self (c : Command Handle) : Rearranged (c.moved x n) (c.steps x n) :=
  c.rearranged fun e _ => e.rearranged

theorem Command.declaredBy_moved_eq_nil {c : Command Handle} :
    declaredBy (c.moved x n) = [] ↔ ∀ q ∈ c.pipes, x ∉ q.decls := by
  rw [c.rearranged_self.declares, declaredBy_steps_eq_nil]

theorem Command.alike {c : Command Handle} (hsteady : c.Steady x n)
    (h : ∀ e ∈ c.operands, Alike (e.moved x n) (e.steps x n)) :
    Alike (c.moved x n) (c.steps x n) := by
  rw [c.moved_eq, c.steps_eq]
  rcases c.hoists_cases with hnone | hall
  · have hstay : (c.operands.filter fun e => !c.hoists e) = c.operands :=
      List.filter_eq_self.mpr fun e _ => by simp [hnone e]
    rw [List.filter_eq_nil_iff.mpr fun e _ => by simp [hnone e], hstay]
    exact .flatMap h
  · rw [Command.Steady] at hsteady
    generalize c.operands = es at h hsteady
    induction es with
    | nil => exact .refl _
    | cons e es ih =>
      rw [List.forall_mem_cons] at h
      rw [List.pairwise_cons] at hsteady
      cases he : c.hoists e with
      | true =>
        simp only [List.filter_cons, he, Bool.not_true, if_true, Bool.false_eq_true, if_false,
          List.flatMap_cons, List.append_assoc]
        exact h.1.append (ih h.2 hsteady.2)
      | false =>
        have hatom := hall e he
        simp only [List.filter_cons, he, Bool.not_false, if_true, Bool.false_eq_true, if_false,
          List.flatMap_cons]
        refine Alike.trans ?_ (h.1.append (ih h.2 hsteady.2))
        cases hreads : e.reads x n with
        | false =>
          rw [Expr.moved_of_atom hatom, Expr.steps_of_not_reads hatom hreads]
          exact .refl _
        | true =>
          refine .swap (declaredBy_flatMap_eq_nil fun a ha => ?_)
            (e.rearranged.declares.trans (Expr.declaredBy_of_atom hatom))
          obtain ⟨ha, hhoists⟩ := List.mem_filter.mp ha
          exact Expr.declaredBy_moved_eq_nil.mpr (hsteady.1 a ha hreads he hhoists)

theorem Command.moved_of_isPlain {l : Command Handle} (h : l.view.isPlain) :
    l.moved x n = l.head.steps x n ∧ l.steps x n = l.head.steps x n := by
  obtain ⟨hargs, hatom⟩ := Command.head_of_isPlain h
  obtain ⟨id, head, args⟩ := l
  obtain rfl : args = [] := hargs
  exact ⟨(moved_bare id head).trans (Expr.moved_of_atom hatom), List.append_nil _⟩

theorem passedMoved_alike {cs : List (Command Handle)} (hlead : LeadSteady x n cs)
    (h : ∀ c ∈ cs, Alike (c.moved x n) (c.steps x n)) :
    Alike (passedMoved x n cs) (cs.flatMap (Command.steps x n)) := by
  have hall : Alike (cs.flatMap (Command.moved x n)) (cs.flatMap (Command.steps x n)) := .flatMap h
  match cs with
  | [] => exact .refl _
  | [c] => simpa [passedMoved] using hall
  | l :: c :: cs =>
    cases hplain : l.view.isPlain with
    | false => rwa [passedMoved_cons hplain, ← List.flatMap_cons]
    | true =>
      rw [passedMoved_plain hplain]
      refine Alike.trans ?_ hall
      have hmoved := (Command.moved_of_isPlain (x := x) (n := n) hplain).1
      have hatom := (Command.head_of_isPlain hplain).2
      rw [List.flatMap_cons, List.flatMap_cons]
      cases hreads : l.head.reads x n with
      | false =>
        rw [hmoved, Expr.steps_of_not_reads hatom hreads]
        exact .refl _
      | true =>
        refine .swap (Command.declaredBy_moved_eq_nil.mpr (hlead hplain hreads)) ?_
        rw [hmoved]
        exact Expr.declaredBy_of_atom hatom

theorem Pipe.Steady.alike {p : Pipe Handle} (h : p.Steady x n) :
    Alike (p.moved x n) (p.steps x n) := by
  induction p using Pipe.forall_of_operands with | h p ih
  obtain ⟨hcommands, hlead⟩ := (steady_iff.mp h).1
  rw [p.moved_eq, p.steps_eq]
  refine .append (passedMoved_alike hlead fun c hc => Command.alike (hcommands c hc) fun e he => ?_)
    (.refl _)
  cases e with
  | atom => rw [Expr.moved_of_atom rfl]; exact .refl _
  | paren id inner => exact ih c hc id inner he (steady_of_operand h hc he)

theorem infix_flatMap {α : Type} {g : α → List Step} {as : List α} {a : α} (ha : a ∈ as) :
    g a <:+: as.flatMap g := by
  obtain ⟨pre, post, rfl⟩ := List.append_of_mem ha
  exact ⟨pre.flatMap g, post.flatMap g, by simp⟩

theorem Expr.infix_moved {c : Command Handle} {e : Expr Handle} (he : e ∈ c.operands) :
    e.moved x n <:+: c.moved x n := by
  rw [c.moved_eq]
  cases hhoists : c.hoists e with
  | true =>
    exact (infix_flatMap (List.mem_filter.mpr ⟨he, hhoists⟩)).trans
      (List.prefix_append ..).isInfix
  | false =>
    exact (infix_flatMap (List.mem_filter.mpr ⟨he, by simp [hhoists]⟩)).trans
      (List.suffix_append ..).isInfix

theorem Command.infix_moved {p : Pipe Handle} {c : Command Handle} (hc : c ∈ p.commands) :
    c.moved x n <:+: p.moved x n := by
  rw [p.moved_eq]
  refine List.IsInfix.trans ?_ (List.prefix_append ..).isInfix
  generalize p.commands = cs at hc
  match cs with
  | [l] =>
    obtain rfl := List.mem_singleton.mp hc
    exact List.infix_refl _
  | l :: d :: cs =>
    cases hplain : l.view.isPlain with
    | false =>
      rw [passedMoved_cons hplain, ← List.flatMap_cons]
      exact infix_flatMap hc
    | true =>
      have hswapped : passedMoved x n (l :: d :: cs) =
          (d :: l :: cs).flatMap (Command.moved x n) := passedMoved_plain hplain d cs
      rw [hswapped]
      exact infix_flatMap ((List.Perm.swap d l cs).mem_iff.mp hc)

theorem Command.infix_steps {p : Pipe Handle} {c : Command Handle} (hc : c ∈ p.commands) :
    c.steps x n <:+: p.steps x n := by
  rw [p.steps_eq]
  exact (infix_flatMap hc).trans (List.prefix_append ..).isInfix

theorem Pipe.infix_of_mem {p q : Pipe Handle} (hq : q ∈ p.pipes) :
    q.steps x n <:+: p.steps x n ∧ q.moved x n <:+: p.moved x n := by
  induction p using Pipe.forall_of_operands with | h p ih
  rw [p.pipes_eq] at hq
  rcases List.mem_cons.mp hq with rfl | hq
  · exact ⟨List.infix_refl _, List.infix_refl _⟩
  · obtain ⟨c, hc, hq⟩ := mem_commandPipes.mp hq
    obtain ⟨e, he, hq⟩ := Command.mem_pipes.mp hq
    match e with
    | .paren id inner =>
      obtain ⟨hsteps, hmoved⟩ := ih c hc id inner he hq
      have hin : inner.steps x n <:+: c.steps x n := by
        rw [c.steps_eq]
        exact infix_flatMap (g := Expr.steps x n) he
      exact ⟨(hsteps.trans hin).trans (Command.infix_steps hc),
        (hmoved.trans (Expr.infix_moved he)).trans (Command.infix_moved hc)⟩

theorem exists_split_flatMap {α : Type} {g : α → List Step} {as : List α} {a : α} (ha : a ∈ as)
    {s : Step} (hs : g a = [s]) : ∃ pre post, as.flatMap g = pre ++ s :: post := by
  obtain ⟨pre, post, rfl⟩ := List.append_of_mem ha
  exact ⟨pre.flatMap g, post.flatMap g, by simp [hs]⟩

theorem mem_declaredBy_flatMap {α : Type} {g : α → List Step} {as : List α} {a : α} (ha : a ∈ as)
    {p : PipeId} (hp : p ∈ declaredBy (g a)) : p ∈ declaredBy (as.flatMap g) := by
  obtain ⟨pre, post, rfl⟩ := List.append_of_mem ha
  simp [hp]

theorem Command.overtaken {c : Command Handle} {a e : Expr Handle} (hsub : [a, e].Sublist c.operands)
    (hreads : a.reads x n) (hstays : c.hoists a = false) (hhoists : c.hoists e) {q : Pipe Handle}
    (hq : q ∈ e.pipes) (hx : x ∈ q.decls) : Overtaken (c.steps x n) (c.moved x n) := by
  obtain ⟨pre, post, hsplit, ha, he⟩ := List.cons_sublist_iff.mp hsub
  rw [List.singleton_sublist] at he
  obtain ⟨hatom, hsteps⟩ := Expr.steps_of_reads hreads
  have hne : declaredBy (e.steps x n) ≠ [] := fun hnil =>
    Expr.declaredBy_steps_eq_nil.mp hnil q hq hx
  obtain ⟨p, hp⟩ := List.exists_mem_of_ne_nil _ hne
  have hp' : p ∈ declaredBy (e.moved x n) := by rwa [e.rearranged.declares]
  have hmema : a ∈ c.operands := hsplit ▸ List.mem_append_left _ ha
  have hmeme : e ∈ c.operands := hsplit ▸ List.mem_append_right _ he
  obtain ⟨as, bs, hread⟩ := exists_split_flatMap ha hsteps
  have hstay : a ∈ c.operands.filter fun e => !c.hoists e :=
    List.mem_filter.mpr ⟨hmema, by simp [hstays]⟩
  obtain ⟨as', bs', hread'⟩ := exists_split_flatMap hstay ((Expr.moved_of_atom hatom).trans hsteps)
  refine ⟨a.tag, p, ⟨as, bs ++ post.flatMap (Expr.steps x n), ?_, ?_⟩,
    (c.operands.filter c.hoists).flatMap (Expr.moved x n) ++ as', bs', ?_, ?_⟩
  · rw [c.steps_eq, hsplit, List.flatMap_append, hread, List.append_assoc, List.cons_append]
  · rw [declaredBy_append]
    exact List.mem_append_right _ (mem_declaredBy_flatMap he hp)
  · rw [c.moved_eq, hread', List.append_assoc]
  · rw [declaredBy_append]
    exact List.mem_append_left _
      (mem_declaredBy_flatMap (List.mem_filter.mpr ⟨hmeme, hhoists⟩) hp')

theorem lead_overtaken {p : Pipe Handle} {l c : Command Handle} {cs : List (Command Handle)}
    (hp : p.commands = l :: c :: cs) (hplain : l.view.isPlain) (hreads : l.head.reads x n)
    {q : Pipe Handle} (hq : q ∈ c.pipes) (hx : x ∈ q.decls) :
    Overtaken (p.steps x n) (p.moved x n) := by
  obtain ⟨hmoved, hsteps⟩ := Command.moved_of_isPlain (x := x) (n := n) hplain
  have hhead := (Expr.steps_of_reads hreads).2
  have hne : declaredBy (c.steps x n) ≠ [] := fun hnil =>
    Command.declaredBy_steps_eq_nil.mp hnil q hq hx
  obtain ⟨d, hd⟩ := List.exists_mem_of_ne_nil _ hne
  refine ⟨l.head.tag, d, ⟨[], c.steps x n ++ (cs.flatMap (Command.steps x n) ++
      if x ∈ p.decls then [.declare p.tag] else []), ?_, ?_⟩,
    c.moved x n, cs.flatMap (Command.moved x n) ++ (if x ∈ p.decls then [.declare p.tag] else []),
    ?_, ?_⟩
  · simp [p.steps_eq, hp, hsteps, hhead]
  · rw [declaredBy_append]
    exact List.mem_append_left _ hd
  · simp [p.moved_eq, hp, passedMoved_plain hplain, hmoved, hhead]
  · rwa [c.rearranged_self.declares]

theorem Pipe.steady_of_not_overtaken {p : Pipe Handle}
    (h : ¬Overtaken (p.steps x n) (p.moved x n)) : p.Steady x n := by
  intro q hq
  obtain ⟨hsteps, hmoved⟩ := Pipe.infix_of_mem (x := x) (n := n) hq
  have hq : ¬Overtaken (q.steps x n) (q.moved x n) := fun hover => h (hover.mono hsteps hmoved)
  refine ⟨fun c hc => ?_, ?_⟩
  · rw [Command.Steady, List.pairwise_iff_forall_sublist]
    intro a e hsub hreads hstays hhoists r hr hx
    exact hq ((Command.overtaken hsub hreads hstays hhoists hr hx).mono
      (Command.infix_steps hc) (Command.infix_moved hc))
  · match hcommands : q.commands with
    | [] | [_] => trivial
    | l :: c :: cs =>
      exact fun hplain hreads r hr hx => hq (lead_overtaken hcommands hplain hreads hr hx)

end FlatTemplate

import FlatTemplate.Proofs.Template.Sites
import FlatTemplate.Proofs.Temporaries.Moving

namespace FlatTemplate

inductive Step where
  | read (e : ExprId)
  | declare (p : PipeId)
  deriving DecidableEq, Repr

/-- What each read refers to, if `scope` is the latest declaration before. -/
def resolve (scope : Option PipeId) : List Step → List (ExprId × Option PipeId)
  | [] => []
  | .read e :: steps => (e, scope) :: resolve scope steps
  | .declare p :: steps => resolve (some p) steps

def latest (scope : Option PipeId) : List Step → Option PipeId
  | [] => scope
  | .read _ :: steps => latest scope steps
  | .declare p :: steps => latest (some p) steps

def readBy (steps : List Step) : List ExprId :=
  steps.filterMap fun
    | .read e => some e
    | .declare _ => none

def declaredBy (steps : List Step) : List PipeId :=
  steps.filterMap fun
    | .read _ => none
    | .declare p => some p

section Resolve

variable (scope : Option PipeId) (as bs : List Step)

@[simp] theorem readBy_append : readBy (as ++ bs) = readBy as ++ readBy bs :=
  List.filterMap_append ..

@[simp] theorem declaredBy_append : declaredBy (as ++ bs) = declaredBy as ++ declaredBy bs :=
  List.filterMap_append ..

@[simp] theorem declaredBy_read (e : ExprId) : declaredBy (.read e :: as) = declaredBy as := rfl

theorem resolve_append :
    resolve scope (as ++ bs) = resolve scope as ++ resolve (latest scope as) bs := by
  induction as generalizing scope with
  | nil => rfl
  | cons a as ih =>
    cases a with
    | read e => exact congrArg _ (ih scope)
    | declare p => exact ih (some p)

theorem latest_append : latest scope (as ++ bs) = latest (latest scope as) bs := by
  induction as generalizing scope with
  | nil => rfl
  | cons a as ih =>
    cases a with
    | read e => exact ih scope
    | declare p => exact ih (some p)

theorem latest_eq : latest scope as = (declaredBy as).getLast?.or scope := by
  induction as generalizing scope with
  | nil => rfl
  | cons a as ih =>
    cases a with
    | read e => exact ih scope
    | declare p =>
      have hcons : declaredBy (.declare p :: as) = p :: declaredBy as := rfl
      rw [latest, ih, hcons, List.getLast?_cons]
      cases (declaredBy as).getLast? <;> rfl

theorem latest_eq_or : latest scope as = (latest none as).or scope := by
  rw [latest_eq, latest_eq none, Option.or_none]

theorem resolve_eq_map :
    resolve scope as = (resolve none as).map fun y => (y.1, y.2.or scope) := by
  induction as generalizing scope with
  | nil => rfl
  | cons a as ih =>
    cases a with
    | read e => exact congrArg _ (ih scope)
    | declare p =>
      rw [resolve, resolve, ih (some p), List.map_map]
      exact List.map_congr_left fun y _ => by simp

theorem map_fst_resolve : (resolve scope as).map Prod.fst = readBy as := by
  induction as generalizing scope with
  | nil => rfl
  | cons a as ih =>
    cases a with
    | read e => exact congrArg _ (ih scope)
    | declare p => exact ih (some p)

variable {scope as bs}

theorem eq_or_declared_of_mem_resolve {e : ExprId} {r : Option PipeId}
    (h : (e, r) ∈ resolve scope as) : r = scope ∨ ∃ p ∈ declaredBy as, r = some p := by
  induction as generalizing scope with
  | nil => cases h
  | cons a as ih =>
    cases a with
    | read e' =>
      rcases List.mem_cons.mp h with heq | h
      · exact .inl (congrArg Prod.snd heq)
      · exact ih h
    | declare p =>
      rcases ih h with rfl | ⟨q, hq, rfl⟩
      · exact .inr ⟨p, List.mem_cons_self, rfl⟩
      · exact .inr ⟨q, List.mem_cons_of_mem _ hq, rfl⟩

theorem eq_or_declared_of_latest (scope : Option PipeId) (as : List Step) :
    latest scope as = scope ∨ ∃ p ∈ declaredBy as, latest scope as = some p := by
  rw [latest_eq]
  cases h : (declaredBy as).getLast? with
  | none => exact .inl rfl
  | some p => exact .inr ⟨p, List.mem_of_getLast? h, rfl⟩

theorem latest_of_nil (h : declaredBy as = []) : latest scope as = scope := by
  rw [latest_eq, h]
  rfl

theorem declaredBy_subset (h : as <:+: bs) : declaredBy as ⊆ declaredBy bs := by
  obtain ⟨pre, post, rfl⟩ := h
  rw [declaredBy_append, declaredBy_append, List.append_assoc]
  exact fun p hp => List.mem_append_right _ (List.mem_append_left _ hp)

theorem resolve_of_nil (h : declaredBy as = []) : resolve scope as = (readBy as).map (·, scope) := by
  induction as with
  | nil => rfl
  | cons a as ih =>
    cases a with
    | read e => exact congrArg _ (ih h)
    | declare p => cases h

end Resolve

structure Rearranged (as bs : List Step) : Prop where
  reads : (readBy as).Perm (readBy bs)
  declares : declaredBy as = declaredBy bs

namespace Rearranged

variable {as as' bs bs' cs : List Step}

theorem refl (as : List Step) : Rearranged as as := ⟨.refl _, rfl⟩

theorem trans (h : Rearranged as bs) (h' : Rearranged bs cs) : Rearranged as cs :=
  ⟨h.reads.trans h'.reads, h.declares.trans h'.declares⟩

theorem append (h : Rearranged as bs) (h' : Rearranged as' bs') :
    Rearranged (as ++ as') (bs ++ bs') := by
  constructor
  · rw [readBy_append, readBy_append]
    exact h.reads.append h'.reads
  · rw [declaredBy_append, declaredBy_append, h.declares, h'.declares]

theorem flatMap {α : Type} {f g : α → List Step} {xs : List α}
    (h : ∀ x ∈ xs, Rearranged (f x) (g x)) : Rearranged (xs.flatMap f) (xs.flatMap g) := by
  induction xs with
  | nil => exact .refl _
  | cons x xs ih =>
    rw [List.forall_mem_cons] at h
    exact h.1.append (ih h.2)

theorem swap (h : declaredBy bs = []) : Rearranged (as ++ (bs ++ cs)) (bs ++ (as ++ cs)) := by
  constructor
  · simp only [readBy_append, ← List.append_assoc]
    exact List.perm_append_comm.append_right _
  · simp [h]

theorem latest (h : Rearranged as bs) (scope : Option PipeId) :
    latest scope as = latest scope bs := by
  rw [latest_eq, latest_eq, h.declares]

end Rearranged

/-- Every read refers to the same declaration in either order, and so does what comes behind. -/
structure Alike (as bs : List Step) : Prop where
  resolved : ∀ scope, (resolve scope as).Perm (resolve scope bs)
  latest : ∀ scope, latest scope as = latest scope bs

namespace Alike

variable {as as' bs bs' cs : List Step}

theorem refl (as : List Step) : Alike as as := ⟨fun _ => .refl _, fun _ => rfl⟩

theorem trans (h : Alike as bs) (h' : Alike bs cs) : Alike as cs :=
  ⟨fun scope => (h.resolved scope).trans (h'.resolved scope),
    fun scope => (h.latest scope).trans (h'.latest scope)⟩

theorem append (h : Alike as bs) (h' : Alike as' bs') : Alike (as ++ as') (bs ++ bs') := by
  constructor
  · intro scope
    rw [resolve_append, resolve_append, h.latest]
    exact (h.resolved _).append (h'.resolved _)
  · intro scope
    rw [latest_append, latest_append, h.latest, h'.latest]

theorem flatMap {α : Type} {f g : α → List Step} {xs : List α} (h : ∀ x ∈ xs, Alike (f x) (g x)) :
    Alike (xs.flatMap f) (xs.flatMap g) := by
  induction xs with
  | nil => exact .refl _
  | cons x xs ih =>
    rw [List.forall_mem_cons] at h
    exact h.1.append (ih h.2)

theorem of_reads (h : Rearranged as bs) (hbs : declaredBy bs = []) : Alike as bs := by
  refine ⟨fun scope => ?_, h.latest⟩
  rw [resolve_of_nil (h.declares.trans hbs), resolve_of_nil hbs]
  exact h.reads.map _

theorem swap (has : declaredBy as = []) (hbs : declaredBy bs = []) :
    Alike (as ++ (bs ++ cs)) (bs ++ (as ++ cs)) := by
  rw [← List.append_assoc, ← List.append_assoc]
  refine append (of_reads ⟨?_, ?_⟩ ?_) (.refl cs)
  · rw [readBy_append, readBy_append]
    exact List.perm_append_comm
  · rw [declaredBy_append, declaredBy_append, has, hbs]
  · rw [declaredBy_append, has, hbs]
    rfl

end Alike

/-- A declaration that stands behind a read in one order comes before it in the other. -/
def Overtaken (as bs : List Step) : Prop :=
  ∃ e p, (∃ pre post, as = pre ++ .read e :: post ∧ p ∈ declaredBy post) ∧
    ∃ pre post, bs = pre ++ .read e :: post ∧ p ∈ declaredBy pre

namespace Overtaken

variable {as as' bs bs' : List Step}

theorem mono (h : Overtaken as bs) (has : as <:+: as') (hbs : bs <:+: bs') :
    Overtaken as' bs' := by
  obtain ⟨e, p, ⟨pre, post, rfl, hp⟩, pre', post', rfl, hp'⟩ := h
  obtain ⟨x, y, rfl⟩ := has
  obtain ⟨x', y', rfl⟩ := hbs
  refine ⟨e, p, ⟨x ++ pre, post ++ y, by simp, ?_⟩, x' ++ pre', post' ++ y', by simp, ?_⟩
  · rw [declaredBy_append]
    exact List.mem_append_left _ hp
  · rw [declaredBy_append]
    exact List.mem_append_right _ hp'

/-- The read that is overtaken refers to something else. -/
theorem exists_ne (h : Overtaken as bs) (hsame : declaredBy bs = declaredBy as)
    (nodup : (declaredBy as).Nodup) {scope : Option PipeId}
    (hscope : ∀ p ∈ declaredBy as, scope ≠ some p) (scope' : Option PipeId) :
    ∃ e r r', (e, r) ∈ resolve scope as ∧ (e, r') ∈ resolve scope' bs ∧ r ≠ r' := by
  obtain ⟨e, p, ⟨pre, post, rfl, hp⟩, pre', post', rfl, hp'⟩ := h
  refine ⟨e, latest scope pre, latest scope' pre', ?_, ?_, fun heq => ?_⟩
  · rw [resolve_append]
    exact List.mem_append_right _ List.mem_cons_self
  · rw [resolve_append]
    exact List.mem_append_right _ List.mem_cons_self
  · rw [declaredBy_append, declaredBy_append, declaredBy_read, declaredBy_read] at hsame
    rw [declaredBy_append, declaredBy_read] at nodup hscope
    have hapart := (List.nodup_append.mp nodup).2.2
    obtain ⟨q, hq⟩ := Option.isSome_iff_exists.mp
      (List.getLast?_isSome.mpr (List.ne_nil_of_mem hp'))
    rw [latest_eq, latest_eq, hq, Option.some_or] at heq
    have hqmem := List.mem_of_getLast? hq
    -- The last declaration in front of the read comes behind all that stood there before.
    have hbehind : q ∈ declaredBy post := by
      rcases List.append_eq_append_iff.mp hsame with ⟨ds, hpre, -⟩ | ⟨ds, hpre', hpost⟩
      · exact absurd rfl (hapart p (hpre ▸ List.mem_append_left _ hp') p hp)
      · have hds : ds ≠ [] := by
          rintro rfl
          rw [List.append_nil] at hpre'
          exact hapart p (hpre' ▸ hp') p hp rfl
        rw [hpre', List.getLast?_append_of_ne_nil _ hds] at hq
        exact hpost ▸ List.mem_append_left _ (List.mem_of_getLast? hq)
    cases hlast : (declaredBy pre).getLast? with
    | none =>
      rw [hlast, Option.none_or] at heq
      exact hscope q (List.mem_append_right _ hbehind) heq
    | some d =>
      rw [hlast, Option.some_or, Option.some_inj] at heq
      exact hapart d (List.mem_of_getLast? hlast) q hbehind heq

end Overtaken

section Definitions

variable (x : String) (n : Nat)

def Atom.reads (id : ExprId) : Atom → Bool
  | .var (first :: _) => first = x && id.index < n
  | _ => false

mutual

/-- The reads and declarations of `x`, in the order of evaluation. -/
def Expr.steps : Expr Handle → List Step
  | .atom id a => if a.reads x n id then [.read id] else []
  | .paren _ inner => inner.steps

def argSteps : List (Expr Handle) → List Step
  | [] => []
  | e :: es => e.steps ++ argSteps es

def Command.steps : Command Handle → List Step
  | .mk _ head args => head.steps ++ argSteps args

def commandSteps : List (Command Handle) → List Step
  | [] => []
  | c :: cs => c.steps ++ commandSteps cs

def Pipe.steps : Pipe Handle → List Step
  | .mk id decls commands => commandSteps commands ++ if x ∈ decls then [.declare id] else []

end

def Entry.read? : Entry → Option ExprId
  | .expr id (.atom a) => if a.reads x n id then some id else none
  | _ => none

def readsIn (es : List Entry) : List ExprId := es.filterMap (Entry.read? x n)

end Definitions

section Steps

variable {x : String} {n : Nat}

theorem argSteps_eq (es : List (Expr Handle)) : argSteps x n es = es.flatMap (Expr.steps x n) := by
  induction es with
  | nil => rfl
  | cons e es ih => rw [argSteps, ih, List.flatMap_cons]

theorem Command.steps_eq (c : Command Handle) :
    c.steps x n = c.operands.flatMap (Expr.steps x n) := by
  obtain ⟨id, head, args⟩ := c
  rw [Command.steps, argSteps_eq]
  rfl

theorem commandSteps_eq (cs : List (Command Handle)) :
    commandSteps x n cs = cs.flatMap (Command.steps x n) := by
  induction cs with
  | nil => rfl
  | cons c cs ih => rw [commandSteps, ih, List.flatMap_cons]

theorem Pipe.steps_eq (p : Pipe Handle) : p.steps x n =
    p.commands.flatMap (Command.steps x n) ++ if x ∈ p.decls then [.declare p.tag] else [] := by
  obtain ⟨id, decls, commands⟩ := p
  rw [Pipe.steps, commandSteps_eq]
  rfl

end Steps

theorem Pipe.forall_of_operands {P : Pipe Handle → Prop}
    (h : ∀ p : Pipe Handle, (∀ c ∈ p.commands, ∀ id inner, .paren id inner ∈ c.operands → P inner) →
      P p) (p : Pipe Handle) : P p := by
  induction hn : p.size using Nat.strongRecOn generalizing p with | _ m ih
  exact h p fun c hc id inner hx => ih _ (hn ▸ Pipe.size_lt_of_operand hc hx) inner rfl

section Entries

variable {x : String} {n : Nat}

theorem readsIn_append (es es' : List Entry) :
    readsIn x n (es ++ es') = readsIn x n es ++ readsIn x n es' := List.filterMap_append ..

theorem readsIn_atomsIn (es : List Entry) : readsIn x n (atomsIn es) = readsIn x n es := by
  rw [readsIn, atomsIn, List.filterMap_filter]
  refine List.filterMap_congr fun e _ => ?_
  split
  · rfl
  · next hatom =>
    cases e with
    | stmt | pipe | command => rfl
    | expr id node =>
      cases node with
      | paren => rfl
      | atom => exact absurd rfl hatom

mutual

theorem Expr.readBy_steps (e : Expr Handle) : readBy (e.steps x n) = readsIn x n e.entries := by
  cases e with
  | atom id a =>
    rw [Expr.steps, Expr.entries, readsIn, List.filterMap_cons, Entry.read?]
    cases a.reads x n id <;> rfl
  | paren id inner => exact inner.readBy_steps

theorem readBy_argSteps (es : List (Expr Handle)) :
    readBy (argSteps x n es) = readsIn x n (argEntries es) := by
  cases es with
  | nil => rfl
  | cons e es =>
    rw [argSteps, argEntries, readBy_append, readsIn_append, e.readBy_steps, readBy_argSteps es]

theorem Command.readBy_steps (c : Command Handle) :
    readBy (c.steps x n) = readsIn x n c.entries := by
  obtain ⟨id, head, args⟩ := c
  rw [Command.steps, readBy_append, head.readBy_steps, readBy_argSteps args, ← readsIn_append]
  rfl

theorem readBy_commandSteps (cs : List (Command Handle)) :
    readBy (commandSteps x n cs) = readsIn x n (commandEntries cs) := by
  cases cs with
  | nil => rfl
  | cons c cs =>
    rw [commandSteps, commandEntries, readBy_append, readsIn_append, c.readBy_steps,
      readBy_commandSteps cs]

theorem Pipe.readBy_steps (p : Pipe Handle) : readBy (p.steps x n) = readsIn x n p.entries := by
  obtain ⟨id, decls, commands⟩ := p
  have hnone : readBy (if x ∈ decls then [.declare id] else []) = [] := by split <;> rfl
  rw [Pipe.steps, readBy_append, hnone, List.append_nil, readBy_commandSteps commands]
  rfl

end

end Entries

def declarersIn (x : String) (ps : List (Pipe Handle)) : List PipeId :=
  (ps.filter (x ∈ ·.decls)).map Pipe.tag

section Declarers

variable {x : String} {n : Nat}

theorem declarersIn_append (ps qs : List (Pipe Handle)) :
    declarersIn x (ps ++ qs) = declarersIn x ps ++ declarersIn x qs := by
  rw [declarersIn, List.filter_append, List.map_append]
  rfl

theorem declarersIn_eq_nil {ps : List (Pipe Handle)} :
    declarersIn x ps = [] ↔ ∀ p ∈ ps, x ∉ p.decls := by
  simp [declarersIn, List.filter_eq_nil_iff]

mutual

theorem Expr.declaredBy_steps (e : Expr Handle) :
    (declaredBy (e.steps x n)).Perm (declarersIn x e.pipes) := by
  cases e with
  | atom id a =>
    rw [Expr.steps]
    split <;> exact .nil
  | paren id inner => exact inner.declaredBy_steps

theorem declaredBy_argSteps (es : List (Expr Handle)) :
    (declaredBy (argSteps x n es)).Perm (declarersIn x (argPipes es)) := by
  cases es with
  | nil => exact .nil
  | cons e es =>
    rw [argSteps, argPipes, declaredBy_append, declarersIn_append]
    exact e.declaredBy_steps.append (declaredBy_argSteps es)

theorem Command.declaredBy_steps (c : Command Handle) :
    (declaredBy (c.steps x n)).Perm (declarersIn x c.pipes) := by
  obtain ⟨id, head, args⟩ := c
  rw [Command.steps, Command.pipes, declaredBy_append, declarersIn_append]
  exact head.declaredBy_steps.append (declaredBy_argSteps args)

theorem declaredBy_commandSteps (cs : List (Command Handle)) :
    (declaredBy (commandSteps x n cs)).Perm (declarersIn x (commandPipes cs)) := by
  cases cs with
  | nil => exact .nil
  | cons c cs =>
    rw [commandSteps, commandPipes, declaredBy_append, declarersIn_append]
    exact c.declaredBy_steps.append (declaredBy_commandSteps cs)

theorem Pipe.declaredBy_steps (p : Pipe Handle) :
    (declaredBy (p.steps x n)).Perm (declarersIn x p.pipes) := by
  obtain ⟨id, decls, commands⟩ := p
  have hown : declaredBy (if x ∈ decls then [.declare id] else []) =
      declarersIn x [.mk id decls commands] := by
    by_cases hx : x ∈ decls <;> simp [hx, declaredBy, declarersIn, Pipe.tag]
  have hpipes : (Pipe.mk id decls commands).pipes = [.mk id decls commands] ++ commandPipes commands :=
    rfl
  rw [Pipe.steps, declaredBy_append, hown, hpipes, declarersIn_append]
  exact List.perm_append_comm.trans ((declaredBy_commandSteps commands).append_left _)

end

theorem Expr.declaredBy_steps_eq_nil {e : Expr Handle} :
    declaredBy (e.steps x n) = [] ↔ ∀ q ∈ e.pipes, x ∉ q.decls := by
  rw [← declarersIn_eq_nil]
  exact ⟨fun h => (h ▸ e.declaredBy_steps (x := x) (n := n)).nil_eq.symm,
    fun h => (h ▸ e.declaredBy_steps (x := x) (n := n)).eq_nil⟩

theorem Command.declaredBy_steps_eq_nil {c : Command Handle} :
    declaredBy (c.steps x n) = [] ↔ ∀ q ∈ c.pipes, x ∉ q.decls := by
  rw [← declarersIn_eq_nil]
  exact ⟨fun h => (h ▸ c.declaredBy_steps (x := x) (n := n)).nil_eq.symm,
    fun h => (h ▸ c.declaredBy_steps (x := x) (n := n)).eq_nil⟩

end Declarers

end FlatTemplate

import FlatTemplate.Proofs.Scope.Preserving
import FlatTemplate.Proofs.Tree.Applying

/-!
Which declaration a variable refers to: the latest one of its name that is in scope. A declaration
in the pipeline of an action or an invocation, in parentheses or not, lasts to the end of the block,
and one in the pipeline of a branch to the end of the branch. Hoisted out of such a pipeline, it
lasts to the end of the block around the branch.
-/

namespace FlatTemplate

/-- In which order pipelines read and declare, and what of one that governs a branch lasts beyond the
branch. -/
structure Course where
  steps : Pipe Handle → List Step
  lasting : Pipe Handle → List Step

def Course.written (x : String) (n : Nat) : Course := ⟨Pipe.steps x n, fun _ => []⟩

def Course.hoisted (x : String) (n : Nat) : Course := ⟨Pipe.moved x n, Pipe.front x n⟩

section Definitions

variable (course : Course)

def Stmt.behind (scope : Option PipeId) : Stmt Handle → Option PipeId
  | .text _ _ | .invoke _ _ none => scope
  | .branch _ _ p _ _ => latest scope (course.lasting p)
  | .action _ p | .invoke _ _ (some p) => latest scope (course.steps p)

mutual

def Stmt.resolved (scope : Option PipeId) : Stmt Handle → List (ExprId × Option PipeId)
  | .text _ _ | .invoke _ _ none => []
  | .action _ p | .invoke _ _ (some p) => resolve scope (course.steps p)
  | .branch _ _ p body elseBody =>
    resolve scope (course.steps p) ++ (blockResolved (latest scope (course.steps p)) body ++
      blockResolved (latest scope (course.steps p)) elseBody)

/-- The reads, each with the pipeline that declares what it refers to. -/
def blockResolved (scope : Option PipeId) : Block Handle → List (ExprId × Option PipeId)
  | [] => []
  | s :: rest => s.resolved scope ++ blockResolved (s.behind course scope) rest

end

def blockBehind (scope : Option PipeId) : Block Handle → Option PipeId
  | [] => scope
  | s :: rest => blockBehind (s.behind course scope) rest

variable (x : String) (n : Nat)

def Stmt.spills : Stmt Handle → Bool
  | .branch _ _ p _ _ => !(declaredBy (p.front x n)).isEmpty
  | _ => false

mutual

def Stmt.contained : Stmt Handle → Bool
  | .branch _ _ _ body elseBody => blockContained body && blockContained elseBody
  | _ => true

/-- Behind a branch that a declaration is hoisted out of, nothing refers to one before the branch. -/
def blockContained : Block Handle → Bool
  | [] => true
  | s :: rest => s.contained &&
      (!s.spills x n || (blockResolved (.written x n) none rest).all (·.2.isSome)) &&
        blockContained rest

end

/-- No declaration of `x` that is hoisted passes a read of it, or reaches one behind the branch. -/
structure Kept (b : Block Handle) : Prop where
  steady : Governed (Pipe.Steady x n) b
  contained : blockContained x n b

instance (b : Block Handle) : Decidable (Kept x n b) :=
  decidable_of_iff (Governed (Pipe.Steady x n) b ∧ blockContained x n b)
    ⟨fun h => ⟨h.1, h.2⟩, fun h => ⟨h.1, h.2⟩⟩

end Definitions

section Blocks

variable {course : Course} {b b' b'' : Block Handle}

theorem blockResolved_append (scope : Option PipeId) (as bs : Block Handle) :
    blockResolved course scope (as ++ bs) =
      blockResolved course scope as ++ blockResolved course (blockBehind course scope as) bs := by
  induction as generalizing scope with
  | nil => rfl
  | cons s as ih =>
    rw [List.cons_append, blockResolved, blockResolved, blockBehind, ih, List.append_assoc]

theorem blockBehind_append (scope : Option PipeId) (as bs : Block Handle) :
    blockBehind course scope (as ++ bs) = blockBehind course (blockBehind course scope as) bs := by
  induction as generalizing scope with
  | nil => rfl
  | cons s as ih => rw [List.cons_append, blockBehind, blockBehind, ih]

theorem Stmt.behind_eq (s : Stmt Handle) (scope : Option PipeId) :
    s.behind course scope = (s.behind course none).or scope := by
  cases s with
  | text => rfl
  | action | branch => exact latest_eq_or ..
  | invoke id name p =>
    cases p with
    | none => rfl
    | some p => exact latest_eq_or ..

mutual

theorem Stmt.resolved_eq_map (s : Stmt Handle) (scope : Option PipeId) :
    s.resolved course scope = (s.resolved course none).map fun y => (y.1, y.2.or scope) := by
  match s with
  | .text .. | .invoke _ _ none => rfl
  | .action .. | .invoke _ _ (some _) => exact resolve_eq_map scope _
  | .branch id kind p body elseBody =>
    rw [Stmt.resolved, Stmt.resolved, latest_eq_or scope, resolve_eq_map,
      blockResolved_eq_map body ((latest none _).or scope), blockResolved_eq_map body (latest none _),
      blockResolved_eq_map elseBody ((latest none _).or scope),
      blockResolved_eq_map elseBody (latest none _)]
    simp only [List.map_append, List.map_map, Function.comp_def, Option.or_assoc]

theorem blockResolved_eq_map (b : Block Handle) (scope : Option PipeId) :
    blockResolved course scope b =
      (blockResolved course none b).map fun y => (y.1, y.2.or scope) := by
  cases b with
  | nil => rfl
  | cons s b =>
    rw [blockResolved, blockResolved, s.resolved_eq_map scope, s.behind_eq scope,
      blockResolved_eq_map b ((s.behind course none).or scope),
      blockResolved_eq_map b (s.behind course none), List.map_append, List.map_map]
    simp only [Function.comp_def, Option.or_assoc]

end

theorem blockResolved_of_isSome (h : ∀ y ∈ blockResolved course none b, y.2.isSome)
    (scope : Option PipeId) : blockResolved course scope b = blockResolved course none b := by
  have hid : ∀ y ∈ blockResolved course none b, (y.1, y.2.or scope) = y := by
    rintro ⟨e, r⟩ hy
    obtain ⟨p, rfl⟩ := Option.isSome_iff_exists.mp (h _ hy)
    rfl
  rw [blockResolved_eq_map]
  exact (List.map_congr_left hid).trans (List.map_id' _)

structure Course.Agree (course : Course) (b b' : Block Handle) : Prop where
  resolved : ∀ scope, (blockResolved course scope b').Perm (blockResolved course scope b)
  behind : ∀ scope, blockBehind course scope b' = blockBehind course scope b

namespace Course.Agree

theorem refl (b : Block Handle) : course.Agree b b := ⟨fun _ => .refl _, fun _ => rfl⟩

theorem trans (h : course.Agree b b') (h' : course.Agree b' b'') : course.Agree b b'' :=
  ⟨fun scope => (h'.resolved scope).trans (h.resolved scope),
    fun scope => (h'.behind scope).trans (h.behind scope)⟩

theorem around (h : course.Agree b b') (pre post : Block Handle) :
    course.Agree (pre ++ b ++ post) (pre ++ b' ++ post) := by
  constructor
  · intro scope
    simp only [blockResolved_append, blockBehind_append, h.behind]
    exact ((h.resolved _).append_left _).append_right _
  · intro scope
    simp only [blockBehind_append, h.behind]

theorem body (h : course.Agree b b') (id : StmtId) (kind : BranchKind) (p : Pipe Handle)
    (elseBody : Block Handle) :
    course.Agree [.branch id kind p b elseBody] [.branch id kind p b' elseBody] :=
  ⟨fun _ => (((h.resolved _).append_right _).append_left _).append_right _, fun _ => rfl⟩

theorem elseBody (h : course.Agree b b') (id : StmtId) (kind : BranchKind) (p : Pipe Handle)
    (body : Block Handle) :
    course.Agree [.branch id kind p body b] [.branch id kind p body b'] :=
  ⟨fun _ => (((h.resolved _).append_left _).append_left _).append_right _, fun _ => rfl⟩

end Course.Agree

theorem Stmt.exists_resolved (course : Course) (s : Stmt Handle) {p : Pipe Handle}
    (hp : s.governing? = some p) :
    ∃ (lasting : Pipe Handle → List Step)
      (inner : Option PipeId → List (ExprId × Option PipeId)),
      (lasting = course.steps ∨ lasting = course.lasting) ∧ ∀ q scope,
        (s.govern q).behind course scope = latest scope (lasting q) ∧
        (s.govern q).resolved course scope =
          resolve scope (course.steps q) ++ inner (latest scope (course.steps q)) := by
  match s with
  | .action .. | .invoke _ _ (some _) =>
    exact ⟨course.steps, fun _ => [], .inl rfl, fun q scope => ⟨rfl, (List.append_nil _).symm⟩⟩
  | .branch id kind _ body elseBody =>
    exact ⟨course.lasting, fun after => blockResolved course after body ++
      blockResolved course after elseBody, .inr rfl, fun q scope => ⟨rfl, rfl⟩⟩

end Blocks

section Rewrite

variable {x : String} {n : Nat} {f : Fresh}

theorem Pipe.Rewrites.moved_alike {role : Role} {p : Pipe Handle} {r : Rewriting (Pipe Handle)}
    (h : Pipe.Rewrites f role p r) (hx : x ≠ f.name) (hn : n ≤ f.expr.index) (hp : p.Passing x)
    (hprint : role = .print → p.decls = []) :
    Alike (r.aheadMoved x n ++ r.rest.moved x n) (p.moved x n) := by
  -- The host declares `x` if it did before, under the same handle.
  have hdecls : x ∈ r.rest.decls ↔ x ∈ p.decls := by
    rw [h.rest_decls]
    split
    · next hsplit => simp [hprint (h.of_split hsplit).1, hx]
    · rfl
  rw [r.rest.moved_eq, p.moved_eq, h.rest_tag, ← List.append_assoc]
  simp only [hdecls]
  exact (h.moves hx hn hp).passed.append (.refl _)

theorem blockResolved_ahead (a : Option (Pipe Handle)) (id : StmtId) (scope : Option PipeId) :
    blockResolved (.hoisted x n) scope (a.map (.action id)).toList =
        resolve scope ((a.map (Pipe.moved x n)).getD []) ∧
      blockBehind (.hoisted x n) scope (a.map (.action id)).toList =
        latest scope ((a.map (Pipe.moved x n)).getD []) := by
  cases a with
  | none => exact ⟨rfl, rfl⟩
  | some p => exact ⟨List.append_nil _, rfl⟩

theorem blockResolved_print (hn : n ≤ f.expr.index) (scope : Option PipeId) :
    blockResolved (.hoisted x n) scope [f.print] = [] ∧
      blockBehind (.hoisted x n) scope [f.print] = scope := by
  have hnone : (Pipe.mk f.pipe [] [f.read]).moved x n = [] := by
    rw [Pipe.moved_eq]
    exact congrArg (· ++ []) (Fresh.moved_read hn)
  have hresolved : blockResolved (.hoisted x n) scope [f.print] =
      resolve scope ((Pipe.mk f.pipe [] [f.read]).moved x n) ++ [] := rfl
  have hbehind : blockBehind (.hoisted x n) scope [f.print] =
      latest scope ((Pipe.mk f.pipe [] [f.read]).moved x n) := rfl
  rw [hresolved, hbehind, hnone]
  exact ⟨rfl, rfl⟩

theorem Stmt.agree_rewriteOwn? {s : Stmt Handle} {own : BlockRewriting}
    (h : s.rewriteOwn? f = some own) (hx : x ≠ f.name) (hn : n ≤ f.expr.index)
    (hs : ∀ p ∈ s.governing?, p.Passing x) : (Course.hoisted x n).Agree [s] own.block := by
  obtain ⟨p, r, hp, hrewrites, -, hblock⟩ := Stmt.rewriteOwn?_eq_some h
  have hmoves := hrewrites.moves (x := x) hx hn (hs p hp)
  have hmoved := hrewrites.moved_alike (x := x) hx hn (hs p hp) (Stmt.decls_of_print hp)
  obtain ⟨lasting, inner, hlasting, hinner⟩ := Stmt.exists_resolved (.hoisted x n) s hp
  have hsame (scope) : latest scope (r.aheadMoved x n ++ lasting r.rest) =
      latest scope (lasting p) := by
    rcases hlasting with rfl | rfl
    · exact hmoved.latest scope
    · rw [latest_eq, latest_eq scope (Course.lasting _ p)]
      exact congrArg (·.getLast?.or scope) hmoves.front
  have hold (scope) := hinner p scope
  simp only [Tree.govern_governing hp] at hold
  have hback (scope) : blockResolved (.hoisted x n) scope
        (if r.found.edit = .splitPrint then [f.print] else []) = [] ∧
      blockBehind (.hoisted x n) scope
        (if r.found.edit = .splitPrint then [f.print] else []) = scope := by
    split
    · exact blockResolved_print hn scope
    · exact ⟨rfl, rfl⟩
  have hfront := blockResolved_ahead (x := x) (n := n) r.ahead f.stmt
  rw [hblock]
  constructor
  · intro scope
    rw [blockResolved_append, (hfront scope).1, (hfront scope).2, blockResolved, (hback _).1,
      (hinner r.rest _).2, List.append_nil, ← List.append_assoc, blockResolved, (hold scope).2,
      blockResolved, List.append_nil]
    have hlatest : latest (latest scope (r.aheadMoved x n)) (r.rest.moved x n) =
        latest scope (p.moved x n) := by
      rw [← latest_append]
      exact hmoved.latest scope
    have hresolved := (hmoved.resolved scope).append_right (inner (latest scope (p.moved x n)))
    rw [resolve_append] at hresolved
    exact hlatest ▸ hresolved
  · intro scope
    rw [blockBehind_append, (hfront scope).2, blockBehind, (hback _).2, (hinner r.rest _).1,
      ← latest_append]
    exact (hsame scope).trans (hold scope).1.symm

end Rewrite

end FlatTemplate

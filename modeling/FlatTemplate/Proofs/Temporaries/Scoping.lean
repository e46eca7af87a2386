import FlatTemplate.Proofs.Temporaries.Using
import FlatTemplate.Shape

namespace FlatTemplate

mutual

theorem Expr.mentions_of_variables {e : Expr Handle} {x : String} (h : x ∈ e.variables) :
    ∃ entry ∈ e.entries, entry.mentions x := by
  match e with
  | .atom id (.var (first :: path)) =>
    obtain rfl : x = first := by simpa [Expr.variables] using h
    exact ⟨_, List.mem_singleton_self _, by simp [Entry.mentions]⟩
  | .paren id inner =>
    obtain ⟨entry, hmem, hmentions⟩ := inner.mentions_of_variables h
    exact ⟨entry, List.mem_cons_of_mem _ hmem, hmentions⟩
  | .atom _ (.var []) | .atom _ (.field _) | .atom _ .dot | .atom _ (.identifier _)
  | .atom _ (.str _) | .atom _ (.number _) | .atom _ (.bool _) => simp [Expr.variables] at h

theorem mentions_of_argVariables {es : List (Expr Handle)} {x : String}
    (h : x ∈ argVariables es) : ∃ entry ∈ argEntries es, entry.mentions x := by
  match es with
  | e :: es =>
    rcases List.mem_append.mp h with h | h
    · obtain ⟨entry, hmem, hmentions⟩ := e.mentions_of_variables h
      exact ⟨entry, List.mem_append_left _ hmem, hmentions⟩
    · obtain ⟨entry, hmem, hmentions⟩ := mentions_of_argVariables h
      exact ⟨entry, List.mem_append_right _ hmem, hmentions⟩

theorem Command.mentions_of_variables {c : Command Handle} {x : String} (h : x ∈ c.variables) :
    ∃ entry ∈ c.entries, entry.mentions x := by
  obtain ⟨id, head, args⟩ := c
  rcases List.mem_append.mp h with h | h
  · obtain ⟨entry, hmem, hmentions⟩ := head.mentions_of_variables h
    exact ⟨entry, List.mem_cons_of_mem _ (List.mem_append_left _ hmem), hmentions⟩
  · obtain ⟨entry, hmem, hmentions⟩ := mentions_of_argVariables h
    exact ⟨entry, List.mem_cons_of_mem _ (List.mem_append_right _ hmem), hmentions⟩

theorem mentions_of_commandVariables {cs : List (Command Handle)} {x : String}
    (h : x ∈ commandVariables cs) : ∃ entry ∈ commandEntries cs, entry.mentions x := by
  match cs with
  | c :: cs =>
    rcases List.mem_append.mp h with h | h
    · obtain ⟨entry, hmem, hmentions⟩ := c.mentions_of_variables h
      exact ⟨entry, List.mem_append_left _ hmem, hmentions⟩
    · obtain ⟨entry, hmem, hmentions⟩ := mentions_of_commandVariables h
      exact ⟨entry, List.mem_append_right _ hmem, hmentions⟩

theorem Pipe.mentions_of_variables {p : Pipe Handle} {x : String} (h : x ∈ p.variables) :
    p.Mentions x := by
  obtain ⟨id, decls, commands⟩ := p
  obtain ⟨entry, hmem, hmentions⟩ := mentions_of_commandVariables h
  exact ⟨entry, List.mem_cons_of_mem _ hmem, hmentions⟩

end

def mentionsIn (x : String) (es : List Entry) : Nat := es.countP (Entry.mentions x)

theorem mentionsIn_append (x : String) (es es' : List Entry) :
    mentionsIn x (es ++ es') = mentionsIn x es + mentionsIn x es' := List.countP_append

theorem Pipe.Mentions.pos {x : String} {p : Pipe Handle} (h : p.Mentions x) {es : List Entry}
    (hes : p.entries ⊆ es) : 0 < mentionsIn x es := by
  obtain ⟨e, he, hmentions⟩ := h
  exact List.countP_pos_iff.mpr ⟨e, hes he, hmentions⟩

section Scope

variable {x : String} {n : Nat}

theorem mentionsIn_stmt (id : StmtId) (node : StmtNode) (es : List Entry) :
    mentionsIn x (.stmt id node :: es) = mentionsIn x es :=
  List.countP_cons_of_neg Bool.false_ne_true

theorem Introduces.pos {b : Block Handle} (h : Introduces x n b) :
    0 < mentionsIn x (blockEntries b) := by
  induction h with
  | here hdecls hbetween hhost hmentions =>
    refine hmentions.pos fun e he => mem_blockEntries.mpr ⟨_, ?_, Stmt.entries_governing hhost he⟩
    simp
  | behind s _ ih =>
    rw [blockEntries, mentionsIn_append]
    omega
  | inBody _ ih =>
    rw [blockEntries, Stmt.entries, mentionsIn_append, mentionsIn_stmt, mentionsIn_append,
      mentionsIn_append]
    omega
  | inElse _ ih =>
    rw [blockEntries, Stmt.entries, mentionsIn_append, mentionsIn_stmt, mentionsIn_append,
      mentionsIn_append]
    omega

theorem mentionsIn_cons (s : Stmt Handle) (b : Block Handle) :
    mentionsIn x (blockEntries (s :: b)) =
      mentionsIn x s.entries + mentionsIn x (blockEntries b) := by
  rw [blockEntries, mentionsIn_append]

theorem mentionsIn_branch (id : StmtId) (kind : BranchKind) (p : Pipe Handle)
    (body elseBody : Block Handle) :
    mentionsIn x (Stmt.branch id kind p body elseBody).entries = mentionsIn x p.entries +
      mentionsIn x (blockEntries body) + mentionsIn x (blockEntries elseBody) := by
  rw [Stmt.entries, mentionsIn_stmt, mentionsIn_append, mentionsIn_append]

theorem Introduces.of_cons {s : Stmt Handle} {b : Block Handle} (h : Introduces x n (s :: b)) :
    (x ∈ s.declared ∧ 0 < mentionsIn x (blockEntries b)) ∨ Introduces x n b ∨
      ∃ id kind p body elseBody, s = .branch id kind p body elseBody ∧
        (Introduces x n body ∨ Introduces x n elseBody) := by
  cases h with
  | here hdecls hbetween hhost hmentions =>
    refine .inl ⟨by simp [Stmt.declared, hdecls], ?_⟩
    refine hmentions.pos fun e he => mem_blockEntries.mpr ⟨_, ?_, Stmt.entries_governing hhost he⟩
    simp
  | behind _ h => exact .inr (.inl h)
  | inBody h => exact .inr (.inr ⟨_, _, _, _, _, rfl, .inl h⟩)
  | inElse h => exact .inr (.inr ⟨_, _, _, _, _, rfl, .inr h⟩)

def Scoped (stem : String) (n : Nat) (visible : List String) (b : Block Handle) : Prop :=
  ∀ x, isTemporary stem x → 0 < mentionsIn x (blockEntries b) →
    x ∈ visible ∨ Introduces x n b ∧ mentionsIn x (blockEntries b) = 1

namespace Scoped

variable {stem : String} {visible : List String} {s : Stmt Handle} {b : Block Handle}

theorem own (h : Scoped stem n visible (s :: b)) {p : Pipe Handle} (hp : s.governing? = some p)
    (htemporary : isTemporary stem x) (hx : p.Mentions x) : x ∈ visible := by
  have hs := hx.pos (Stmt.entries_governing hp)
  have hcount := mentionsIn_cons (x := x) s b
  refine (h x htemporary (by omega)).resolve_right fun ⟨hintroduces, hone⟩ => ?_
  rcases hintroduces.of_cons with ⟨-, hpos⟩ | hb | ⟨id, kind, q, body, elseBody, rfl, hin⟩
  · omega
  · have hpos := hb.pos
    omega
  · obtain rfl := Option.some.inj hp
    have hown := hx.pos (List.Subset.refl _)
    have hbranch := mentionsIn_branch (x := x) id kind q body elseBody
    have hpos := hin.imp Introduces.pos Introduces.pos
    omega

theorem tail (h : Scoped stem n visible (s :: b)) : Scoped stem n (s.declared ++ visible) b := by
  intro x htemporary hx
  have hcount := mentionsIn_cons (x := x) s b
  rcases h x htemporary (by omega) with hvisible | ⟨hintroduces, hone⟩
  · exact .inl (List.mem_append_right _ hvisible)
  rcases hintroduces.of_cons with ⟨hdeclared, -⟩ | hb | ⟨id, kind, q, body, elseBody, rfl, hin⟩
  · exact .inl (List.mem_append_left _ hdeclared)
  · exact .inr ⟨hb, by omega⟩
  · have hbranch := mentionsIn_branch (x := x) id kind q body elseBody
    have hpos := hin.imp Introduces.pos Introduces.pos
    omega

section Branch

variable {id : StmtId} {kind : BranchKind} {p : Pipe Handle} {body elseBody : Block Handle}

theorem branch (h : Scoped stem n visible (.branch id kind p body elseBody :: b))
    (htemporary : isTemporary stem x)
    (hx : 0 < mentionsIn x (blockEntries body) + mentionsIn x (blockEntries elseBody)) :
    x ∈ visible ∨ (Introduces x n body ∨ Introduces x n elseBody) ∧
      mentionsIn x (blockEntries body) + mentionsIn x (blockEntries elseBody) = 1 := by
  have hcount := mentionsIn_cons (x := x) (.branch id kind p body elseBody) b
  have hbranch := mentionsIn_branch (x := x) id kind p body elseBody
  refine (h x htemporary (by omega)).imp_right fun ⟨hintroduces, hone⟩ => ⟨?_, by omega⟩
  rcases hintroduces.of_cons with ⟨-, hpos⟩ | hb | ⟨_, _, _, _, _, heq, hin⟩
  · omega
  · have hpos := hb.pos
    omega
  · obtain ⟨-, -, -, rfl, rfl⟩ := Stmt.branch.inj heq
    exact hin

theorem ofBody (h : Scoped stem n visible (.branch id kind p body elseBody :: b)) :
    Scoped stem n (p.decls ++ visible) body := by
  intro x htemporary hx
  rcases h.branch htemporary (by omega) with hvisible | ⟨hbody | helse, hone⟩
  · exact .inl (List.mem_append_right _ hvisible)
  · exact .inr ⟨hbody, by omega⟩
  · have hpos := helse.pos
    omega

theorem ofElse (h : Scoped stem n visible (.branch id kind p body elseBody :: b)) :
    Scoped stem n (p.decls ++ visible) elseBody := by
  intro x htemporary hx
  rcases h.branch htemporary (by omega) with hvisible | ⟨hbody | helse, hone⟩
  · exact .inl (List.mem_append_right _ hvisible)
  · have hpos := hbody.pos
    omega
  · exact .inr ⟨helse, by omega⟩

end Branch

theorem scopeViolations_governing (h : Scoped stem n visible (s :: b)) {p : Pipe Handle}
    (hp : s.governing? = some p) (id : StmtId) : p.scopeViolations stem visible id = [] := by
  rw [Pipe.scopeViolations, List.map_eq_nil_iff, List.filter_eq_nil_iff]
  intro x hx hviolates
  rw [Bool.and_eq_true, Bool.not_eq_true'] at hviolates
  have hvisible := h.own hp hviolates.1 (Pipe.mentions_of_variables hx)
  exact absurd hviolates.2 (by simpa using hvisible)

end Scoped

mutual

theorem Stmt.scopeViolations_eq_nil {stem : String} {visible : List String} (s : Stmt Handle)
    {b : Block Handle} (h : Scoped stem n visible (s :: b)) :
    s.scopeViolations stem visible = [] := by
  match s with
  | .text .. | .invoke _ _ none => rfl
  | .action id p | .invoke id _ (some p) => exact h.scopeViolations_governing rfl id
  | .branch id _ p body elseBody =>
    rw [Stmt.scopeViolations, h.scopeViolations_governing rfl id,
      scopeViolations_eq_nil body h.ofBody, scopeViolations_eq_nil elseBody h.ofElse]
    rfl

theorem scopeViolations_eq_nil {stem : String} {visible : List String} (b : Block Handle)
    (h : Scoped stem n visible b) : scopeViolations stem visible b = [] := by
  match b with
  | [] => rfl
  | s :: b =>
    rw [scopeViolations, s.scopeViolations_eq_nil h, scopeViolations_eq_nil b h.tail]
    rfl

end

end Scope

end FlatTemplate

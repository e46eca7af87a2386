import FlatTemplate.Proofs.Temporaries.Conserving

namespace FlatTemplate

def Rule.inserts : Rule → Bool
  | .foldPipedValue | .redundantParens => false
  | _ => true

def Edit.inserts : Edit → Bool
  | .fold _ | .unwrap .. => false
  | _ => true

theorem count_add_countP_inserts (rules : List Rule) :
    rules.countP Rule.inserts + rules.count .foldPipedValue + rules.count .redundantParens =
      rules.length := by
  induction rules with
  | nil => rfl
  | cons rule rules ih =>
    rw [List.countP_cons, List.count_cons, List.count_cons, List.length_cons, ← ih]
    cases rule <;> simp [Rule.inserts] <;> omega

section Changes

variable {f : Fresh}

theorem Pipe.inserts_bindOperand {id : PipeId} {decls : List String}
    {pre post : List (Command Handle)} {c : Command Handle} {r : Rewriting (Pipe Handle)}
    (h : Pipe.bindOperand f id decls pre c post = some r) :
    r.found.rule.inserts ∧ r.found.edit.inserts := by
  have hite (p : Prop) [Decidable p] {rule rule' : Rule} (hrule : rule.inserts)
      (hrule' : rule'.inserts) : (if p then rule else rule').inserts := by
    split <;> assumption
  rw [Pipe.bindOperand] at h
  obtain ⟨⟨before, e, after⟩, -, h⟩ := Option.map_eq_some_iff.mp h
  cases pre with
  | nil =>
    obtain rfl := h
    exact ⟨hite _ rfl rfl, rfl⟩
  | cons l more =>
    dsimp only at h
    split at h
    · obtain rfl := h
      exact ⟨hite _ rfl rfl, rfl⟩
    · split at h
      · obtain rfl := h
        exact ⟨rfl, rfl⟩
      · split at h
        · obtain rfl := h
          exact ⟨rfl, rfl⟩
        · obtain rfl := h
          exact ⟨hite _ rfl rfl, rfl⟩

theorem Pattern.inserts_rewrite? {pattern : Pattern} {p : Pipe Handle}
    {r : Rewriting (Pipe Handle)} (h : pattern.rewrite? f p = some r) :
    r.found.rule.inserts = r.found.edit.inserts := by
  revert h
  fun_cases Pattern.rewrite? f pattern p
  case case3 id decls commands =>
    intro h
    obtain ⟨⟨pre, c, post⟩, -, hbind⟩ := Option.bind_eq_some_iff.mp h
    obtain ⟨hrule, hedit⟩ := Pipe.inserts_bindOperand hbind
    rw [hrule, hedit]
  -- All other patterns report one rule each.
  all_goals
    rintro ⟨⟩
    try rfl

theorem Pipe.Change.length_references {pattern : Pattern} {p : Pipe Handle}
    {r : Rewriting (Pipe Handle)} (h : Pipe.Change f pattern p r) :
    (r.references f).length = r.found.edit.inserts.toNat := by
  have hbound {e : Expr Handle} : (e.bound f).decls.head?.toList.length = 1 := by
    obtain ⟨name, names, -, hdecls⟩ := e.exists_stub_eq f
    rw [hdecls]
    rfl
  rw [Rewriting.references, List.length_map]
  cases h with
  | unwrap | fold | leading | split => rfl
  | head | arg => exact hbound

theorem Pipe.Rewrites.length_references {role : Role} {p : Pipe Handle}
    {r : Rewriting (Pipe Handle)} (h : Pipe.Rewrites f role p r) :
    (r.references f).length = r.found.rule.inserts.toNat := by
  induction h with
  | here h =>
    obtain ⟨pattern, -, hpattern⟩ := List.exists_of_findSome?_eq_some h
    rw [Pattern.inserts_rewrite? hpattern]
    exact (Pattern.rewrite?_change hpattern).length_references
  | head _ _ _ ih | arg _ _ _ _ _ ih => exact ih

theorem Pipe.Rewrites.length_inserted {role : Role} {p : Pipe Handle}
    {r : Rewriting (Pipe Handle)} (h : Pipe.Rewrites f role p r) :
    r.ahead.toList.length + (if r.found.edit = .splitPrint then 1 else 0) =
      (r.references f).length := by
  rw [Rewriting.references, List.length_map, Rewriting.name?]
  split
  · next hsplit =>
    rw [(h.of_split hsplit).2.1]
    rfl
  · cases ha : r.ahead with
    | none => rfl
    | some a =>
      obtain ⟨name, names, hdecls⟩ := List.exists_cons_of_ne_nil (h.ahead_declares ha)
      rw [Option.bind_some, hdecls]
      rfl

end Changes

namespace BlockRewriting.Exchanges

variable {f : Fresh} {b : Block Handle} {r : BlockRewriting} {s : Stmt Handle} {p : Pipe Handle}
  {q : Rewriting (Pipe Handle)} {front inside behind : List (Stmt Handle)}
  (h : r.Exchanges f b s p q front inside behind)
include h

theorem length_atomsIn : (atomsIn (blockEntries r.block)).length =
    (atomsIn (blockEntries b)).length + r.plan.rule.inserts.toNat := by
  rw [h.perm_atomsIn.length_eq, List.length_append, h.rewrites.length_references, h.rule,
    Nat.add_comm]

theorem length_stmts : (blockStmts r.block).length =
    (blockStmts b).length + r.plan.rule.inserts.toNat := by
  have hinserted := h.rewrites.length_inserted
  have hbefore := congrArg List.length h.before
  have hafter := congrArg List.length h.after
  have hprint : (if q.found.edit = .splitPrint then [f.print] else []).length =
      if q.found.edit = .splitPrint then 1 else 0 := by
    split <;> rfl
  have hahead : (q.ahead.map (Stmt.action f.stmt)).toList.length = q.ahead.toList.length := by
    cases q.ahead <;> rfl
  rw [h.rewrites.length_references, h.rule] at hinserted
  simp only [blockHeads, List.length_map, List.length_append, List.length_cons, hprint, hahead]
    at hbefore hafter
  omega

end BlockRewriting.Exchanges

theorem declsIn_rename (g : String → String) (es : List Entry) :
    declsIn (es.map (Entry.rename g)) = (declsIn es).map g := by
  rw [declsIn, declsIn, List.flatMap_map, List.map_flatMap]
  refine List.flatMap_congr fun e _ => ?_
  cases e with
  | stmt | pipe | command => rfl
  | expr id node => cases node <;> rfl

namespace Draft

variable {stem : String} {d₀ d d' : Draft} {r : BlockRewriting} {rules : List Rule}

theorem Trace.grows (h : Trace stem rules d d') :
    (blockStmts d'.block).length = (blockStmts d.block).length + rules.countP Rule.inserts ∧
      (atomsIn (blockEntries d'.block)).length =
        (atomsIn (blockEntries d.block)).length + rules.countP Rule.inserts := by
  induction h with
  | refl => exact ⟨rfl, rfl⟩
  | step hnext _ ih =>
    obtain ⟨s, p, q, front, inside, behind, hex⟩ := exists_exchanges hnext.rewrite
    have hstmts := hex.length_stmts
    have hatoms := hex.length_atomsIn
    rw [← hnext.block, Bool.toNat, Bool.cond_eq_ite] at hstmts hatoms
    rw [List.countP_cons]
    omega

theorem Trace.countP_inserts (h : Trace stem rules d₀ d) {added : List (ExprId × String)}
    {turned : List Declaration} (hd : d₀.Conserves stem d added turned) :
    rules.countP Rule.inserts = added.length := by
  have hatoms := hd.atoms.length_eq
  rw [h.grows.2, List.length_append, List.length_map, Nat.add_comm] at hatoms
  exact Nat.add_right_cancel hatoms

theorem Run.perm_declsIn {n : Nat} (h : Run stem n d₀ d) (htaken : d₀.taken = 0) :
    (declsIn (blockEntries d.block)).Perm
      ((List.range d.taken).map (temporary stem) ++ declsIn (blockEntries d₀.block)) := by
  refine h.preserves (P := fun d => (declsIn (blockEntries d.block)).Perm
    ((List.range d.taken).map (temporary stem) ++ declsIn (blockEntries d₀.block)))
    (fun d d' r hnext hd => ?_) (by rw [htaken]; exact .refl _)
  obtain ⟨-, -, -, -, -, -, -, hstep⟩ :=
    blockRewrite?_moves hnext.rewrite (P := fun _ => True) fun _ _ _ _ => trivial
  rw [hnext.block, hnext.taken]
  refine hstep.trans ?_
  cases r.taken with
  | false => exact hd
  | true =>
    rw [if_pos rfl, List.range_succ, List.map_append, List.append_assoc]
    exact (hd.cons _).trans List.perm_middle.symm

end Draft

end FlatTemplate

import FlatTemplate.Proofs.Template.Contexts

namespace FlatTemplate

/-- All pipelines that govern statements of the block, those in bodies included. -/
def Governed (P : Pipe Handle → Prop) (b : Block Handle) : Prop :=
  ∀ s ∈ blockStmts b, ∀ p ∈ s.governing?, P p

instance (P : Pipe Handle → Prop) [DecidablePred P] (b : Block Handle) : Decidable (Governed P b) :=
  inferInstanceAs (Decidable (∀ s ∈ blockStmts b, ∀ p ∈ s.governing?, P p))

section Governed

variable {P Q : Pipe Handle → Prop} {b b' : Block Handle}

theorem Governed.imp (h : Governed P b) (hPQ : ∀ p, P p → Q p) : Governed Q b :=
  fun s hs p hp => hPQ p (h s hs p hp)

@[simp] theorem governed_nil : Governed P [] := nofun

theorem blockStmts_nil : blockStmts ([] : Block Handle) = [] := rfl

theorem blockStmts_cons (s : Stmt Handle) (b : Block Handle) :
    blockStmts (s :: b) = s.stmts ++ blockStmts b := rfl

theorem governed_singleton {s : Stmt Handle} :
    Governed P [s] ↔ ∀ x ∈ s.stmts, ∀ p ∈ x.governing?, P p := by
  rw [Governed, blockStmts_cons, blockStmts_nil, List.append_nil]

theorem governed_cons {s : Stmt Handle} :
    Governed P (s :: b) ↔ Governed P [s] ∧ Governed P b := by
  rw [governed_singleton, Governed, blockStmts_cons, List.forall_mem_append]
  exact Iff.rfl

@[simp] theorem blockStmts_append (as bs : Block Handle) :
    blockStmts (as ++ bs) = blockStmts as ++ blockStmts bs := by
  induction as with
  | nil => rfl
  | cons s as ih => rw [List.cons_append, blockStmts_cons, blockStmts_cons, ih, List.append_assoc]

theorem governed_append : Governed P (b ++ b') ↔ Governed P b ∧ Governed P b' := by
  simp only [Governed, blockStmts_append, List.forall_mem_append]

theorem Stmt.forall_governing {s : Stmt Handle} {p : Pipe Handle} (hp : s.governing? = some p) :
    (∀ q ∈ s.governing?, P q) ↔ P p := by
  rw [hp]
  exact ⟨fun h => h p rfl, fun h q hq => Option.some.inj hq ▸ h⟩

theorem Stmt.stmts_branch {id : StmtId} {kind : BranchKind} {p : Pipe Handle}
    (body elseBody : Block Handle) : (Stmt.branch id kind p body elseBody).stmts =
      .branch id kind p body elseBody :: (blockStmts body ++ blockStmts elseBody) := rfl

theorem governed_branch {id : StmtId} {kind : BranchKind} {p : Pipe Handle} {body : Block Handle} :
    Governed P [.branch id kind p body b] ↔ P p ∧ Governed P body ∧ Governed P b := by
  rw [governed_singleton, Stmt.stmts_branch, List.forall_mem_cons, List.forall_mem_append]
  exact and_congr_left' (Stmt.forall_governing rfl)

theorem governed_action {id : StmtId} {p : Pipe Handle} : Governed P [.action id p] ↔ P p := by
  rw [governed_singleton]
  exact List.forall_mem_singleton.trans (Stmt.forall_governing rfl)

theorem Stmt.governed_govern {s : Stmt Handle} {p q : Pipe Handle} (hs : s.governing? = some p)
    (h : Governed P [s]) (hq : P q) : Governed P [s.govern q] := by
  match s with
  | .action id _ => exact governed_action.mpr hq
  | .branch id kind _ body elseBody => exact governed_branch.mpr ⟨hq, (governed_branch.mp h).2⟩
  | .invoke id name (some _) => simpa [Governed, blockStmts, Stmt.stmts, Stmt.governing?, govern]

theorem Stmt.governed_own {s : Stmt Handle} {p : Pipe Handle} (hs : s.governing? = some p)
    (h : Governed P [s]) : P p := by
  have hmem : s ∈ blockStmts [s] := by cases s <;> simp [blockStmts, Stmt.stmts]
  exact h s hmem p hs

mutual

theorem Stmt.governed_entries {Q : Entry → Prop} (hQ : ∀ id node, Q (.stmt id node))
    (s : Stmt Handle) : Governed (fun p => ∀ e ∈ p.entries, Q e) [s] ↔ ∀ e ∈ s.entries, Q e := by
  match s with
  | .text .. | .action .. | .invoke _ _ none | .invoke _ _ (some _) =>
    simp [Governed, blockStmts, Stmt.stmts, Stmt.governing?, Stmt.entries, hQ]
  | .branch id kind p body elseBody =>
    rw [governed_branch, governed_entries hQ body, governed_entries hQ elseBody, Stmt.entries,
      List.forall_mem_cons, List.forall_mem_append, List.forall_mem_append, and_assoc]
    exact (and_iff_right (hQ _ _)).symm

theorem governed_entries {Q : Entry → Prop} (hQ : ∀ id node, Q (.stmt id node))
    (b : Block Handle) :
    Governed (fun p => ∀ e ∈ p.entries, Q e) b ↔ ∀ e ∈ blockEntries b, Q e := by
  cases b with
  | nil => simp [blockEntries]
  | cons s b =>
    rw [governed_cons, s.governed_entries hQ, governed_entries hQ b, blockEntries,
      List.forall_mem_append]

end

theorem Governed.of_plug {C : BlockContext} (h : Governed P (C.plug b)) : Governed P b := by
  induction C with
  | hole => exact h
  | inBody pre id kind pipe inner elseBody post ih =>
    rw [BlockContext.plug, governed_append, governed_cons, governed_branch] at h
    exact ih h.2.1.2.1
  | inElse pre id kind pipe body inner post ih =>
    rw [BlockContext.plug, governed_append, governed_cons, governed_branch] at h
    exact ih h.2.1.2.2

theorem Governed.plug {C : BlockContext} (h : Governed P (C.plug b)) (h' : Governed P b') :
    Governed P (C.plug b') := by
  induction C with
  | hole => exact h'
  | inBody pre id kind pipe inner elseBody post ih =>
    rw [BlockContext.plug, governed_append, governed_cons, governed_branch] at h ⊢
    exact ⟨h.1, ⟨h.2.1.1, ih h.2.1.2.1, h.2.1.2.2⟩, h.2.2⟩
  | inElse pre id kind pipe body inner post ih =>
    rw [BlockContext.plug, governed_append, governed_cons, governed_branch] at h ⊢
    exact ⟨h.1, ⟨h.2.1.1, h.2.1.2.1, ih h.2.1.2.2⟩, h.2.2⟩

end Governed

structure Rewriting.Keeps (P : Pipe Handle → Prop) (f : Fresh) (r : Rewriting (Pipe Handle)) :
    Prop where
  rest : P r.rest
  ahead : ∀ a ∈ r.ahead, P a
  print : r.found.edit = .splitPrint → P (.mk f.pipe [] [f.read])

theorem Stmt.governed_rewriteOwn? {P : Pipe Handle → Prop} {f : Fresh} {s : Stmt Handle}
    {own : BlockRewriting} (h : s.rewriteOwn? f = some own) (hs : Governed P [s])
    (hstep : ∀ role p r, Pipe.Rewrites f role p r → r.taken = own.taken → P p → r.Keeps P f) :
    Governed P own.block := by
  obtain ⟨p, r, hp, hrewrites, htaken, hblock⟩ := Stmt.rewriteOwn?_eq_some h
  have keeps := hstep _ p r hrewrites htaken (Stmt.governed_own hp hs)
  rw [hblock, governed_append, governed_cons]
  refine ⟨?_, Stmt.governed_govern hp hs keeps.rest, ?_⟩
  · cases ha : r.ahead with
    | none => exact governed_nil
    | some a => exact governed_action.mpr (keeps.ahead a ha)
  · split
    · next hsplit => exact governed_action.mpr (keeps.print hsplit)
    · exact governed_nil

theorem governed_blockRewrite? {P : Pipe Handle → Prop} {f : Fresh} {b : Block Handle}
    {r : BlockRewriting} (h : blockRewrite? f b = some r) (hb : Governed P b)
    (hstep : ∀ role p q, Pipe.Rewrites f role p q → q.taken = r.taken → P p → q.Keeps P f) :
    Governed P r.block := by
  obtain ⟨C, pre, s, post, own, hown, rfl, rfl⟩ := blockRewrite?_eq_some h
  have hinner := hb.of_plug
  rw [governed_append, governed_cons] at hinner
  obtain ⟨hpre, hs, hpost⟩ := hinner
  refine hb.plug ?_
  rw [governed_append, governed_append]
  exact ⟨⟨hpre, Stmt.governed_rewriteOwn? hown hs hstep⟩, hpost⟩

end FlatTemplate

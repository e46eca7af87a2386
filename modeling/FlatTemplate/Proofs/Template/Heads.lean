import FlatTemplate.Proofs.Template.Skeleton

namespace FlatTemplate

namespace Stmt

def bare : Stmt Handle → Stmt Handle
  | .branch id kind p _ _ => .branch id kind p [] []
  | s => s

variable (s : Stmt Handle)

@[simp] theorem governing?_bare : s.bare.governing? = s.governing? := by cases s <;> rfl

@[simp] theorem role_bare : s.bare.role = s.role := by cases s <;> rfl

end Stmt

def blockHeads (b : Block Handle) : List (Stmt Handle) := (blockStmts b).map Stmt.bare

section Heads

variable {b : Block Handle}

theorem blockHeads_append (as bs : Block Handle) :
    blockHeads (as ++ bs) = blockHeads as ++ blockHeads bs := by
  rw [blockHeads, blockStmts_append, List.map_append]
  rfl

theorem blockHeads_cons (s : Stmt Handle) (b : Block Handle) :
    blockHeads (s :: b) = blockHeads [s] ++ blockHeads b := blockHeads_append [s] b

theorem blockHeads_branch (id : StmtId) (kind : BranchKind) (p : Pipe Handle)
    (body elseBody : Block Handle) : blockHeads [.branch id kind p body elseBody] =
      .branch id kind p [] [] :: (blockHeads body ++ blockHeads elseBody) := by
  simp [blockHeads, blockStmts, Stmt.stmts, Stmt.bare]

theorem governed_iff_heads {P : Pipe Handle → Prop} :
    Governed P b ↔ ∀ s ∈ blockHeads b, ∀ p ∈ s.governing?, P p := by
  simp only [Governed, blockHeads, List.forall_mem_map, Stmt.governing?_bare]

theorem Stmt.heads_govern {s : Stmt Handle} {p : Pipe Handle} (hs : s.governing? = some p) :
    ∃ inside, blockHeads [s] = s.bare :: inside ∧
      ∀ q, blockHeads [s.govern q] = s.bare.govern q :: inside := by
  match s with
  | .action .. | .invoke _ _ (some _) => exact ⟨[], rfl, fun _ => rfl⟩
  | .branch id kind p body elseBody =>
    exact ⟨_, blockHeads_branch .., fun _ => blockHeads_branch ..⟩

theorem BlockContext.heads_plug (C : BlockContext) :
    ∃ front behind, ∀ b, blockHeads (C.plug b) = front ++ (blockHeads b ++ behind) := by
  induction C with
  | hole => exact ⟨[], [], fun b => (List.append_nil _).symm⟩
  | inBody pre id kind p inner elseBody post ih =>
    obtain ⟨front, behind, ih⟩ := ih
    refine ⟨blockHeads pre ++ .branch id kind p [] [] :: front,
      behind ++ (blockHeads elseBody ++ blockHeads post), fun b => ?_⟩
    simp [plug, blockHeads_append, blockHeads_cons _ post, blockHeads_branch, ih]
  | inElse pre id kind p body inner post ih =>
    obtain ⟨front, behind, ih⟩ := ih
    refine ⟨blockHeads pre ++ .branch id kind p [] [] :: (blockHeads body ++ front),
      behind ++ blockHeads post, fun b => ?_⟩
    simp [plug, blockHeads_append, blockHeads_cons _ post, blockHeads_branch, ih]

end Heads

structure BlockRewriting.Exchanges (f : Fresh) (b : Block Handle) (r : BlockRewriting)
    (s : Stmt Handle) (p : Pipe Handle) (q : Rewriting (Pipe Handle))
    (front inside behind : List (Stmt Handle)) : Prop where
  governing : s.governing? = some p
  rewrites : Pipe.Rewrites f s.role p q
  rule : q.found.rule = r.plan.rule
  taken : q.taken = r.taken
  before : blockHeads b = front ++ s :: (inside ++ behind)
  after : blockHeads r.block = front ++ ((q.ahead.map (.action f.stmt)).toList ++
    s.govern q.rest :: (inside ++ ((if q.found.edit = .splitPrint then [f.print] else []) ++ behind)))

theorem exists_exchanges {f : Fresh} {b : Block Handle} {r : BlockRewriting}
    (h : blockRewrite? f b = some r) :
    ∃ s p q front inside behind, r.Exchanges f b s p q front inside behind := by
  obtain ⟨C, pre, s, post, own, hown, rfl, rfl⟩ := blockRewrite?_eq_some h
  obtain ⟨p, q, hp, hrewrites, rfl⟩ := Stmt.rewriteOwn?_eq_around hown
  obtain ⟨front, behind, hplug⟩ := C.heads_plug
  obtain ⟨inside, hhost, hgovern⟩ := Stmt.heads_govern hp
  have hahead : blockHeads (q.ahead.map (.action f.stmt)).toList =
      (q.ahead.map (.action f.stmt)).toList := by
    cases q.ahead <;> rfl
  have hprint : blockHeads (if q.found.edit = .splitPrint then [f.print] else []) =
      if q.found.edit = .splitPrint then [f.print] else [] := by
    split <;> rfl
  refine ⟨s.bare, p, q, front ++ blockHeads pre, inside, blockHeads post ++ behind,
    by rw [Stmt.governing?_bare, hp], by rwa [Stmt.role_bare], rfl, rfl, ?_, ?_⟩
  · rw [hplug, blockHeads_append, blockHeads_cons, hhost]
    simp only [List.append_assoc, List.cons_append]
  · rw [hplug, blockHeads_append, blockHeads_append, Stmt.block_around, blockHeads_append,
      blockHeads_cons, hgovern, hahead, hprint]
    simp only [List.append_assoc, List.cons_append]

def Stmt.ownEntries (s : Stmt Handle) : List Entry := (s.governing?.map Pipe.entries).getD []

mutual

theorem Stmt.perm_entries_heads (s : Stmt Handle) :
    s.entries.Perm (s.stmts.map Stmt.entry ++ (blockHeads [s]).flatMap Stmt.ownEntries) := by
  match s with
  | .text .. | .invoke _ _ none => exact .refl _
  | .action _ p | .invoke _ _ (some p) =>
    simp [Stmt.entries, Stmt.stmts, Stmt.entry, Stmt.tag, Stmt.node, blockHeads, blockStmts,
      Stmt.bare, Stmt.ownEntries, Stmt.governing?]
  | .branch id kind p body elseBody =>
    have hbody := perm_entries_heads body
    have helse := perm_entries_heads elseBody
    rw [Stmt.entries, Stmt.stmts, blockHeads_branch, List.flatMap_cons, List.flatMap_append,
      List.map_cons, List.map_append]
    refine List.Perm.cons _ ?_
    simp only [Stmt.ownEntries, Stmt.governing?, Option.map_some, Option.getD_some,
      List.append_eq] at hbody helse ⊢
    grind

theorem perm_entries_heads (b : Block Handle) : (blockEntries b).Perm
    ((blockStmts b).map Stmt.entry ++ (blockHeads b).flatMap Stmt.ownEntries) := by
  cases b with
  | nil => exact .refl _
  | cons s b =>
    have hs := s.perm_entries_heads
    have hb := perm_entries_heads b
    rw [blockEntries, blockStmts, blockHeads_cons, List.map_append, List.flatMap_append]
    grind

end

end FlatTemplate

import FlatTemplate.Proofs.Template.Governing
import FlatTemplate.Proofs.Template.Nesting
import FlatTemplate.Proofs.Template.Runs

/-!
The statements of a template and the blocks they stand in. Rewriting puts new actions between them;
what was there stays where it is.
-/

namespace FlatTemplate

def Handle.isOld {kind : NodeKind} (n : Nat) (h : Handle kind) : Bool := h.index < n

def StmtNode.restrict (n : Nat) : StmtNode → StmtNode
  | .branch kind pipe body elseBody =>
    .branch kind pipe (body.filter (·.isOld n)) (elseBody.filter (·.isOld n))
  | node => node

namespace Stmt

def isAction : Stmt Handle → Bool
  | .action _ _ => true
  | _ => false

end Stmt

theorem filter_stmt_eq_nil {entries : List Entry} (h : ∀ e ∈ entries, e.key.1 ≠ .stmt) :
    entries.filter (fun e => e.key.1 = .stmt) = [] := by
  rw [List.filter_eq_nil_iff]
  intro e he
  simpa using h e he

mutual

theorem Stmt.filter_entries (s : Stmt Handle) :
    s.entries.filter (fun e => e.key.1 = .stmt) = s.stmts.map Stmt.entry := by
  match s with
  | .text .. | .invoke _ _ none => rfl
  | .action id p | .invoke id _ (some p) =>
    rw [Stmt.entries, List.filter_cons_of_pos (by rfl), filter_stmt_eq_nil p.kind_ne_stmt]
    rfl
  | .branch id kind p body elseBody =>
    rw [Stmt.entries, List.filter_cons_of_pos (by rfl), List.filter_append, List.filter_append,
      filter_stmt_eq_nil p.kind_ne_stmt, filter_blockEntries body, filter_blockEntries elseBody,
      List.nil_append, ← List.map_append]
    rfl

theorem filter_blockEntries (b : Block Handle) :
    (blockEntries b).filter (fun e => e.key.1 = .stmt) = (blockStmts b).map Stmt.entry := by
  cases b with
  | nil => rfl
  | cons s b =>
    rw [blockEntries, blockStmts, List.filter_append, s.filter_entries, filter_blockEntries b,
      List.map_append]

end

theorem stmt_mem_blockEntries {b : Block Handle} {id : StmtId} {node : StmtNode} :
    .stmt id node ∈ blockEntries b ↔ ∃ s ∈ blockStmts b, s.tag = id ∧ s.node = node := by
  have hfilter : .stmt id node ∈ blockEntries b ↔
      .stmt id node ∈ (blockEntries b).filter (fun e => e.key.1 = .stmt) := by
    simp [List.mem_filter, Entry.key]
  rw [hfilter, filter_blockEntries]
  simp [Stmt.entry]

def skeleton (n : Nat) (b : Block Handle) : List (StmtId × StmtNode) :=
  ((blockStmts b).filter (·.tag.isOld n)).map fun s => (s.tag, s.node.restrict n)

theorem skeleton_append (n : Nat) (as bs : Block Handle) :
    skeleton n (as ++ bs) = skeleton n as ++ skeleton n bs := by
  rw [skeleton, blockStmts_append, List.filter_append, List.map_append]
  rfl

structure SameSkeleton (n : Nat) (b b' : Block Handle) : Prop where
  tags : (b'.map Stmt.tag).filter (·.isOld n) = (b.map Stmt.tag).filter (·.isOld n)
  stmts : skeleton n b' = skeleton n b
  added : (∀ s ∈ blockStmts b, s.tag.isOld n ∨ s.isAction) →
    ∀ s ∈ blockStmts b', s.tag.isOld n ∨ s.isAction

namespace SameSkeleton

variable {n : Nat} {b b' b'' : Block Handle}

theorem refl (b : Block Handle) : SameSkeleton n b b := ⟨rfl, rfl, fun h => h⟩

theorem trans (h : SameSkeleton n b b') (h' : SameSkeleton n b' b'') : SameSkeleton n b b'' :=
  ⟨h'.tags.trans h.tags, h'.stmts.trans h.stmts, fun hb => h'.added (h.added hb)⟩

theorem append {as as' : Block Handle} (h : SameSkeleton n as as') (h' : SameSkeleton n b b') :
    SameSkeleton n (as ++ b) (as' ++ b') := by
  constructor
  · rw [List.map_append, List.map_append, List.filter_append, List.filter_append, h.tags, h'.tags]
  · rw [skeleton_append, skeleton_append, h.stmts, h'.stmts]
  · intro hall
    rw [blockStmts_append, List.forall_mem_append] at hall ⊢
    exact ⟨h.added hall.1, h'.added hall.2⟩

theorem single {s s' : Stmt Handle} (htag : s'.tag = s.tag)
    (hnode : s'.node.restrict n = s.node.restrict n) (haction : s'.isAction = s.isAction)
    (inside inside' : Block Handle) (hs : s.stmts = s :: blockStmts inside)
    (hs' : s'.stmts = s' :: blockStmts inside') (h : skeleton n inside' = skeleton n inside)
    (hadded : (∀ x ∈ blockStmts inside, x.tag.isOld n ∨ x.isAction) →
      ∀ x ∈ blockStmts inside', x.tag.isOld n ∨ x.isAction) :
    SameSkeleton n [s] [s'] := by
  constructor
  · rw [List.map_singleton, List.map_singleton, htag]
  · simp only [skeleton] at h
    simp only [skeleton, blockStmts, hs, hs', List.append_nil, List.filter_cons, htag]
    split
    · rw [List.map_cons, List.map_cons, htag, hnode, h]
    · exact h
  · simp only [blockStmts, hs, hs', List.append_nil, List.forall_mem_cons, htag, haction]
    rintro ⟨hself, hinside⟩
    exact ⟨hself, hadded hinside⟩

theorem branch {id : StmtId} {kind : BranchKind} {p p' : Pipe Handle}
    {body body' elseBody elseBody' : Block Handle} (hp : p'.tag = p.tag)
    (h : SameSkeleton n body body') (h' : SameSkeleton n elseBody elseBody') :
    SameSkeleton n [.branch id kind p body elseBody] [.branch id kind p' body' elseBody'] := by
  refine single rfl ?_ rfl (body ++ elseBody) (body' ++ elseBody') ?_ ?_ ?_ ?_
  · simp only [Stmt.node, StmtNode.restrict, hp, h.tags, h'.tags]
  · rw [Stmt.stmts, blockStmts_append]
  · rw [Stmt.stmts, blockStmts_append]
  · exact (h.append h').stmts
  · exact (h.append h').added

theorem govern {s : Stmt Handle} {p q : Pipe Handle} (hs : s.governing? = some p)
    (hq : q.tag = p.tag) : SameSkeleton n [s] [s.govern q] := by
  match s with
  | .action id _ =>
    obtain rfl := Option.some.inj hs
    refine single rfl ?_ rfl [] [] rfl rfl rfl fun h => h
    simp [Stmt.govern, Stmt.node, hq]
  | .branch id kind _ body elseBody =>
    obtain rfl := Option.some.inj hs
    exact branch hq (refl body) (refl elseBody)
  | .invoke id name (some _) =>
    obtain rfl := Option.some.inj hs
    refine single rfl ?_ rfl [] [] rfl rfl rfl fun h => h
    simp [Stmt.govern, Stmt.node, hq]

theorem action {id : StmtId} (hid : n ≤ id.index) (p : Pipe Handle) :
    SameSkeleton n [] [.action id p] := by
  have hold : id.isOld n = false := by simpa [Handle.isOld] using hid
  constructor
  · simp [hold]
  · simp [skeleton, blockStmts, Stmt.stmts, hold]
  · intro _ s hs
    obtain rfl : s = .action id p := by simpa [blockStmts, Stmt.stmts] using hs
    exact .inr rfl

theorem plug (C : BlockContext) (h : SameSkeleton n b b') :
    SameSkeleton n (C.plug b) (C.plug b') := by
  induction C with
  | hole => exact h
  | inBody pre id kind pipe inner elseBody post ih =>
    exact (refl pre).append ((branch rfl ih (refl elseBody)).append (refl post))
  | inElse pre id kind pipe body inner post ih =>
    exact (refl pre).append ((branch rfl (refl body) ih).append (refl post))

theorem rewriteOwn? {f : Fresh} (hf : n ≤ f.stmt.index) {s : Stmt Handle} {own : BlockRewriting}
    (h : s.rewriteOwn? f = some own) : SameSkeleton n [s] own.block := by
  obtain ⟨p, r, hp, hrewrites, -, hblock⟩ := Stmt.rewriteOwn?_eq_some h
  rw [hblock]
  have hahead : SameSkeleton n [] (r.ahead.map (.action f.stmt)).toList := by
    cases r.ahead with
    | none => exact refl []
    | some a => exact action hf a
  have hbehind : SameSkeleton n [] (if r.found.edit = .splitPrint then [f.print] else []) := by
    split
    · exact action hf _
    · exact refl []
  have hhost : SameSkeleton n [s] [s.govern r.rest] :=
    govern hp hrewrites.rest_tag
  exact hahead.append (hhost.append hbehind)

theorem blockRewrite? {f : Fresh} (hf : n ≤ f.stmt.index) {r : BlockRewriting}
    (h : blockRewrite? f b = some r) : SameSkeleton n b r.block := by
  obtain ⟨C, pre, s, post, own, hown, rfl, rfl⟩ := blockRewrite?_eq_some h
  apply plug
  rw [List.append_assoc]
  exact (refl pre).append ((rewriteOwn? hf hown).append (refl post))

theorem run {stem : String} {m : Nat} {d d' : Draft} (h : Draft.Run stem m d d')
    (hn : n ≤ d.bound .stmt) : SameSkeleton n d.block d'.block := by
  induction h with
  | refl => exact refl _
  | @step m d d' d'' r hnext hrun ih =>
    have hstep : SameSkeleton n d.block d'.block := by
      rw [hnext.block]
      exact blockRewrite? (f := d.fresh stem) hn hnext.rewrite
    exact hstep.trans (ih (Nat.le_trans hn (hnext.bound .stmt)))

end SameSkeleton

theorem Stmt.node_rename (g : String → String) (s : Stmt Handle) : (s.rename g).node = s.node := by
  match s with
  | .text .. | .invoke _ _ none => rfl
  | .action .. | .invoke _ _ (some _) => simp [Stmt.rename, Stmt.node, Pipe.tag_rename]
  | .branch .. => simp [Stmt.rename, Stmt.node, Pipe.tag_rename, map_tag_blockRename]

theorem Stmt.isAction_rename (g : String → String) (s : Stmt Handle) :
    (s.rename g).isAction = s.isAction := by
  match s with
  | .text .. | .action .. | .branch .. | .invoke _ _ none | .invoke _ _ (some _) => rfl

theorem sameSkeleton_rename (n : Nat) (g : String → String) (b : Block Handle) :
    SameSkeleton n b (blockRename g b) := by
  constructor
  · rw [map_tag_blockRename]
  · simp only [skeleton, blockStmts_rename, List.filter_map, List.map_map, Function.comp_def,
      Stmt.tag_rename, Stmt.node_rename]
  · intro h s hs
    rw [blockStmts_rename] at hs
    obtain ⟨x, hx, rfl⟩ := List.mem_map.mp hs
    rw [x.tag_rename, x.isAction_rename]
    exact h x hx

end FlatTemplate

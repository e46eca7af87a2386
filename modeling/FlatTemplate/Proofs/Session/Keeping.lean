import FlatTemplate.Proofs.Session.Safety
import FlatTemplate.Proofs.Template.Skeleton
import FlatTemplate.Proofs.Tree.Standing

namespace FlatTemplate

theorem StmtNode.shell_restrict (n : Nat) (node : StmtNode) :
    (node.restrict n).shell = node.shell := by
  cases node <;> rfl

namespace Tree

variable {t t' : Tree} {b : Block Handle}

structure Extends (t t' : Tree) : Prop where
  root : t'.root.filter (·.isOld t.stmts.size) = t.root
  kept : ∀ id node, t.Reachable (.stmt id node) ↔ id.isOld t.stmts.size ∧
    ∃ node', t'.Reachable (.stmt id node') ∧ node'.restrict t.stmts.size = node
  added : ∀ id node, t'.Reachable (.stmt id node) → id.isOld t.stmts.size ∨ ∃ p, node = .action p

theorem Holds.reachable_stmt_iff (h : t.Holds b) {id : StmtId} {node : StmtNode} :
    t.Reachable (.stmt id node) ↔ ∃ s ∈ blockStmts b, s.tag = id ∧ s.node = node := by
  rw [h.reachable_iff, stmt_mem_blockEntries]

theorem Holds.isOld (h : t.Holds b) {id : StmtId} (hid : t.Reaches id.key) :
    id.isOld t.stmts.size = true := by
  obtain ⟨e, he, hkey⟩ := List.mem_map.mp (h.mem_keys hid)
  have hlt := (h.has e he).index_lt
  rw [hkey] at hlt
  exact decide_eq_true hlt

theorem Holds.restrict_eq (h : t.Holds b) {id : StmtId} {node : StmtNode}
    (hnode : t.Reachable (.stmt id node)) : node.restrict t.stmts.size = node := by
  cases node with
  | branch kind pipe body elseBody =>
    have hold (x : StmtId) (hx : x ∈ body ∨ x ∈ elseBody) : x.isOld t.stmts.size = true := by
      apply h.isOld
      apply hnode.child
      apply List.mem_cons_of_mem
      rw [List.mem_append]
      exact hx.imp List.mem_map_of_mem List.mem_map_of_mem
    rw [StmtNode.restrict, List.filter_eq_self.mpr fun x hx => hold x (.inl hx),
      List.filter_eq_self.mpr fun x hx => hold x (.inr hx)]
  | text | action | invoke => rfl

theorem mem_skeleton {n : Nat} {id : StmtId} {node : StmtNode} :
    (id, node) ∈ skeleton n b ↔
      id.isOld n ∧ ∃ s ∈ blockStmts b, s.tag = id ∧ s.node.restrict n = node := by
  simp only [skeleton, List.mem_map, List.mem_filter, Prod.mk.injEq]
  constructor
  · rintro ⟨s, ⟨hs, hold⟩, rfl, rfl⟩
    exact ⟨hold, s, hs, rfl, rfl⟩
  · rintro ⟨hold, s, hs, rfl, rfl⟩
    exact ⟨s, ⟨hs, hold⟩, rfl, rfl⟩

theorem Holds.extends {b' : Block Handle} (h : t.Holds b) (h' : t'.Holds b')
    (hsame : SameSkeleton t.stmts.size b b') : t.Extends t' := by
  have hold (s : Stmt Handle) (hs : s ∈ blockStmts b) : s.tag.isOld t.stmts.size = true :=
    h.isOld (h.reachable_stmt_iff.mpr ⟨s, hs, rfl, rfl⟩).reaches
  constructor
  · rw [h.root, h'.root, hsame.tags]
    apply List.filter_eq_self.mpr
    intro id hid
    apply h.isOld
    exact ⟨0, .root (List.mem_map_of_mem (h.root ▸ hid))⟩
  · intro id node
    have hmem : t.Reachable (.stmt id node) ↔ (id, node) ∈ skeleton t.stmts.size b := by
      rw [mem_skeleton]
      constructor
      · intro hnode
        obtain ⟨s, hs, rfl, rfl⟩ := h.reachable_stmt_iff.mp hnode
        exact ⟨hold s hs, s, hs, rfl, h.restrict_eq hnode⟩
      · rintro ⟨-, s, hs, rfl, rfl⟩
        have hnode := h.reachable_stmt_iff.mpr ⟨s, hs, rfl, rfl⟩
        rw [h.restrict_eq hnode]
        exact hnode
    rw [hmem, ← hsame.stmts, mem_skeleton]
    constructor
    · rintro ⟨hid, s, hs, rfl, hnode⟩
      exact ⟨hid, s.node, h'.reachable_stmt_iff.mpr ⟨s, hs, rfl, rfl⟩, hnode⟩
    · rintro ⟨hid, node', hnode', rfl⟩
      obtain ⟨s, hs, rfl, rfl⟩ := h'.reachable_stmt_iff.mp hnode'
      exact ⟨hid, s, hs, rfl, rfl⟩
  · intro id node hnode
    obtain ⟨s, hs, rfl, rfl⟩ := h'.reachable_stmt_iff.mp hnode
    apply (hsame.added (fun s hs => .inl (hold s hs)) s hs).imp_right
    intro haction
    cases s with
    | action id p => exact ⟨p.tag, rfl⟩
    | text | branch | invoke => cases haction

/-- What `t'` keeps of the statements of `t`, and what it adds to them. Old statements are those
that `t` has. -/
structure KeepsStatements (t t' : Tree) : Prop where
  blocks : ∀ ref ids, t.BlockAt ref ids ↔
    ∃ ids', t'.BlockAt ref ids' ∧ ids'.filter (·.isOld t.stmts.size) = ids
  nodes : ∀ id node, t.Reachable (.stmt id node) →
    ∃ node', t'.Reachable (.stmt id node') ∧ node'.shell = node.shell
  added : ∀ id slot, t'.Stands id slot → id.isOld t.stmts.size = false →
    (∃ pipe, t'.stmts.get id = .ok (.action pipe)) ∧ ∀ slot', t'.Stands id slot' → slot' = slot
  unmoved : ∀ id slot slot', t.Stands id slot → t'.Stands id slot' → slot'.block = slot.block

theorem restrict_eq_branch {n : Nat} {node : StmtNode} {kind : BranchKind} {pipe : PipeId}
    {body elseBody : List StmtId} (h : node.restrict n = .branch kind pipe body elseBody) :
    ∃ body' elseBody', node = .branch kind pipe body' elseBody' ∧
      body'.filter (·.isOld n) = body ∧ elseBody'.filter (·.isOld n) = elseBody := by
  cases node with
  | branch kind' pipe' body' elseBody' =>
    obtain ⟨rfl, rfl, hbody, helse⟩ := StmtNode.branch.inj h
    exact ⟨body', elseBody', rfl, hbody, helse⟩
  | text | action | invoke => cases h

namespace Extends

variable (h : t.Extends t')
include h

theorem branch {owner : StmtId} {kind : BranchKind} {pipe : PipeId} {body elseBody : List StmtId}
    (hnode : t'.Reachable (.stmt owner (.branch kind pipe body elseBody))) :
    t.Reachable (.stmt owner (.branch kind pipe (body.filter (·.isOld t.stmts.size))
      (elseBody.filter (·.isOld t.stmts.size)))) := by
  rw [h.kept]
  rcases h.added _ _ hnode with hold | ⟨p, hp⟩
  · exact ⟨hold, _, hnode, rfl⟩
  · cases hp

theorem blockAt_iff (ref : BlockRef) (ids : List StmtId) : t.BlockAt ref ids ↔
    ∃ ids', t'.BlockAt ref ids' ∧ ids'.filter (·.isOld t.stmts.size) = ids := by
  constructor
  · intro hids
    obtain ⟨rfl, rfl⟩ | ⟨owner, kind, pipe, body, elseBody, hnode, hids⟩ := hids.cases
    · exact ⟨t'.root, blockAt_root.mpr rfl, h.root⟩
    · obtain ⟨-, node', hnode', hrestrict⟩ := (h.kept _ _).mp hnode
      obtain ⟨body', elseBody', rfl, hbody, helse⟩ := restrict_eq_branch hrestrict
      rcases hids with ⟨rfl, rfl⟩ | ⟨rfl, rfl⟩
      · exact ⟨body', blockAt_body.mpr ⟨kind, pipe, elseBody', hnode'⟩, hbody⟩
      · exact ⟨elseBody', blockAt_elseBody.mpr ⟨kind, pipe, body', hnode'⟩, helse⟩
  · rintro ⟨ids', hids, rfl⟩
    obtain ⟨rfl, rfl⟩ | ⟨owner, kind, pipe, body, elseBody, hnode, hids⟩ := hids.cases
    · exact blockAt_root.mpr h.root
    · have hnode := h.branch hnode
      rcases hids with ⟨rfl, rfl⟩ | ⟨rfl, rfl⟩
      · exact blockAt_body.mpr ⟨kind, pipe, _, hnode⟩
      · exact blockAt_elseBody.mpr ⟨kind, pipe, _, hnode⟩

theorem keepsStatements (ht' : t'.OwnedOnce) : t.KeepsStatements t' := by
  constructor
  · exact h.blockAt_iff
  · intro id node hnode
    obtain ⟨-, node', hnode', rfl⟩ := (h.kept id node).mp hnode
    exact ⟨node', hnode', (node'.shell_restrict _).symm⟩
  · intro id slot hs hnew
    obtain ⟨node, hnode⟩ := ht'.reachable_of_stands hs
    obtain hold | ⟨p, rfl⟩ := h.added id node hnode
    · cases hold.symm.trans hnew
    · exact ⟨⟨p, hnode.has⟩, fun slot' hs' => ht'.stands_unique hs' hs⟩
  · rintro id slot slot' ⟨ids, hids, hid⟩ ⟨ids', hids', hid'⟩
    obtain ⟨ids₁, hids₁, rfl⟩ := (h.blockAt_iff slot.block ids).mp hids
    have hmem := (List.mem_filter.mp (List.mem_of_getElem? hid)).1
    exact ht'.block_unique hids' hids₁ (List.mem_of_getElem? hid') hmem

end Extends

/-- A session keeps the statements of a tree. It puts new actions into the blocks that there are,
and no statement comes to stand in another block, whether the session finishes or gives up. -/
theorem canonicalize_keepsStatements (ht : t.SinglyOwned) {config : Config}
    (hvalid : config.validate = .ok ()) :
    ∃ outcome, t.canonicalize config = .ok outcome ∧ t.KeepsStatements outcome.tree := by
  obtain ⟨b, hb⟩ := ht.exists_holds
  obtain ⟨outcome, n, d, d', hrun, h⟩ := hb.canonicalize hvalid
  refine ⟨outcome, hrun, ?_⟩
  have hstart : SameSkeleton t.stmts.size b d.block := by
    rw [h.block]
    exact sameSkeleton_rename _ _ b
  have hsame : SameSkeleton t.stmts.size b d'.block :=
    hstart.trans (SameSkeleton.run h.run (h.bound .stmt))
  exact (hb.extends h.holds hsame).keepsStatements h.holds.singlyOwned.toOwnedOnce

theorem canonicalize_keepsStatements_pipedSubject :
    (pipedSubject.SinglyOwned ∧ ({} : Config).validate = .ok ()) ∧
      ∃ outcome, pipedSubject.canonicalize {} = .ok outcome ∧
        pipedSubject.KeepsStatements outcome.tree ∧
        pipedSubject.root = [⟨1⟩] ∧ outcome.tree.root = [⟨3⟩, ⟨2⟩, ⟨1⟩] ∧
        outcome.tree.block (.body ⟨1⟩) = .ok [⟨0⟩] := by
  have howned := (parsed_of_parse parse_pipedSubject).singlyOwned
  obtain ⟨outcome, hrun, hkeeps⟩ := canonicalize_keepsStatements howned Config.validate_default
  have hblocks : (pipedSubject.canonicalize {}).map (fun outcome =>
      (outcome.tree.root, outcome.tree.block (.body ⟨1⟩))) = .ok ([⟨3⟩, ⟨2⟩, ⟨1⟩], .ok [⟨0⟩]) := by
    rw [Tree.canonicalize, Config.validate_default]
    cbv
  rw [hrun] at hblocks
  obtain ⟨hroot, hbody⟩ := Prod.mk.inj (Except.ok.inj hblocks)
  exact ⟨⟨howned, Config.validate_default⟩, outcome, hrun, hkeeps, by cbv, hroot, hbody⟩

end Tree

end FlatTemplate

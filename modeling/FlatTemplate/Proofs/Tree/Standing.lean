import FlatTemplate.Proofs.Tree.Ownership

namespace FlatTemplate

def BlockRef.owner? : BlockRef → Option StmtId
  | .root => none
  | .body owner | .elseBody owner => some owner

def StmtNode.shell : StmtNode → StmtNode
  | .branch kind pipe _ _ => .branch kind pipe [] []
  | node => node

namespace Tree

variable {t : Tree}

structure BlockAt (t : Tree) (ref : BlockRef) (ids : List StmtId) : Prop where
  block : t.block ref = .ok ids
  owner : ∀ owner ∈ ref.owner?, t.Reaches owner.key

def Stands (t : Tree) (id : StmtId) (slot : Slot) : Prop :=
  ∃ ids, t.BlockAt slot.block ids ∧ ids[slot.index]? = some id

theorem blockAt_root {ids : List StmtId} : t.BlockAt .root ids ↔ ids = t.root := by
  constructor
  · intro h
    exact (Except.ok.inj h.block).symm
  · rintro rfl
    exact ⟨rfl, nofun⟩

theorem blockAt_body {owner : StmtId} {ids : List StmtId} :
    t.BlockAt (.body owner) ids ↔
      ∃ kind pipe elseBody, t.Reachable (.stmt owner (.branch kind pipe ids elseBody)) := by
  constructor
  · rintro ⟨hblock, howner⟩
    obtain ⟨node, hnode, hblock⟩ := bind_eq_ok_iff.mp hblock
    split at hblock
    · next kind pipe body elseBody =>
      obtain rfl := Except.ok.inj hblock
      exact ⟨kind, pipe, elseBody, hnode, howner owner rfl⟩
    · cases hblock
  · rintro ⟨kind, pipe, elseBody, hnode, hreaches⟩
    refine ⟨?_, ?_⟩
    · have hget : t.stmts.get owner = .ok (.branch kind pipe ids elseBody) := hnode
      simp [Tree.block, hget]
    · rintro _ ⟨⟩
      exact hreaches

theorem blockAt_elseBody {owner : StmtId} {ids : List StmtId} :
    t.BlockAt (.elseBody owner) ids ↔
      ∃ kind pipe body, t.Reachable (.stmt owner (.branch kind pipe body ids)) := by
  constructor
  · rintro ⟨hblock, howner⟩
    obtain ⟨node, hnode, hblock⟩ := bind_eq_ok_iff.mp hblock
    split at hblock
    · next kind pipe body elseBody =>
      obtain rfl := Except.ok.inj hblock
      exact ⟨kind, pipe, body, hnode, howner owner rfl⟩
    · cases hblock
  · rintro ⟨kind, pipe, body, hnode, hreaches⟩
    refine ⟨?_, ?_⟩
    · have hget : t.stmts.get owner = .ok (.branch kind pipe body ids) := hnode
      simp [Tree.block, hget]
    · rintro _ ⟨⟩
      exact hreaches

theorem BlockAt.cases {ref : BlockRef} {ids : List StmtId} (h : t.BlockAt ref ids) :
    ref = .root ∧ ids = t.root ∨ ∃ owner kind pipe body elseBody,
      t.Reachable (.stmt owner (.branch kind pipe body elseBody)) ∧
        (ref = .body owner ∧ ids = body ∨ ref = .elseBody owner ∧ ids = elseBody) := by
  cases ref with
  | root => exact .inl ⟨rfl, blockAt_root.mp h⟩
  | body owner =>
    obtain ⟨kind, pipe, elseBody, hnode⟩ := blockAt_body.mp h
    exact .inr ⟨owner, kind, pipe, ids, elseBody, hnode, .inl ⟨rfl, rfl⟩⟩
  | elseBody owner =>
    obtain ⟨kind, pipe, body, hnode⟩ := blockAt_elseBody.mp h
    exact .inr ⟨owner, kind, pipe, body, ids, hnode, .inr ⟨rfl, rfl⟩⟩

theorem key_mem_children {ref : BlockRef} {owner id : StmtId} {kind : BranchKind} {pipe : PipeId}
    {body elseBody ids : List StmtId} (hid : id ∈ ids)
    (h : ref = .body owner ∧ ids = body ∨ ref = .elseBody owner ∧ ids = elseBody) :
    id.key ∈ (Entry.stmt owner (.branch kind pipe body elseBody)).children := by
  have hkey : id.key ∈ ids.map Handle.key := List.mem_map_of_mem hid
  apply List.mem_cons_of_mem
  rcases h with ⟨-, rfl⟩ | ⟨-, rfl⟩
  · exact List.mem_append_left _ hkey
  · exact List.mem_append_right _ hkey

theorem Stands.reaches {id : StmtId} {slot : Slot} (h : t.Stands id slot) : t.Reaches id.key := by
  obtain ⟨ids, hids, hid⟩ := h
  have hmem := List.mem_of_getElem? hid
  obtain ⟨-, rfl⟩ | ⟨owner, kind, pipe, body, elseBody, hnode, hblock⟩ := hids.cases
  · exact ⟨0, .root (List.mem_map_of_mem hmem)⟩
  · exact hnode.child (key_mem_children hmem hblock)

namespace OwnedOnce

variable (h : t.OwnedOnce)
include h

theorem nodup_block {ref : BlockRef} {ids : List StmtId} (hids : t.BlockAt ref ids) :
    ids.Nodup := by
  apply List.Nodup.of_map Handle.key
  obtain ⟨-, rfl⟩ | ⟨owner, kind, pipe, body, elseBody, hnode, hids⟩ := hids.cases
  · exact h.roots
  · have hchildren := (List.nodup_cons.mp (h.children _ hnode)).2
    rcases hids with ⟨-, rfl⟩ | ⟨-, rfl⟩
    · exact hchildren.of_append_left
    · exact hchildren.of_append_right

theorem block_unique {ref ref' : BlockRef} {ids ids' : List StmtId} (hids : t.BlockAt ref ids)
    (hids' : t.BlockAt ref' ids') {id : StmtId} (hid : id ∈ ids) (hid' : id ∈ ids') :
    ref = ref' := by
  have hroot {ids : List StmtId} (hid : id ∈ ids) (hids : ids = t.root) : id.key ∈ t.roots :=
    List.mem_map_of_mem (hids ▸ hid)
  obtain ⟨rfl, heq⟩ | ⟨owner, kind, pipe, body, elseBody, hnode, hblock⟩ := hids.cases
  · obtain ⟨rfl, -⟩ | ⟨_, _, _, _, _, hnode', hblock'⟩ := hids'.cases
    · rfl
    · exact absurd (hroot hid heq) (h.rootless _ hnode' _ (key_mem_children hid' hblock'))
  · have hmem : id.key ∈ (Entry.stmt owner (.branch kind pipe body elseBody)).children :=
      key_mem_children hid hblock
    obtain ⟨rfl, heq⟩ | ⟨owner', kind', pipe', body', elseBody', hnode', hblock'⟩ := hids'.cases
    · exact absurd (hroot hid' heq) (h.rootless _ hnode _ hmem)
    · have hmem' : id.key ∈ (Entry.stmt owner' (.branch kind' pipe' body' elseBody')).children :=
        key_mem_children hid' hblock'
      obtain ⟨rfl, hbranch⟩ := Entry.stmt.inj (h.owner _ _ hnode hnode' _ hmem hmem')
      obtain ⟨rfl, rfl, rfl, rfl⟩ := StmtNode.branch.inj hbranch
      have hchildren := (List.nodup_cons.mp (h.children _ hnode)).2
      have hdisjoint := List.disjoint_of_nodup_append hchildren
      rcases hblock with ⟨rfl, rfl⟩ | ⟨rfl, rfl⟩ <;> rcases hblock' with ⟨rfl, rfl⟩ | ⟨rfl, rfl⟩
      · rfl
      · exact absurd (List.mem_map_of_mem hid') (hdisjoint (List.mem_map_of_mem hid))
      · exact absurd (List.mem_map_of_mem hid) (hdisjoint (List.mem_map_of_mem hid'))
      · rfl

theorem stands_unique {id : StmtId} {slot slot' : Slot} (hs : t.Stands id slot)
    (hs' : t.Stands id slot') : slot = slot' := by
  obtain ⟨block, i⟩ := slot
  obtain ⟨block', j⟩ := slot'
  obtain ⟨ids, hids, hi⟩ := hs
  obtain ⟨ids', hids', hj⟩ := hs'
  obtain rfl : block = block' :=
    h.block_unique hids hids' (List.mem_of_getElem? hi) (List.mem_of_getElem? hj)
  obtain rfl : ids = ids' := Except.ok.inj (hids.block.symm.trans hids'.block)
  obtain ⟨hlt, -⟩ := List.getElem?_eq_some_iff.mp hi
  obtain rfl : i = j := (List.getElem?_inj hlt (h.nodup_block hids)).mp (hi.trans hj.symm)
  rfl

theorem reachable_of_stands {id : StmtId} {slot : Slot} (hs : t.Stands id slot) :
    ∃ node, t.Reachable (.stmt id node) := by
  have hreaches := hs.reaches
  obtain ⟨e, he, hkey⟩ := h.inRange id.key hreaches
  cases e with
  | stmt id' node =>
    obtain rfl : id' = id := by simpa [Entry.key, Handle.key] using hkey
    exact ⟨node, he, hreaches⟩
  | pipe | command | expr => simp [Entry.key, Handle.key] at hkey

end OwnedOnce

end Tree

end FlatTemplate

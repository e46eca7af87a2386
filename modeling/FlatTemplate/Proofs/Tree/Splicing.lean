import FlatTemplate.Proofs.Parser.Parsed
import FlatTemplate.Proofs.Tree.Locating
import FlatTemplate.Proofs.Tree.Standing

namespace FlatTemplate

namespace Tree

variable {t t' : Tree} {b : Block Handle} {anchor : StmtId}

theorem locateAmong_eq_some {within : StmtId → Except Fault (Option Slot)} {block : BlockRef}
    {i : Nat} {ids : List StmtId} {slot : Slot}
    (h : locateAmong within anchor block i ids = .ok (some slot)) :
    (∃ j, ids[j]? = some anchor ∧ slot = ⟨block, i + j⟩) ∨
      ∃ id ∈ ids, within id = .ok (some slot) := by
  induction ids generalizing i with
  | nil => cases h
  | cons id ids ih =>
    rw [locateAmong] at h
    split at h
    · next hid =>
      subst hid
      exact .inl ⟨0, rfl, (Option.some.inj (Except.ok.inj h)).symm⟩
    · obtain ⟨found, hfound, h⟩ := bind_eq_ok_iff.mp h
      cases found with
      | some found =>
        obtain rfl : found = slot := Option.some.inj (Except.ok.inj h)
        exact .inr ⟨id, List.mem_cons_self, hfound⟩
      | none =>
        rcases ih h with ⟨j, hj, rfl⟩ | ⟨id', hid', hwithin⟩
        · exact .inl ⟨j + 1, hj, by rw [Nat.add_right_comm, Nat.add_assoc]⟩
        · exact .inr ⟨id', List.mem_cons_of_mem _ hid', hwithin⟩

theorem stands_of_locateWithin {depth : Nat} {block : BlockRef} {ids : List StmtId} {slot : Slot}
    (hids : t.BlockAt block ids) (h : t.locateWithin anchor depth block = .ok (some slot)) :
    t.Stands anchor slot := by
  induction depth generalizing block ids with
  | zero => cases h
  | succ depth ih =>
    rw [locateWithin_succ hids.block] at h
    rcases locateAmong_eq_some h with ⟨j, hj, rfl⟩ | ⟨id, hid, hinside⟩
    · exact ⟨ids, hids, by simpa using hj⟩
    · obtain ⟨j, hj⟩ := List.getElem?_of_mem hid
      have hstands : t.Stands id ⟨block, j⟩ := ⟨ids, hids, hj⟩
      obtain ⟨node, hnode, hinside⟩ := bind_eq_ok_iff.mp hinside
      cases node with
      | branch kind pipe body elseBody =>
        have howner : t.Reachable (.stmt id (.branch kind pipe body elseBody)) :=
          ⟨hnode, hstands.reaches⟩
        obtain ⟨found, hbody, hinside⟩ := bind_eq_ok_iff.mp hinside
        cases found with
        | some found =>
          obtain rfl : found = slot := Option.some.inj (Except.ok.inj hinside)
          exact ih (blockAt_body.mpr ⟨kind, pipe, elseBody, howner⟩) hbody
        | none => exact ih (blockAt_elseBody.mpr ⟨kind, pipe, body, howner⟩) hinside
      | text | action | invoke => cases hinside

theorem OwnedOnce.locate (h : t.OwnedOnce) (anchor : StmtId) :
    ∃ found, t.locate anchor = .ok found ∧ ∀ slot, found = some slot ↔ t.Stands anchor slot := by
  obtain ⟨b, root, nodup, hb⟩ := h.exists_block
  have has : t.HasStmts (blockEntries b) := fun e he _ => (hb e he).has
  obtain ⟨found, hfound, hnone⟩ := exists_locateAmong anchor t.stmts.size b .root 0 has
    (countKind_stmt_le has nodup)
  have hlocate : t.locate anchor = .ok found := by
    rw [Tree.locate, locateWithin_succ (show t.block .root = .ok t.root from rfl), root]
    exact hfound
  have hsound (slot : Slot) (hslot : found = some slot) : t.Stands anchor slot :=
    stands_of_locateWithin (blockAt_root.mpr rfl) (hslot ▸ hlocate)
  refine ⟨found, hlocate, fun slot => ⟨hsound slot, fun hs => ?_⟩⟩
  cases found with
  | none =>
    have hkey := mem_keys_of_reaches root (fun e he => (hb e he).has) hs.reaches
    exact absurd hkey (hnone.mp rfl)
  | some slot' => rw [h.stands_unique hs (hsound slot' rfl)]

structure SameBut (ref : BlockRef) (t t' : Tree) : Prop where
  name : t'.name = t.name
  pipes : t'.pipes = t.pipes
  commands : t'.commands = t.commands
  exprs : t'.exprs = t.exprs
  size : t'.stmts.size = t.stmts.size
  shells : ∀ id, StmtNode.shell <$> t'.stmts.get id = StmtNode.shell <$> t.stmts.get id
  blocks : ∀ ref', ref' ≠ ref → t'.block ref' = t.block ref'

theorem sameBut_put {ref : BlockRef} {owner : StmtId} {old node : StmtNode}
    (hold : t.stmts.get owner = .ok old) (hshell : node.shell = old.shell)
    (hsibling : ∀ ref', ref' ≠ ref → owner ∈ ref'.owner? →
      (t.put (.stmt owner node)).block ref' = t.block ref') :
    SameBut ref t (t.put (.stmt owner node)) := by
  have hlt : owner.index < t.stmts.size := Arena.index_lt_of_get hold
  have hget (id : StmtId) : (t.put (.stmt owner node)).stmts.get id =
      if id = owner then .ok node else t.stmts.get id := Arena.get_put hlt.le node id
  refine ⟨rfl, rfl, rfl, rfl, ?_, fun id => ?_, fun ref' hne => ?_⟩
  · rw [put, Arena.size_put hlt.le, if_neg hlt.ne, Nat.add_zero]
  · rw [hget]
    split
    · next hid => rw [hid, hold, map_ok, map_ok, hshell]
    · rfl
  · by_cases howner : owner ∈ ref'.owner?
    · exact hsibling ref' hne howner
    · -- The block belongs to a statement that stays as it is.
      cases ref' with
      | root => rfl
      | body id | elseBody id =>
        have hid : id ≠ owner := fun h => howner (congrArg some h)
        rw [block, block, hget, if_neg hid]

theorem block_put {owner : StmtId} {old : StmtNode} (hold : t.stmts.get owner = .ok old)
    (kind : BranchKind) (pipe : PipeId) (body elseBody : List StmtId) :
    (t.put (.stmt owner (.branch kind pipe body elseBody))).block (.body owner) = .ok body ∧
      (t.put (.stmt owner (.branch kind pipe body elseBody))).block (.elseBody owner) =
        .ok elseBody := by
  have hget := Arena.get_put (Arena.index_lt_of_get hold).le
    (.branch kind pipe body elseBody) owner
  rw [if_pos rfl] at hget
  exact block_body hget

theorem modifyBlock_of_block {ref : BlockRef} {ids : List StmtId} (h : t.block ref = .ok ids)
    (f : List StmtId → List StmtId) :
    ∃ t', t.modifyBlock ref f = .ok t' ∧ t'.block ref = .ok (f ids) ∧ SameBut ref t t' := by
  cases ref with
  | root =>
    obtain rfl : t.root = ids := Except.ok.inj h
    refine ⟨_, rfl, rfl, rfl, rfl, rfl, rfl, rfl, fun _ => rfl, fun ref' hne => ?_⟩
    cases ref' with
    | root => exact absurd rfl hne
    | body | elseBody => rfl
  | body owner =>
    obtain ⟨node, hnode, h⟩ := bind_eq_ok_iff.mp h
    cases node with
    | branch kind pipe body elseBody =>
      obtain rfl : body = ids := Except.ok.inj h
      obtain ⟨hbody, helse⟩ := block_put hnode kind pipe (f body) elseBody
      refine ⟨_, ?_, hbody, sameBut_put hnode rfl fun ref' hne howner => ?_⟩
      · rw [modifyBlock, hnode, ok_bind]
        exact setStmt_eq_put hnode _
      · cases ref' with
        | root => cases howner
        | body => cases howner; exact absurd rfl hne
        | elseBody => cases howner; rw [helse, (block_body hnode).2]
    | text | action | invoke => cases h
  | elseBody owner =>
    obtain ⟨node, hnode, h⟩ := bind_eq_ok_iff.mp h
    cases node with
    | branch kind pipe body elseBody =>
      obtain rfl : elseBody = ids := Except.ok.inj h
      obtain ⟨hbody, helse⟩ := block_put hnode kind pipe body (f elseBody)
      refine ⟨_, ?_, helse, sameBut_put hnode rfl fun ref' hne howner => ?_⟩
      · rw [modifyBlock, hnode, ok_bind]
        exact setStmt_eq_put hnode _
      · cases ref' with
        | root => cases howner
        | body => cases howner; rw [hbody, (block_body hnode).1]
        | elseBody => cases howner; exact absurd rfl hne
    | text | action | invoke => cases h

/-- What comes of putting a statement next to `anchor`, in whose place `place` stands then: nothing
if the root does not lead to `anchor`, and otherwise a store with the one block changed. -/
structure Splices (t : Tree) (anchor : StmtId) (place : List StmtId)
    (result : Except Fault (Option Tree)) : Prop where
  done_iff : (∃ t', result = .ok (some t')) ↔ ∃ slot, t.Stands anchor slot
  absent : (¬∃ slot, t.Stands anchor slot) → result = .ok none
  present : ∀ ref before behind, t.BlockAt ref (before ++ anchor :: behind) →
    ∃ t', result = .ok (some t') ∧ t'.block ref = .ok (before ++ place ++ behind) ∧
      SameBut ref t t'

theorem OwnedOnce.insertAt (h : t.OwnedOnce) (anchor new : StmtId) {offset : Nat}
    {place : List StmtId} (hplace : ∀ behind : List StmtId,
      (anchor :: behind).insertIdx offset new = place ++ behind) :
    t.Splices anchor place (t.insertAt anchor new offset) := by
  obtain ⟨found, hlocate, hfound⟩ := h.locate anchor
  have habsent (hno : ¬∃ slot, t.Stands anchor slot) :
      t.insertAt anchor new offset = .ok none := by
    cases found with
    | none => rw [Tree.insertAt, hlocate, ok_bind]; rfl
    | some slot => exact absurd ⟨slot, (hfound slot).mp rfl⟩ hno
  have hpresent (ref : BlockRef) (before behind : List StmtId)
      (hblock : t.BlockAt ref (before ++ anchor :: behind)) :
      ∃ t', t.insertAt anchor new offset = .ok (some t') ∧
        t'.block ref = .ok (before ++ place ++ behind) ∧ SameBut ref t t' := by
    have hs : t.Stands anchor ⟨ref, before.length⟩ := ⟨_, hblock, by simp⟩
    obtain ⟨t', hmodify, hids, hsame⟩ := modifyBlock_of_block hblock.block
      fun ids => ids.insertIdx (before.length + offset) new
    refine ⟨t', ?_, ?_, hsame⟩
    · rw [Tree.insertAt, hlocate, ok_bind, (hfound _).mpr hs]
      simp only [hmodify, ok_bind, pure_eq_ok]
    · rw [hids, insertIdx_add, hplace, List.append_assoc]
  refine ⟨⟨?_, ?_⟩, habsent, hpresent⟩
  · rintro ⟨t', hdone⟩
    by_contra hno
    rw [habsent hno] at hdone
    cases hdone
  · rintro ⟨slot, ids, hids, hslot⟩
    obtain ⟨before, behind, rfl⟩ := List.append_of_mem (List.mem_of_getElem? hslot)
    obtain ⟨t', hdone, -⟩ := hpresent slot.block before behind hids
    exact ⟨t', hdone⟩

/-- In a store the nodes of which are owned once, a statement is found in the one place where it
stands, and another is put in front of it, or behind it, in its block. All other blocks, all other
nodes and what governs the blocks stay as they are. -/
theorem OwnedOnce.splices (h : t.OwnedOnce) (anchor new : StmtId) :
    (∃ found, t.locate anchor = .ok found ∧ ∀ slot, found = some slot ↔ t.Stands anchor slot) ∧
      t.Splices anchor [new, anchor] (t.insertBefore anchor new) ∧
      t.Splices anchor [anchor, new] (t.insertAfter anchor new) :=
  ⟨h.locate anchor, h.insertAt anchor new fun _ => rfl, h.insertAt anchor new fun _ => rfl⟩

theorem Holds.addStmt (h : t.Holds b) (node : StmtNode) : (t.addStmt node).2.Holds b := by
  refine ⟨h.root, fun e he => ?_, h.nodup, h.sound⟩
  have hput : e.key.2.index < t.arenaSize e.key.1 := (h.has e he).index_lt
  rw [addStmt_eq_put, has_put (Nat.le_refl _), if_neg]
  · exact h.has e he
  · intro hkey
    rw [hkey] at hput
    exact Nat.lt_irrefl _ hput

def branchedText : Tree :=
  let read (name : String) : Pipe Untagged := .mk () [] [.mk () (.atom () (.field [name])) []]
  .ofBlock "" [.branch () .cond (read "A") [.text () "x", .action () (read "B")]
    [.action () (read "C")]]

theorem parse_branchedText : Tree.parse (delimited "if .A" ++ "x" ++ delimited ".B" ++
    delimited "else" ++ delimited ".C" ++ delimited "end") = .ok branchedText := by cbv

def spareText : Tree := (branchedText.addStmt (.text "y")).2

theorem splices_spareText : spareText.OwnedOnce ∧
    (∃ t', spareText.insertBefore ⟨2⟩ ⟨4⟩ = .ok (some t') ∧
      t'.block (.elseBody ⟨3⟩) = .ok [⟨4⟩, ⟨2⟩] ∧ SameBut (.elseBody ⟨3⟩) spareText t') ∧
    ∃ t', spareText.insertAfter ⟨0⟩ ⟨4⟩ = .ok (some t') ∧
      t'.block (.body ⟨3⟩) = .ok [⟨0⟩, ⟨4⟩, ⟨1⟩] ∧ SameBut (.body ⟨3⟩) spareText t' := by
  have howned : spareText.OwnedOnce :=
    have ⟨_, _, hb⟩ := (parsed_of_parse parse_branchedText).holds
    (hb.addStmt _).singlyOwned.toOwnedOnce
  have hroots : spareText.roots = [(⟨3⟩ : StmtId).key] := by cbv
  have hget : spareText.Has (.stmt ⟨3⟩ (.branch .cond ⟨0⟩ [⟨0⟩, ⟨1⟩] [⟨2⟩])) := by cbv
  have howner : spareText.Reachable (.stmt ⟨3⟩ (.branch .cond ⟨0⟩ [⟨0⟩, ⟨1⟩] [⟨2⟩])) :=
    ⟨hget, 0, .root (hroots ▸ List.mem_singleton_self _)⟩
  exact ⟨howned, (howned.splices ⟨2⟩ ⟨4⟩).2.1.present _ [] []
      (blockAt_elseBody.mpr ⟨_, _, _, howner⟩),
    (howned.splices ⟨0⟩ ⟨4⟩).2.2.present _ [] [⟨1⟩] (blockAt_body.mpr ⟨_, _, _, howner⟩)⟩

end Tree

end FlatTemplate

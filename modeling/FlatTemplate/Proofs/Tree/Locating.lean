import FlatTemplate.Proofs.Template.Contexts
import FlatTemplate.Proofs.Tree.Putting
import FlatTemplate.Tree.Place

namespace FlatTemplate

namespace BlockContext

def ref (outer : BlockRef) : BlockContext → BlockRef
  | .hole => outer
  | .inBody _ id _ _ inner _ _ => inner.ref (.body id)
  | .inElse _ id _ _ _ inner _ => inner.ref (.elseBody id)

def owner (b : Block Handle) : BlockContext → List Entry
  | .hole => []
  | .inBody _ id kind pipe .hole elseBody _ =>
    [.stmt id (.branch kind pipe.tag (b.map Stmt.tag) (elseBody.map Stmt.tag))]
  | .inElse _ id kind pipe body .hole _ =>
    [.stmt id (.branch kind pipe.tag (body.map Stmt.tag) (b.map Stmt.tag))]
  | .inBody _ _ _ _ inner _ _ => inner.owner b
  | .inElse _ _ _ _ _ inner _ => inner.owner b

def around : BlockContext → List Entry
  | .hole => []
  | .inBody pre _ _ pipe .hole elseBody post =>
    blockEntries pre ++ pipe.entries ++ blockEntries elseBody ++ blockEntries post
  | .inElse pre _ _ pipe body .hole post =>
    blockEntries pre ++ pipe.entries ++ blockEntries body ++ blockEntries post
  | .inBody pre id kind pipe inner elseBody post =>
    .stmt id (.branch kind pipe.tag ((inner.plug []).map Stmt.tag) (elseBody.map Stmt.tag)) ::
      (blockEntries pre ++ pipe.entries ++ inner.around ++ blockEntries elseBody ++
        blockEntries post)
  | .inElse pre id kind pipe body inner post =>
    .stmt id (.branch kind pipe.tag (body.map Stmt.tag) ((inner.plug []).map Stmt.tag)) ::
      (blockEntries pre ++ pipe.entries ++ blockEntries body ++ inner.around ++ blockEntries post)

section Owners

variable {inner : BlockContext} {pre other post : Block Handle} {id : StmtId} {kind : BranchKind}
  {pipe : Pipe Handle}

theorem owner_inBody (h : inner ≠ .hole) (b : Block Handle) :
    (inBody pre id kind pipe inner other post).owner b = inner.owner b := by
  cases inner with
  | hole => exact absurd rfl h
  | inBody | inElse => rfl

theorem owner_inElse (h : inner ≠ .hole) (b : Block Handle) :
    (inElse pre id kind pipe other inner post).owner b = inner.owner b := by
  cases inner with
  | hole => exact absurd rfl h
  | inBody | inElse => rfl

theorem around_inBody (h : inner ≠ .hole) : (inBody pre id kind pipe inner other post).around =
    .stmt id (.branch kind pipe.tag ((inner.plug []).map Stmt.tag) (other.map Stmt.tag)) ::
      (blockEntries pre ++ pipe.entries ++ inner.around ++ blockEntries other ++
        blockEntries post) := by
  cases inner with
  | hole => exact absurd rfl h
  | inBody | inElse => rfl

theorem around_inElse (h : inner ≠ .hole) : (inElse pre id kind pipe other inner post).around =
    .stmt id (.branch kind pipe.tag (other.map Stmt.tag) ((inner.plug []).map Stmt.tag)) ::
      (blockEntries pre ++ pipe.entries ++ blockEntries other ++ inner.around ++
        blockEntries post) := by
  cases inner with
  | hole => exact absurd rfl h
  | inBody | inElse => rfl

end Owners

theorem map_tag_plug (C : BlockContext) (h : C ≠ .hole) (b b' : Block Handle) :
    (C.plug b).map Stmt.tag = (C.plug b').map Stmt.tag := by
  cases C with
  | hole => exact absurd rfl h
  | inBody => simp [plug, Stmt.tag]
  | inElse => simp [plug, Stmt.tag]

theorem owner_eq {C : BlockContext} (hC : C ≠ .hole) :
    ∃ id, ∀ b, ∃ node, C.owner b = [.stmt id node] := by
  induction C with
  | hole => exact absurd rfl hC
  | inBody pre id kind pipe inner elseBody post ih =>
    by_cases hole : inner = .hole
    · subst hole
      exact ⟨id, fun b => ⟨_, rfl⟩⟩
    · obtain ⟨id', h⟩ := ih hole
      refine ⟨id', fun b => ?_⟩
      rw [owner_inBody hole]
      exact h b
  | inElse pre id kind pipe body inner post ih =>
    by_cases hole : inner = .hole
    · subst hole
      exact ⟨id, fun b => ⟨_, rfl⟩⟩
    · obtain ⟨id', h⟩ := ih hole
      refine ⟨id', fun b => ?_⟩
      rw [owner_inElse hole]
      exact h b

theorem owner_keys (C : BlockContext) (b b' : Block Handle) :
    (C.owner b).map Entry.key = (C.owner b').map Entry.key := by
  by_cases hC : C = .hole
  · rw [hC]
    rfl
  · obtain ⟨id, h⟩ := owner_eq hC
    obtain ⟨node, hb⟩ := h b
    obtain ⟨node', hb'⟩ := h b'
    rw [hb, hb']
    rfl

theorem owner_sound (C : BlockContext) (b : Block Handle) : ∀ e ∈ C.owner b, e.Sound := by
  by_cases hC : C = .hole
  · rw [hC]
    exact nofun
  · obtain ⟨id, h⟩ := owner_eq hC
    obtain ⟨node, hb⟩ := h b
    simp [hb, Entry.Sound]

theorem owner_congr (C : BlockContext) {b b' : Block Handle}
    (h : b.map Stmt.tag = b'.map Stmt.tag) : C.owner b = C.owner b' := by
  induction C with
  | hole => rfl
  | inBody pre id kind pipe inner elseBody post ih =>
    by_cases hole : inner = .hole
    · subst hole
      exact congrArg (fun tags => [Entry.stmt id (.branch kind pipe.tag tags _)]) h
    · rw [owner_inBody hole, owner_inBody hole, ih]
  | inElse pre id kind pipe body inner post ih =>
    by_cases hole : inner = .hole
    · subst hole
      exact congrArg (fun tags => [Entry.stmt id (.branch kind pipe.tag _ tags)]) h
    · rw [owner_inElse hole, owner_inElse hole, ih]

theorem map_tag_plug_congr (C : BlockContext) {b b' : Block Handle}
    (h : b.map Stmt.tag = b'.map Stmt.tag) :
    (C.plug b).map Stmt.tag = (C.plug b').map Stmt.tag := by
  by_cases hC : C = .hole
  · rw [hC]
    exact h
  · exact C.map_tag_plug hC b b'

theorem entries_plug (C : BlockContext) (b : Block Handle) :
    (blockEntries (C.plug b)).Perm (C.owner b ++ C.around ++ blockEntries b) := by
  induction C with
  | hole => simp [plug, owner, around]
  | inBody pre id kind pipe inner elseBody post ih =>
    by_cases hole : inner = .hole
    · subst hole
      simp only [plug, owner, around, blockEntries_append, blockEntries, Stmt.entries]
      grind
    · have htags := map_tag_plug inner hole b []
      rw [owner_inBody hole, around_inBody hole]
      simp only [plug, blockEntries_append, blockEntries, Stmt.entries, htags]
      grind
  | inElse pre id kind pipe body inner post ih =>
    by_cases hole : inner = .hole
    · subst hole
      simp only [plug, owner, around, blockEntries_append, blockEntries, Stmt.entries]
      grind
    · have htags := map_tag_plug inner hole b []
      rw [owner_inElse hole, around_inElse hole]
      simp only [plug, blockEntries_append, blockEntries, Stmt.entries, htags]
      grind

theorem mem_keys_plug (C : BlockContext) {b : Block Handle} {k : Key} (h : k ∈ blockKeys b) :
    k ∈ blockKeys (C.plug b) := by
  rw [blockKeys, ((C.entries_plug b).map Entry.key).mem_iff, List.map_append]
  exact List.mem_append_right _ h

end BlockContext

theorem mem_blockKeys (pre post : Block Handle) (s : Stmt Handle) :
    ⟨.stmt, s.tag⟩ ∈ blockKeys (pre ++ s :: post) := by
  have := s.key_mem_entries
  simp only [blockKeys, blockEntries_append, blockEntries, List.map_append, List.mem_append]
  exact .inr (.inl this)

theorem stmt_notMem_keys_cons {host id : StmtId} {node : StmtNode} {rest : List Entry} :
    ⟨.stmt, host⟩ ∉ (Entry.stmt id node :: rest).map Entry.key ↔
      host ≠ id ∧ ⟨.stmt, host⟩ ∉ rest.map Entry.key := by
  rw [List.map_cons, List.mem_cons, not_or]
  simp [Entry.key]

theorem Pipe.stmt_notMem_keys (p : Pipe Handle) (id : StmtId) :
    ⟨.stmt, id⟩ ∉ p.entries.map Entry.key := by
  intro hmem
  obtain ⟨x, hx, hkey⟩ := List.mem_map.mp hmem
  exact p.kind_ne_stmt x hx (by rw [hkey])

namespace Tree

variable {t : Tree} {host : StmtId}

def HasStmts (t : Tree) (entries : List Entry) : Prop :=
  ∀ e ∈ entries, e.key.1 = .stmt → t.Has e

theorem HasStmts.mono {as bs : List Entry} (h : t.HasStmts bs) (hsub : ∀ e ∈ as, e ∈ bs) :
    t.HasStmts as :=
  fun e he => h e (hsub e he)

theorem HasStmts.get_stmt {s : Stmt Handle} (h : t.HasStmts s.entries) :
    t.stmts.get s.tag = .ok s.node :=
  h s.entry s.entry_mem_entries rfl

def locateInside? (t : Tree) (host : StmtId) (depth : Nat) (id : StmtId) :
    Except Fault (Option Slot) := do
  if (← t.stmts.get id).isBranch then
    match ← t.locateWithin host depth (.body id) with
    | some slot => return some slot
    | none => t.locateWithin host depth (.elseBody id)
  else return none

theorem locateWithin_succ {d : Nat} {block : BlockRef} {ids : List StmtId}
    (h : t.block block = .ok ids) : t.locateWithin host (d + 1) block =
      locateAmong (t.locateInside? host d) host block 0 ids := by
  rw [locateWithin, h, ok_bind]
  rfl

theorem block_body {id : StmtId} {kind : BranchKind} {pipe : PipeId} {body elseBody : List StmtId}
    (h : t.stmts.get id = .ok (.branch kind pipe body elseBody)) :
    t.block (.body id) = .ok body ∧ t.block (.elseBody id) = .ok elseBody := by
  simp [block, h]

theorem locateInside?_branch {d : Nat} {id : StmtId} {kind : BranchKind} {pipe : PipeId}
    {body elseBody : List StmtId} {slot : Option Slot} (slot' : Option Slot)
    (h : t.stmts.get id = .ok (.branch kind pipe body elseBody))
    (hbody : locateAmong (t.locateInside? host d) host (.body id) 0 body = .ok slot)
    (helse : slot = none →
      locateAmong (t.locateInside? host d) host (.elseBody id) 0 elseBody = .ok slot') :
    t.locateInside? host (d + 1) id = .ok (slot <|> slot') := by
  obtain ⟨hb, he⟩ := block_body h
  rw [locateInside?, h, ok_bind, StmtNode.isBranch, if_pos rfl, locateWithin_succ hb,
    locateWithin_succ he, hbody, ok_bind]
  cases slot with
  | some slot => rfl
  | none => exact helse rfl

theorem locateInside?_leaf {d : Nat} {id : StmtId} {node : StmtNode} (h : t.stmts.get id = .ok node)
    (hnode : node.isBranch = false) : t.locateInside? host d id = .ok none := by
  simp [locateInside?, h, hnode]

mutual

theorem exists_locateInside? (host : StmtId) (d : Nat) (s : Stmt Handle)
    (has : t.HasStmts s.entries) (hd : countKind .stmt s.entries ≤ d) (htag : s.tag ≠ host) :
    ∃ found, t.locateInside? host d s.tag = .ok found ∧
      (found = none ↔ ⟨.stmt, host⟩ ∉ s.entries.map Entry.key) := by
  have hne := htag.symm
  have hs := has.get_stmt
  match s with
  | .text .. | .invoke _ _ none =>
    refine ⟨none, locateInside?_leaf hs rfl, iff_of_true rfl ?_⟩
    exact stmt_notMem_keys_cons.mpr ⟨hne, List.not_mem_nil⟩
  | .action _ p | .invoke _ _ (some p) =>
    refine ⟨none, locateInside?_leaf hs rfl, iff_of_true rfl ?_⟩
    exact stmt_notMem_keys_cons.mpr ⟨hne, p.stmt_notMem_keys host⟩
  | .branch id kind p body elseBody =>
    simp only [Stmt.entries, countKind_cons, countKind_append, Entry.key, if_true] at hd
    obtain ⟨d, rfl⟩ : ∃ d', d = d' + 1 := ⟨d - 1, by omega⟩
    obtain ⟨slot, hb, hbody⟩ := exists_locateAmong host d body (.body id) 0
      (has.mono fun x hm => by simp [Stmt.entries, hm]) (by omega)
    obtain ⟨slot', he, helse⟩ := exists_locateAmong host d elseBody (.elseBody id) 0
      (has.mono fun x hm => by simp [Stmt.entries, hm]) (by omega)
    refine ⟨_, locateInside?_branch slot' hs hb fun _ => he, ?_⟩
    have hp := p.stmt_notMem_keys host
    have hnone : (slot <|> slot') = none ↔ slot = none ∧ slot' = none := by cases slot <;> simp
    rw [hnone, hbody, helse, Stmt.entries, stmt_notMem_keys_cons]
    simp only [blockKeys, List.map_append, List.mem_append, not_or]
    exact ⟨fun ⟨hb, he⟩ => ⟨hne, ⟨hp, hb⟩, he⟩, fun ⟨_, ⟨_, hb⟩, he⟩ => ⟨hb, he⟩⟩

theorem exists_locateAmong (host : StmtId) (d : Nat) (b : Block Handle) (block : BlockRef)
    (i : Nat) (has : t.HasStmts (blockEntries b)) (hd : countKind .stmt (blockEntries b) ≤ d) :
    ∃ found, locateAmong (t.locateInside? host d) host block i (b.map Stmt.tag) = .ok found ∧
      (found = none ↔ ⟨.stmt, host⟩ ∉ blockKeys b) := by
  cases b with
  | nil => exact ⟨none, rfl, by simp [blockKeys, blockEntries]⟩
  | cons s b =>
    simp only [blockEntries, countKind_append] at hd
    have hkeys : ⟨.stmt, host⟩ ∉ blockKeys (s :: b) ↔
        ⟨.stmt, host⟩ ∉ s.entries.map Entry.key ∧ ⟨.stmt, host⟩ ∉ blockKeys b := by
      simp only [blockKeys, blockEntries, List.map_append, List.mem_append, not_or]
    rw [hkeys, List.map_cons, locateAmong]
    by_cases htag : s.tag = host
    · refine ⟨some ⟨block, i⟩, if_pos htag, ?_⟩
      have := s.key_mem_entries
      simp_all
    · obtain ⟨slot, hs, hinside⟩ := exists_locateInside? host d s
        (has.mono fun x hm => by simp [blockEntries, hm]) (by omega) htag
      obtain ⟨found, hb, hrest⟩ := exists_locateAmong host d b block (i + 1)
        (has.mono fun x hm => by simp [blockEntries, hm]) (by omega)
      rw [if_neg htag, hs, ok_bind, ← hinside]
      cases slot with
      | some slot => exact ⟨some slot, rfl, by simp⟩
      | none => exact ⟨found, hb, by simpa using hrest⟩

end

theorem locateAmong_eq_none (host : StmtId) (d : Nat) (b : Block Handle) (block : BlockRef)
    (i : Nat) (has : t.HasStmts (blockEntries b)) (hd : countKind .stmt (blockEntries b) ≤ d)
    (hne : ⟨.stmt, host⟩ ∉ blockKeys b) :
    locateAmong (t.locateInside? host d) host block i (b.map Stmt.tag) = .ok none := by
  obtain ⟨found, hfound, hiff⟩ := exists_locateAmong host d b block i has hd
  rw [hfound, hiff.mpr hne]

theorem locateAmong_append {within : StmtId → Except Fault (Option Slot)} {block : BlockRef}
    {ids : List StmtId} (rest : List StmtId) {i : Nat}
    (h : locateAmong within host block i ids = .ok none) :
    locateAmong within host block i (ids ++ rest) =
      locateAmong within host block (i + ids.length) rest := by
  induction ids generalizing i with
  | nil => rfl
  | cons id ids ih =>
    rw [locateAmong] at h
    rw [List.cons_append, locateAmong]
    split at h
    · simp at h
    · next hid =>
      rw [if_neg hid]
      obtain ⟨slot, hslot, h⟩ := bind_eq_ok_iff.mp h
      cases slot with
      | some slot => simp at h
      | none =>
        rw [hslot, ok_bind]
        simp only
        rw [ih h, List.length_cons, Nat.add_assoc, Nat.add_comm 1]

theorem locateAmong_plug (C : BlockContext) {pre post : Block Handle} {s : Stmt Handle} (d : Nat)
    (outer : BlockRef) (has : t.HasStmts (blockEntries (C.plug (pre ++ s :: post))))
    (hd : countKind .stmt (blockEntries (C.plug (pre ++ s :: post))) ≤ d)
    (nodup : (blockKeys (C.plug (pre ++ s :: post))).Nodup) :
    locateAmong (t.locateInside? s.tag d) s.tag outer 0
        ((C.plug (pre ++ s :: post)).map Stmt.tag) =
      .ok (some ⟨C.ref outer, pre.length⟩) := by
  -- A handle occurs once, so the search passes by all that stands ahead of the hole.
  induction C generalizing d outer with
  | hole =>
    simp only [BlockContext.plug, blockEntries_append, countKind_append, blockKeys,
      List.map_append, List.nodup_append] at has hd nodup ⊢
    have hpre := locateAmong_eq_none s.tag d pre outer 0
      (has.mono fun x hm => by simp [hm]) (by omega) fun hmem =>
        nodup.2.2 _ hmem _ (by simp [blockEntries, s.key_mem_entries]) rfl
    rw [locateAmong_append _ hpre]
    simp [locateAmong, BlockContext.ref]
  | inBody before id kind p inner elseBody after ih =>
    have hkey := inner.mem_keys_plug (mem_blockKeys pre post s)
    simp only [BlockContext.plug, blockEntries_append, blockEntries, Stmt.entries, countKind_append,
      countKind_cons, Entry.key, if_true, blockKeys, List.map_append, List.map_cons,
      List.nodup_append, List.nodup_cons] at has hd nodup hkey ⊢
    have hbefore := locateAmong_eq_none s.tag d before outer 0
      (has.mono fun x hm => by simp [hm]) (by omega) fun hmem =>
        nodup.2.2 _ hmem _ (by simp [hkey]) rfl
    obtain ⟨d, rfl⟩ : ∃ d', d = d' + 1 := ⟨d - 1, by omega⟩
    have hs : t.stmts.get id = .ok (.branch kind p.tag
        ((inner.plug (pre ++ s :: post)).map Stmt.tag) (elseBody.map Stmt.tag)) :=
      has (.stmt id _) (by simp) rfl
    have hinner := ih d (.body id) (has.mono fun x hm => by simp [hm]) (by omega)
      nodup.2.1.1.2.1.2.1
    have hid : id ≠ s.tag := by
      rintro rfl
      exact nodup.2.1.1.1 (by simp [hkey])
    have hin := locateInside?_branch none hs hinner (by simp)
    rw [locateAmong_append _ hbefore]
    simp [locateAmong, if_neg hid, hin, BlockContext.ref]
  | inElse before id kind p body inner after ih =>
    have hkey := inner.mem_keys_plug (mem_blockKeys pre post s)
    simp only [BlockContext.plug, blockEntries_append, blockEntries, Stmt.entries, countKind_append,
      countKind_cons, Entry.key, if_true, blockKeys, List.map_append, List.map_cons,
      List.nodup_append, List.nodup_cons] at has hd nodup hkey ⊢
    have hbefore := locateAmong_eq_none s.tag d before outer 0
      (has.mono fun x hm => by simp [hm]) (by omega) fun hmem =>
        nodup.2.2 _ hmem _ (by simp [hkey]) rfl
    obtain ⟨d, rfl⟩ : ∃ d', d = d' + 1 := ⟨d - 1, by omega⟩
    have hs : t.stmts.get id = .ok (.branch kind p.tag (body.map Stmt.tag)
        ((inner.plug (pre ++ s :: post)).map Stmt.tag)) :=
      has (.stmt id _) (by simp) rfl
    have hbody := locateAmong_eq_none s.tag d body (.body id) 0
      (has.mono fun x hm => by simp [hm]) (by omega) fun hmem =>
        nodup.2.1.1.2.2.2 _ (List.mem_append_right _ hmem) _ hkey rfl
    have hinner := ih d (.elseBody id) (has.mono fun x hm => by simp [hm]) (by omega)
      nodup.2.1.1.2.2.1
    have hid : id ≠ s.tag := by
      rintro rfl
      exact nodup.2.1.1.1 (by simp [hkey])
    have hin := locateInside?_branch _ hs hbody fun _ => hinner
    rw [locateAmong_append _ hbefore]
    simp [locateAmong, if_neg hid, hin, BlockContext.ref]

theorem modifyBlock_ref {C : BlockContext} (hC : C ≠ .hole) {b b' : Block Handle}
    {f : List StmtId → List StmtId} (has : ∀ e ∈ C.owner b, t.Has e)
    (hf : f (b.map Stmt.tag) = b'.map Stmt.tag) (outer : BlockRef) :
    t.modifyBlock (C.ref outer) f = .ok (t.puts (C.owner b')) := by
  induction C generalizing outer with
  | hole => exact absurd rfl hC
  | inBody before id kind p inner elseBody after ih =>
    by_cases hole : inner = .hole
    · subst hole
      have hs := has (.stmt id _) (List.mem_singleton_self _)
      simp only [Has] at hs
      simp only [BlockContext.ref, modifyBlock, hs, ok_bind, hf, setStmt_eq_put hs]
      rfl
    · rw [BlockContext.owner.eq_4 _ _ _ _ _ _ _ _ hole] at has ⊢
      exact ih hole has _
  | inElse before id kind p body inner after ih =>
    by_cases hole : inner = .hole
    · subst hole
      have hs := has (.stmt id _) (List.mem_singleton_self _)
      simp only [Has] at hs
      simp only [BlockContext.ref, modifyBlock, hs, ok_bind, hf, setStmt_eq_put hs]
      rfl
    · rw [BlockContext.owner.eq_5 _ _ _ _ _ _ _ _ hole] at has ⊢
      exact ih hole has _

theorem countKind_stmt_le {entries : List Entry} (has : t.HasStmts entries)
    (nodup : (entries.map Entry.key).Nodup) : countKind .stmt entries ≤ t.stmts.size := by
  have hle : countKind .stmt (entries.filter fun e => e.key.1 = .stmt) ≤ t.arenaSize .stmt :=
    countKind_le_arenaSize .stmt
    (fun e he => has e (List.mem_filter.mp he).1 (by simpa using (List.mem_filter.mp he).2))
    (nodup.sublist (List.filter_sublist.map _))
  simpa [countKind, List.countP_filter, arenaSize] using hle

theorem insertIdx_add (k : Nat) (x : StmtId) (as bs : List StmtId) :
    (as ++ bs).insertIdx (as.length + k) x = as ++ bs.insertIdx k x := by
  induction as with
  | nil => simp
  | cons a as ih => simp [Nat.add_right_comm, ih]

theorem insertAt_of_has (C : BlockContext) {pre post b : Block Handle} {s : Stmt Handle}
    (root : t.root = (C.plug (pre ++ s :: post)).map Stmt.tag)
    (has : t.HasStmts (blockEntries (C.plug (pre ++ s :: post))))
    (nodup : (blockKeys (C.plug (pre ++ s :: post))).Nodup) {new : StmtId} {k : Nat}
    (hb : ((pre ++ s :: post).map Stmt.tag).insertIdx (pre.length + k) new = b.map Stmt.tag) :
    ∃ t', t.insertAt s.tag new k = .ok (some t') ∧ t'.root = (C.plug b).map Stmt.tag ∧
      t.Changed t' (C.owner b) ∧ ∀ kind, t'.arenaSize kind = t.arenaSize kind := by
  have hlocate : t.locate s.tag = .ok (some ⟨C.ref .root, pre.length⟩) := by
    rw [locate, locateWithin_succ (show t.block .root = .ok t.root from rfl), root]
    exact locateAmong_plug C _ .root has (countKind_stmt_le has nodup) nodup
  rw [insertAt, hlocate, ok_bind]
  -- The root block has no owner: its list of handles is replaced, and no node is written.
  by_cases hole : C = .hole
  · subst hole
    refine ⟨{ t with root := b.map Stmt.tag }, ?_, rfl, ?_, fun kind => by cases kind <;> rfl⟩
    · simp only [BlockContext.ref, modifyBlock, root, BlockContext.plug, hb]
      rfl
    · exact ⟨by simp [BlockContext.owner], fun e he _ => by cases e <;> exact he,
        fun kind => by cases kind <;> exact Nat.le_refl _⟩
  · obtain ⟨id, hid⟩ := BlockContext.owner_eq hole
    obtain ⟨old, hold⟩ := hid (pre ++ s :: post)
    obtain ⟨node, hnode⟩ := hid b
    have howner : t.Has (.stmt id old) := by
      refine has _ ?_ rfl
      rw [(C.entries_plug _).mem_iff, hold]
      simp
    have hmodify := modifyBlock_ref (f := fun ids => ids.insertIdx (pre.length + k) new) hole
      (by simpa [hold] using howner) hb .root
    have hlt : id.index < t.arenaSize .stmt := howner.index_lt
    have hle : ∀ e ∈ C.owner b, e.key.2.index ≤ t.arenaSize e.key.1 := by
      simpa [hnode, Entry.key] using Nat.le_of_lt hlt
    have nodup : ((C.owner b).map Entry.key).Nodup := by simp [hnode]
    refine ⟨t.puts (C.owner b), ?_, ?_, changed_puts hle nodup, fun kind => ?_⟩
    · simp only [hmodify, ok_bind, pure_eq_ok]
    · rw [root_puts, root]
      exact C.map_tag_plug hole _ _
    · rw [arenaSize_puts hle nodup, if_neg, Nat.add_zero]
      intro hmem
      rw [hnode] at hmem
      have hkey : freshKey t.arenaSize kind = ⟨.stmt, id⟩ := List.mem_singleton.mp hmem
      obtain ⟨rfl, hid⟩ := Sigma.mk.inj hkey
      rw [← eq_of_heq hid] at hlt
      exact Nat.lt_irrefl _ hlt

end Tree

end FlatTemplate

import FlatTemplate.Hygiene
import FlatTemplate.Proofs.Template.Spelling
import FlatTemplate.Proofs.Tree.Putting

namespace FlatTemplate

namespace Tree

variable {t : Tree} (tag : String)

structure Renamed (t t' : Tree) (entries : List Entry) : Prop extends
    t.Changed t' (entries.map (Entry.rename (respell tag))) where
  root : t'.root = t.root
  arenas : ∀ kind, t'.arenaSize kind = t.arenaSize kind

variable {tag}

theorem Renamed.keeps {t' : Tree} {entries : List Entry} (h : t.Renamed tag t' entries) {e : Entry}
    (he : t.Has e) (hkey : e.key ∉ entries.map Entry.key) : t'.Has e := by
  refine h.old e he ?_
  simpa [List.map_map, Function.comp_def, Entry.key_rename] using hkey

theorem Renamed.trans {t' t'' : Tree} {es fs : List Entry} (h : t.Renamed tag t' es)
    (h' : t'.Renamed tag t'' fs) (nodup : ((es ++ fs).map Entry.key).Nodup) :
    t.Renamed tag t'' (es ++ fs) := by
  rw [List.map_append, List.nodup_append] at nodup
  refine ⟨?_, h'.root.trans h.root, fun kind => (h'.arenas kind).trans (h.arenas kind)⟩
  rw [List.map_append]
  refine h.toChanged.trans h'.toChanged fun e he hmem => ?_
  obtain ⟨x, hx, rfl⟩ := List.mem_map.mp he
  obtain ⟨y, hy, hkey⟩ := List.mem_map.mp hmem
  obtain ⟨y, hy', rfl⟩ := List.mem_map.mp hy
  rw [Entry.key_rename, Entry.key_rename] at hkey
  exact nodup.2.2 _ (List.mem_map_of_mem hx) _ (List.mem_map_of_mem hy') hkey.symm

theorem renamed_put {e : Entry} (h : t.Has e) :
    t.Renamed tag (t.put (e.rename (respell tag))) [e] := by
  have hlt := h.index_lt
  rw [← Entry.key_rename (respell tag)] at hlt
  have hle := Nat.le_of_lt hlt
  refine ⟨?_, root_put _, fun kind => ?_⟩
  rotate_left
  · rw [arenaSize_put hle, if_neg, Nat.add_zero]
    intro hkey
    rw [hkey] at hlt
    exact Nat.lt_irrefl _ hlt
  rw [List.map_singleton, show t.put _ = t.puts [e.rename (respell tag)] from rfl]
  refine changed_puts (fun x hx => ?_) ?_
  · rw [List.mem_singleton.mp hx]
    exact hle
  · exact List.nodup_singleton _

theorem renamed_self {e : Entry} (h : t.Has e) (hself : e.rename (respell tag) = e) :
    t.Renamed tag t [e] := by
  refine ⟨⟨?_, fun x hx _ => hx, fun _ => Nat.le_refl _⟩, rfl, fun _ => rfl⟩
  simpa [hself] using h

theorem countEach_renamed {α β : Type} {f : Tree → α → Except Fault (Tree × Nat)} {k : β → α}
    (owns reads : β → List Entry) {bs : List β}
    (hf : ∀ t, ∀ b ∈ bs, (∀ e ∈ owns b ++ reads b, t.Has e) →
      ∃ t', f t (k b) = .ok (t', countNames (owns b)) ∧ t.Renamed tag t' (owns b))
    (has : ∀ b ∈ bs, ∀ e ∈ owns b ++ reads b, t.Has e)
    (nodup : ((bs.flatMap owns).map Entry.key).Nodup)
    (apart : ∀ b ∈ bs, ∀ e ∈ reads b, e.key ∉ (bs.flatMap owns).map Entry.key) :
    ∃ t', countEach f t (bs.map k) = .ok (t', countNames (bs.flatMap owns)) ∧
      t.Renamed tag t' (bs.flatMap owns) := by
  induction bs generalizing t with
  | nil =>
    exact ⟨t, rfl, ⟨by simp, fun x hx _ => hx, fun _ => Nat.le_refl _⟩, rfl, fun _ => rfl⟩
  | cons b bs ih =>
    obtain ⟨t₁, hfb, hren⟩ := hf t b (by simp) (has b (by simp))
    rw [List.flatMap_cons] at nodup
    have hnodup := nodup
    rw [List.map_append, List.nodup_append] at hnodup
    simp only [List.flatMap_cons, List.map_append, List.mem_append, not_or] at apart
    have hin {c : β} (hc : c ∈ bs) {e : Entry} (he : e ∈ owns c) :
        e.key ∈ (bs.flatMap owns).map Entry.key :=
      List.mem_map_of_mem (List.mem_flatMap.mpr ⟨c, hc, he⟩)
    obtain ⟨t₂, hrest, hren'⟩ := ih (t := t₁) (fun t c hc => hf t c (by simp [hc]))
      (fun c hc e he => hren.keeps (has c (by simp [hc]) e he) (by
        rcases List.mem_append.mp he with he | he
        · exact fun hmem => hnodup.2.2 _ hmem _ (hin hc he) rfl
        · exact (apart c (by simp [hc]) e he).1))
      hnodup.2.1 (fun c hc e he => (apart c (by simp [hc]) e he).2)
    refine ⟨t₂, ?_, ?_⟩
    · rw [List.map_cons, countEach, hfb, ok_bind]
      simp only [hrest, ok_bind, pure_eq_ok, List.flatMap_cons, countNames_append]
    · exact hren.trans hren' nodup

theorem respellOperand_renamed {e : Expr Handle} (h : t.Has e.entry) (sound : e.entry.Sound) :
    ∃ t', respellOperand tag t e.tag = .ok (t', countNames [e.entry]) ∧
      t.Renamed tag t' [e.entry] := by
  cases e with
  | paren id inner =>
    have hget : t.exprs.get id = .ok (.paren inner.tag) := h
    exact ⟨t, by simp [respellOperand, hget, countNames, Entry.names, Expr.entry, Expr.node],
      renamed_self h rfl⟩
  | atom id a =>
    have hget : t.exprs.get id = .ok (.atom a) := h
    cases a with
    | var names =>
      cases names with
      | nil => exact absurd rfl sound
      | cons first path =>
        by_cases hroot : first = rootVariable
        · refine ⟨t, ?_, renamed_self h ?_⟩
          · simp [respellOperand, hget, hroot, countNames, Entry.names, Expr.entry, Expr.node]
          · simp [Expr.entry, Expr.node, Entry.rename, Atom.rename, respell, hroot]
        · have hcount : countNames [(Expr.atom id (.var (first :: path))).entry] = 1 := by
            simp [countNames, Entry.names, Expr.entry, Expr.node, hroot]
          refine ⟨_, ?_, renamed_put h⟩
          simp only [Expr.tag_atom, respellOperand, hget, ok_bind, if_neg hroot, setExpr,
            Arena.set_eq_put hget, hcount]
          rfl
    | field | dot | identifier | str | number | bool =>
      exact ⟨t, by simp [respellOperand, hget, countNames, Entry.names, Expr.entry, Expr.node],
        renamed_self h rfl⟩

theorem sublist_flatMap_of_mem {α β : Type} {f : α → List β} {a : α} {as : List α} (h : a ∈ as) :
    (f a).Sublist (as.flatMap f) := by
  obtain ⟨pre, post, rfl⟩ := List.mem_iff_append.mp h
  rw [List.flatMap_append, List.flatMap_cons]
  exact (List.sublist_append_left _ _).trans (List.sublist_append_right _ _)

theorem respellOperands_renamed (tag : String) {c : Command Handle} (has : ∀ e ∈ c.spelled, t.Has e)
    (sound : ∀ e ∈ c.spelled, e.Sound) (nodup : (c.spelled.map Entry.key).Nodup) :
    ∃ t', countEach (respellOperand tag) t (c.operands.map Expr.tag) =
        .ok (t', countNames c.spelled) ∧ t.Renamed tag t' c.spelled := by
  have hflat : c.operands.flatMap (fun e => [e.entry]) = c.spelled :=
    List.flatMap_pure_eq_map Expr.entry c.operands
  rw [← hflat]
  refine countEach_renamed (fun e : Expr Handle => [e.entry]) (fun _ => []) (fun t e he hhas => ?_)
    (fun e he => ?_) (hflat ▸ nodup) (by simp)
  · exact respellOperand_renamed (by simpa using hhas) (sound _ (List.mem_map_of_mem he))
  · simpa using has _ (List.mem_map_of_mem he)

theorem respellCommands_renamed (tag : String) {cs : List (Command Handle)}
    (has : ∀ c ∈ cs, ∀ e ∈ c.spelled ++ [c.entry], t.Has e)
    (sound : ∀ c ∈ cs, ∀ e ∈ c.spelled, e.Sound)
    (nodup : ((cs.flatMap Command.spelled).map Entry.key).Nodup)
    (apart : ∀ c ∈ cs, c.entry.key ∉ (cs.flatMap Command.spelled).map Entry.key) :
    ∃ t', countEach
        (fun t c => do countEach (respellOperand tag) t (← t.commands.get c).operands) t
        (cs.map Command.tag) = .ok (t', countNames (cs.flatMap Command.spelled)) ∧
      t.Renamed tag t' (cs.flatMap Command.spelled) := by
  refine countEach_renamed Command.spelled (fun c => [c.entry]) (fun t c hc hhas => ?_) has nodup
    (fun c hc e he => ?_)
  · have hget : t.commands.get c.tag = .ok ⟨c.head.tag, c.args.map Expr.tag⟩ :=
      hhas c.entry (by simp)
    have hnodup : (c.spelled.map Entry.key).Nodup :=
      nodup.sublist ((sublist_flatMap_of_mem hc).map _)
    obtain ⟨t', hcount, hren⟩ := respellOperands_renamed tag
      (fun e he => hhas e (List.mem_append_left _ he)) (sound c hc) hnodup
    refine ⟨t', ?_, hren⟩
    rw [hget]
    exact hcount
  · rw [List.mem_singleton.mp he]
    exact apart c hc

theorem respellPipe_renamed (tag : String) {p : Pipe Handle} (has : ∀ e ∈ p.nodes, t.Has e)
    (sound : ∀ e ∈ p.nodes, e.Sound) (nodup : (p.nodes.map Entry.key).Nodup) :
    ∃ t', respellPipe tag t p.tag = .ok (t', countNames p.spelled) ∧
      t.Renamed tag t' p.spelled := by
  have hp : t.Has p.entry := has _ (by simp [Pipe.nodes, Pipe.spelled])
  have hget : t.pipes.get p.tag = .ok ⟨p.decls, p.commands.map Command.tag⟩ := hp
  have hren : t.Renamed tag _ [p.entry] := renamed_put hp
  have hsplit : p.nodes =
      p.entry :: (p.commands.flatMap Command.spelled ++ p.commands.map Command.entry) := rfl
  have hin {c : Command Handle} (hc : c ∈ p.commands) {e : Entry} (he : e ∈ c.spelled) :
      e ∈ p.commands.flatMap Command.spelled := List.mem_flatMap.mpr ⟨c, hc, he⟩
  have hnodup := nodup
  rw [hsplit, List.map_cons, List.nodup_cons, List.map_append, List.nodup_append, List.mem_append,
    not_or] at hnodup
  obtain ⟨⟨hspelled, hentry⟩, hspell, -, hapart⟩ := hnodup
  obtain ⟨t', hcount, hren'⟩ := respellCommands_renamed tag
    (t := t.put (p.entry.rename (respell tag)))
    (fun c (hc : c ∈ p.commands) e he => by
      refine hren.keeps (has e ?_) ?_
      · rw [hsplit]
        grind
      · grind)
    (fun c hc e he => sound e (by rw [hsplit]; grind)) hspell
    (fun c hc hmem => hapart _ hmem _ (List.mem_map_of_mem (List.mem_map_of_mem hc)) rfl)
  have hnames : countNames p.spelled = p.decls.countP (· ≠ rootVariable) +
      countNames (p.commands.flatMap Command.spelled) := by
    rw [Pipe.spelled, ← List.singleton_append, countNames_append]
    simp [countNames, Pipe.entry, Entry.names]
  refine ⟨t', ?_, hren.trans hren' ?_⟩
  · rw [hnames]
    have hset := setPipe_eq_put hget ⟨p.decls.map (respell tag), p.commands.map Command.tag⟩
    simp only [respellPipe, hget, ok_bind, hset]
    exact congrArg (· >>= _) hcount
  · rw [List.singleton_append, List.map_cons, List.nodup_cons]
    exact ⟨hspelled, hspell⟩

theorem Holds.respellVariables {b : Block Handle} (h : t.Holds b) (tag : String) :
    ∃ t', t.respellVariables tag = .ok (t', countNames (blockEntries b)) ∧
      t'.Holds (blockRename (respell tag) b) ∧ ∀ kind, t'.arenaSize kind = t.arenaSize kind := by
  obtain ⟨stmts, hstmts, hperm⟩ := blockEntries_perm b
  have nodup := (hperm.map Entry.key).nodup_iff.mp h.nodup
  have hin {p : Pipe Handle} (hp : p ∈ blockPipes b) {e : Entry} (he : e ∈ p.nodes) :
      e ∈ blockEntries b :=
    hperm.mem_iff.mpr (List.mem_append_left _ (List.mem_flatMap.mpr ⟨p, hp, he⟩))
  have hsplit : ((blockPipes b).flatMap Pipe.nodes).Perm ((blockPipes b).flatMap Pipe.spelled ++
      (blockPipes b).flatMap fun p => p.commands.map Command.entry) :=
    (List.flatMap_append_perm _ _ _).symm
  have hall := hperm.trans (hsplit.append_right stmts)
  have hnodup := (hall.map Entry.key).nodup_iff.mp h.nodup
  rw [List.append_assoc, List.map_append, List.nodup_append] at hnodup
  obtain ⟨t', hcount, hren⟩ := countEach_renamed (f := respellPipe tag)
    (k := Pipe.tag) Pipe.spelled (fun p => p.commands.map Command.entry)
    (fun t p hp hhas => respellPipe_renamed tag hhas (fun e he => h.sound e (hin hp he))
      (nodup.sublist (((sublist_flatMap_of_mem hp).trans (List.sublist_append_left _ _)).map _)))
    (fun p hp e he => h.has e (hin hp he)) hnodup.1
    (fun p hp e he hmem => hnodup.2.2 _ hmem _ (List.mem_map_of_mem (List.mem_append_left _
      (List.mem_flatMap.mpr ⟨p, hp, he⟩))) rfl)
  -- Commands and statements spell no variable, so nothing is written to them.
  have hsilent : ∀ e ∈ ((blockPipes b).flatMap fun p => p.commands.map Command.entry) ++ stmts,
      e.names = [] := by
    intro e he
    rcases List.mem_append.mp he with he | he
    · obtain ⟨p, -, he⟩ := List.mem_flatMap.mp he
      obtain ⟨c, -, rfl⟩ := List.mem_map.mp he
      rfl
    · exact Entry.names_of_stmt (hstmts e he)
  have hnames : countNames (blockEntries b) = countNames ((blockPipes b).flatMap Pipe.spelled) := by
    rw [countNames_perm hall, List.append_assoc, countNames_append, countNames_eq_zero hsilent,
      Nat.add_zero]
  refine ⟨t', ?_, ⟨?_, ?_, ?_, ?_⟩, hren.arenas⟩
  · rw [Tree.respellVariables, reachablePipes, h.read, hnames]
    exact hcount
  · rw [hren.root, h.root, map_tag_blockRename]
  · intro e he
    rw [blockEntries_rename] at he
    obtain ⟨x, hx, rfl⟩ := List.mem_map.mp he
    rw [hall.mem_iff, List.append_assoc, List.mem_append] at hx
    rcases hx with hx | hx
    · exact hren.new _ (List.mem_map_of_mem hx)
    · rw [Entry.rename_of_names_nil _ (hsilent x hx)]
      have hmem : x ∈ blockEntries b := by
        rw [hall.mem_iff, List.append_assoc]
        exact List.mem_append_right _ hx
      exact hren.keeps (h.has x hmem) fun hmem => hnodup.2.2 _ hmem _ (List.mem_map_of_mem hx) rfl
  · rw [blockKeys_rename]
    exact h.nodup
  · intro e he
    rw [blockEntries_rename] at he
    obtain ⟨x, hx, rfl⟩ := List.mem_map.mp he
    exact Entry.sound_rename _ (h.sound x hx)

end Tree

end FlatTemplate

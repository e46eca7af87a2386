import FlatTemplate.Proofs.Session.Naming
import FlatTemplate.Proofs.Temporaries.Conserving

namespace FlatTemplate

theorem exists_paren {cs : List (Command Handle)} {id : PipeId} {node : PipeNode}
    (h : .pipe id node ∈ commandEntries cs) : ∃ e, .expr e (.paren id) ∈ commandEntries cs := by
  have hkey : (id.key : Key) ∈ (commandEntries cs).map Entry.key := List.mem_map.mpr ⟨_, h, rfl⟩
  rcases List.mem_append.mp ((commandChildren_perm cs).mem_iff.mpr hkey) with hmem | hmem
  · obtain ⟨c, -, hc⟩ := List.mem_map.mp hmem
    cases hc
  · obtain ⟨e, he, hchild⟩ := List.mem_flatMap.mp hmem
    match e with
    | .expr x (.paren inner) =>
      obtain rfl := eq_of_heq (Sigma.mk.inj (List.mem_singleton.mp hchild)).2
      exact ⟨x, he⟩
    | .stmt .. => exact absurd rfl (commandEntries_kind_ne_stmt cs _ he)
    | .expr _ (.atom _) => cases hchild
    | .pipe _ node | .command _ node =>
      obtain ⟨c, -, hc⟩ := List.mem_map.mp hchild
      cases hc

namespace Tree

variable {t : Tree} {b : Block Handle} {id : PipeId} {x : Declaration}

theorem Holds.not_paren (h : t.Holds b) {host : StmtId} {node : StmtNode}
    (hhost : .stmt host node ∈ blockEntries b) (hchild : id.key ∈ (Entry.stmt host node).children)
    (e : ExprId) : .expr e (.paren id) ∉ blockEntries b := by
  intro he
  have howner := h.singlyOwned.owner _ _ (h.reachable hhost) (h.reachable he) id.key hchild
    (List.mem_singleton_self _)
  cases howner

theorem Holds.mem_nested_iff (h : t.Holds b) : x ∈ blockNested b ↔
    x ∈ declarationsIn (blockEntries b) ∧ ∃ e, .expr e (.paren x.pipe) ∈ blockEntries b := by
  have hperm := perm_blockNested b
  constructor
  · intro hx
    refine ⟨hperm.mem_iff.mpr (List.mem_append_right _ hx), ?_⟩
    obtain ⟨s, hs, hx⟩ := List.mem_flatMap.mp hx
    rw [Stmt.nested] at hx
    cases hp : s.governing? with
    | none => simp [hp] at hx
    | some p =>
      rw [hp] at hx
      obtain ⟨node, hnode, -⟩ := mem_declarationsIn.mp hx
      obtain ⟨e, he⟩ := exists_paren hnode
      refine ⟨e, (perm_entries_heads b).mem_iff.mpr (List.mem_append_right _ ?_)⟩
      refine List.mem_flatMap.mpr ⟨s, hs, ?_⟩
      rw [Stmt.ownEntries, hp]
      obtain ⟨_, _, commands⟩ := p
      exact List.mem_cons_of_mem _ he
  · rintro ⟨hx, e, he⟩
    -- A pipeline that governs a statement has a parent already, so it cannot stand in parentheses.
    refine (List.mem_append.mp (hperm.mem_iff.mp hx)).resolve_left fun hown => ?_
    obtain ⟨s, hs, hown⟩ := List.mem_flatMap.mp hown
    obtain ⟨s, hstmt, rfl⟩ := List.mem_map.mp hs
    rw [Stmt.ownDeclared, Stmt.governing?_bare] at hown
    cases hp : s.governing? with
    | none => simp [hp] at hown
    | some p =>
      have hpipe : p.tag = x.pipe := by
        rw [hp] at hown
        obtain ⟨id, decls, commands⟩ := p
        cases decls with
        | nil => cases hown
        | cons name names =>
          obtain rfl := List.mem_singleton.mp hown
          rfl
      have hhost : s.entry ∈ blockEntries b := stmt_mem_blockEntries.mpr ⟨s, hstmt, rfl, rfl⟩
      have hchild : x.pipe.key ∈ s.entry.children := by
        rw [← hpipe]
        cases s with
        | text => cases hp
        | action | branch =>
          obtain rfl := Option.some.inj hp
          simp [Stmt.entry, Stmt.node, Entry.children]
        | invoke =>
          obtain rfl := hp
          simp [Stmt.entry, Stmt.node, Entry.children]
      exact h.not_paren hhost hchild e he

theorem Holds.not_acts (h : t.Holds b) (hx : x ∈ blockNested b) : ¬Acts b x.pipe := by
  rintro ⟨host, hhost⟩
  obtain ⟨-, e, he⟩ := h.mem_nested_iff.mp hx
  exact h.not_paren hhost (List.mem_singleton_self _) e he

def Encloses (t : Tree) (id : PipeId) (x : String) : Prop :=
  (∃ e, t.Reachable (.expr e (.paren id))) ∧
    ∃ node, t.Reachable (.pipe id node) ∧ node.decls.head? = some x

/-- What `t'` keeps of the operands and declarations of `t`, when `taken` temporaries have been
taken. It reads a variable in each of the operands `added`, and the declarations `turned` have
become actions. -/
structure Conserves (config : Config) (t t' : Tree) (taken : Nat)
    (added : List (ExprId × String)) (turned : List (PipeId × String)) : Prop where
  once : t'.SinglyOwned
  atoms : ∀ id a, t.Reachable (.expr id (.atom a)) →
    t'.Reachable (.expr id (.atom (a.rename (respell config.userTag))))
  declarations : ∀ id node, t.Reachable (.pipe id node) → node.decls ≠ [] →
    ∃ node', t'.Reachable (.pipe id node') ∧
      node'.decls = node.decls.map (respell config.userTag)
  others : ∀ id a, (t'.Reachable (.expr id (.atom a)) ∧ ∀ a', ¬t.Reachable (.expr id (.atom a'))) ↔
    ∃ name, (id, name) ∈ added ∧ a = .var [name]
  turned_iff : ∀ id x, (id, x) ∈ turned ↔
    t.Encloses id x ∧ ∃ host, t'.Reachable (.stmt host (.action id))
  names : (added.map Prod.snd).Perm ((List.range taken).map (temporary config.tempStem) ++
    turned.map fun x => respell config.userTag x.2)
  nodup_added : (added.map Prod.fst).Nodup
  nodup_turned : (turned.map Prod.fst).Nodup

variable {t' : Tree} {b' : Block Handle} {config : Config}

theorem Holds.others_iff (h : t.Holds b) (h' : t'.Holds b') {g : String → String}
    {added : List (ExprId × String)}
    (hatoms : (atomsIn (blockEntries b')).Perm
      (added.map reading ++ atomsIn (blockEntries (blockRename g b)))) (id : ExprId) (a : Atom) :
    (t'.Reachable (.expr id (.atom a)) ∧ ∀ a', ¬t.Reachable (.expr id (.atom a'))) ↔
      ∃ name, (id, name) ∈ added ∧ a = .var [name] := by
  have hnodup := (hatoms.map Entry.key).nodup_iff.mp (nodup_atomsIn h'.nodup)
  rw [List.map_append, List.nodup_append] at hnodup
  have hmem : t'.Reachable (.expr id (.atom a)) ↔ .expr id (.atom a) ∈ added.map reading ∨
      .expr id (.atom a) ∈ (blockEntries b).map (Entry.rename g) := by
    rw [h'.reachable_iff, ← mem_atomsIn, hatoms.mem_iff, List.mem_append, mem_atomsIn,
      blockEntries_rename]
  rw [hmem]
  constructor
  · rintro ⟨hin | hin, hnone⟩
    · obtain ⟨⟨id', name⟩, hadded, heq⟩ := List.mem_map.mp hin
      cases heq
      exact ⟨name, hadded, rfl⟩
    · obtain ⟨e, he, heq⟩ := List.mem_map.mp hin
      match e with
      | .expr id' (.atom a') =>
        cases heq
        exact absurd (h.reachable he) (hnone a')
      | .stmt .. | .pipe .. | .command .. | .expr _ (.paren _) => cases heq
  · rintro ⟨name, hadded, rfl⟩
    have hreading : .expr id (.atom (.var [name])) ∈ added.map reading :=
      List.mem_map.mpr ⟨_, hadded, rfl⟩
    refine ⟨.inl hreading, fun a' ha' => ?_⟩
    have hatom : .expr id (.atom (a'.rename g)) ∈ atomsIn (blockEntries (blockRename g b)) := by
      rw [mem_atomsIn, blockEntries_rename]
      exact List.mem_map.mpr ⟨_, h.mem_entries ha', rfl⟩
    exact hnodup.2.2 _ (List.mem_map.mpr ⟨_, hreading, rfl⟩) _
      (List.mem_map.mpr ⟨_, hatom, rfl⟩) rfl

theorem Holds.encloses_iff (h : t.Holds b) {name : String} :
    t.Encloses id name ↔ ∃ x ∈ blockNested b, x.pipe = id ∧ x.name = name := by
  constructor
  · rintro ⟨⟨e, he⟩, ⟨decls, commands⟩, hnode, hname⟩
    obtain ⟨others, rfl⟩ := List.head?_eq_some_iff.mp hname
    have hx : ⟨id, name, others⟩ ∈ declarationsIn (blockEntries b) :=
      mem_declarationsIn.mpr ⟨_, h.mem_entries hnode, rfl⟩
    exact ⟨_, h.mem_nested_iff.mpr ⟨hx, e, h.mem_entries he⟩, rfl, rfl⟩
  · rintro ⟨x, hx, rfl, rfl⟩
    obtain ⟨hx, e, he⟩ := h.mem_nested_iff.mp hx
    obtain ⟨node, hnode, hdecls⟩ := mem_declarationsIn.mp hx
    exact ⟨⟨e, h.reachable he⟩, node, h.reachable hnode, by rw [hdecls]; rfl⟩

theorem Holds.turned_iff (h : t.Holds b) (h' : t'.Holds b') {g : String → String}
    {turned : List Declaration} (hturned : ∀ x ∈ turned, x ∈ blockNested b)
    (hnested : (blockNested (blockRename g b)).Perm
      (turned.map (Declaration.rename g) ++ blockNested b'))
    (hacts : ∀ x ∈ turned, Acts b' x.pipe) (hx : x ∈ blockNested b) :
    x ∈ turned ↔ Acts b' x.pipe := by
  refine ⟨hacts x, fun hact => ?_⟩
  have hmem : x.rename g ∈ turned.map (Declaration.rename g) ++ blockNested b' := by
    rw [← hnested.mem_iff, blockNested_rename]
    exact List.mem_map_of_mem hx
  rcases List.mem_append.mp hmem with hmem | hmem
  · obtain ⟨y, hy, heq⟩ := List.mem_map.mp hmem
    have hpipe : (y.rename g).pipe = (x.rename g).pipe := congrArg Declaration.pipe heq
    obtain rfl := List.inj_on_of_nodup_map (nodup_blockNested h.nodup) (hturned y hy) hx hpipe
    exact hy
  · exact (h'.not_acts hmem hact).elim

theorem Holds.conserves (h : t.Holds b) (h' : t'.Holds b') {d₀ d : Draft}
    {added : List (ExprId × String)} {turned : List Declaration}
    (hstart : d₀.block = blockRename (respell config.userTag) b) (hend : d.block = b')
    (hd : d₀.Conserves config.tempStem d added turned) :
    ∃ turned, t.Conserves config t' d.taken added turned := by
  subst hend
  obtain ⟨hatoms, hnames, hdeclarations, hnested, hacts⟩ := hd
  rw [hstart] at hatoms hdeclarations hnested
  have hmem : ∀ x ∈ turned, ∃ y, y.rename (respell config.userTag) = x ∧ y ∈ blockNested b := by
    intro x hx
    have hx := hnested.mem_iff.mpr (List.mem_append_left _ hx)
    rw [blockNested_rename] at hx
    obtain ⟨y, hy, rfl⟩ := List.mem_map.mp hx
    exact ⟨y, rfl, hy⟩
  -- The declarations of the respelled template are those of the original, respelled.
  obtain ⟨turned, rfl, hturned⟩ := exists_map_eq hmem
  have hiff {x : Declaration} (hx : x ∈ blockNested b) : x ∈ turned ↔ Acts d.block x.pipe :=
    h.turned_iff h' hturned hnested (fun y hy => hacts (y.rename _) (List.mem_map_of_mem hy)) hx
  refine ⟨turned.map fun x => (x.pipe, x.name), h'.singlyOwned, fun id a ha => ?_,
    fun id node hnode hne => ?_, h.others_iff h' hatoms, fun id name => ?_, ?_, ?_, ?_⟩
  · have hatom : .expr id (.atom (a.rename (respell config.userTag))) ∈
        atomsIn (blockEntries (blockRename (respell config.userTag) b)) := by
      rw [mem_atomsIn, blockEntries_rename]
      exact List.mem_map.mpr ⟨_, h.mem_entries ha, rfl⟩
    exact h'.reachable (mem_atomsIn.mp (hatoms.mem_iff.mpr (List.mem_append_right _ hatom)))
  · obtain ⟨name, others, hdecls⟩ := List.exists_cons_of_ne_nil hne
    have hx : (⟨id, name, others⟩ : Declaration) ∈ declarationsIn (blockEntries b) :=
      mem_declarationsIn.mpr ⟨node, h.mem_entries hnode, hdecls⟩
    rw [blockEntries_rename, declarationsIn_rename] at hdeclarations
    obtain ⟨node', hnode', hdecls'⟩ :=
      mem_declarationsIn.mp (hdeclarations (List.mem_map_of_mem hx))
    exact ⟨node', h'.reachable hnode', by rw [hdecls', hdecls]; rfl⟩
  · simp only [h.encloses_iff, h'.reachable_iff, List.mem_map, Prod.mk.injEq]
    constructor
    · rintro ⟨x, hx, rfl, rfl⟩
      exact ⟨⟨x, hturned x hx, rfl, rfl⟩, (hiff (hturned x hx)).mp hx⟩
    · rintro ⟨⟨x, hx, rfl, rfl⟩, hact⟩
      exact ⟨x, (hiff hx).mpr hact, rfl, rfl⟩
  · rw [List.map_map] at hnames ⊢
    exact hnames
  · have hkeys := (hatoms.map Entry.key).nodup_iff.mp (nodup_atomsIn h'.nodup)
    rw [List.map_append, List.nodup_append, List.map_map] at hkeys
    have hadded := hkeys.1
    rw [show Entry.key ∘ reading = (Handle.key : ExprId → Key) ∘ Prod.fst from rfl,
      ← List.map_map] at hadded
    exact hadded.of_map _
  · have hpipes : ((blockNested (blockRename (respell config.userTag) b)).map
        Declaration.pipe).Nodup := nodup_blockNested (by rw [blockKeys_rename]; exact h.nodup)
    rw [(hnested.map _).nodup_iff, List.map_append, List.nodup_append, List.map_map] at hpipes
    rw [List.map_map]
    exact hpipes.1

/-- All that a session on the tree goes through keeps its operands and declarations. What is added
to them are a reference to each temporary that is taken and one to each variable that was declared
in parentheses and is now declared by an action. -/
theorem session_conserves (ht : t.SinglyOwned) (hvalid : config.validate = .ok ()) :
    ∃ s₀, Session.start config t = .ok s₀ ∧
      (∀ s, s₀.Passes s → ∃ added turned, t.Conserves config s.tree s.names.taken added turned) ∧
      ∃ outcome s, t.canonicalize config = .ok outcome ∧ s₀.Passes s ∧ outcome.tree = s.tree ∧
        ∀ stats, outcome.result = .ok stats → stats.temporaries = s.names.taken := by
  obtain ⟨b, hb⟩ := ht.exists_holds
  obtain ⟨s₀, hstart, h₀, hnames, -⟩ := hb.start config
  refine ⟨s₀, hstart, fun s hs => ?_, hb.exists_outcome hvalid hstart⟩
  obtain ⟨n, b', hb', -, hrun⟩ := hs.run h₀
  rw [hnames] at hrun
  obtain ⟨added, turned, hconserves⟩ := hrun.conserves (by rw [Session.draft, hnames])
  obtain ⟨turned, hd⟩ := hb.conserves hb' rfl rfl hconserves
  exact ⟨added, turned, hd⟩

def enclosedCall : Tree :=
  let field (name : String) : Expr Untagged := .atom () (.field [name])
  let call (name : String) (args : List (Expr Untagged)) : Command Untagged :=
    .mk () (.atom () (.identifier name)) args
  .ofBlock "" [.action () (.mk () [] [call "f"
    [.paren () (.mk () ["$x"] [call "g" [field "A"]]), .paren () (.mk () [] [call "h" [field "B"]])]])]

theorem parse_enclosedCall :
    Tree.parse (delimited "f ($x := g .A) (h .B)") = .ok enclosedCall := by cbv

theorem session_conserves_enclosedCall :
    enclosedCall.Encloses ⟨0⟩ "$x" ∧ ∃ (outcome : Outcome) (s : Session) (added : _) (turned : _),
      enclosedCall.canonicalize {} = .ok outcome ∧ outcome.tree = s.tree ∧
        enclosedCall.Conserves {} s.tree s.names.taken added turned := by
  have hparsed := parsed_of_parse parse_enclosedCall
  obtain ⟨s₀, -, hpasses, outcome, s, hrun, hs, htree, -⟩ :=
    session_conserves hparsed.singlyOwned Config.validate_default
  obtain ⟨added, turned, hconserves⟩ := hpasses s hs
  refine ⟨?_, outcome, s, added, turned, hrun, htree, hconserves⟩
  obtain ⟨b, -, hb⟩ := hparsed.holds
  have hnested : enclosedCall.read.map (fun b =>
      decide (∃ x ∈ blockNested b, x.pipe = ⟨0⟩ ∧ x.name = "$x")) = .ok true := by cbv
  rw [hb.read] at hnested
  exact hb.encloses_iff.mpr (of_decide_eq_true (Except.ok.inj hnested))

end Tree

end FlatTemplate

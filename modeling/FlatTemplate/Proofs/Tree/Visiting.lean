import FlatTemplate.Proofs.Session.Safety
import FlatTemplate.Proofs.Template.Sites
import FlatTemplate.Proofs.Template.Skeleton

namespace FlatTemplate

namespace Stmt

variable {s : Stmt Handle} {p : Pipe Handle}

theorem role_of_action {q : PipeId} (hnode : s.node = .action q) (hp : s.governing? = some p) :
    s.role = p.actionRole := by
  match s with
  | .action id _ =>
    obtain rfl := Option.some.inj hp
    rfl

theorem role_of_not_action (hnode : ∀ q, s.node ≠ .action q) : s.role = .subject := by
  match s with
  | .action _ p => exact absurd rfl (hnode p.tag)
  | .text .. | .branch .. | .invoke .. => rfl

end Stmt

theorem Pipe.actionRole_print {p : Pipe Handle} (h : p.decls = []) : p.actionRole = .print := by
  rw [actionRole, h]
  rfl

theorem Pipe.actionRole_assign {p : Pipe Handle} (h : p.decls ≠ []) : p.actionRole = .assign := by
  rw [actionRole, if_neg]
  intro hempty
  exact h (List.isEmpty_iff.mp hempty)

namespace Tree

variable {t : Tree} {b : Block Handle}

def planAt? (t : Tree) (site : Site PipeId) : Except Fault (Option Plan) := do
  let node ← t.pipes.get site.pipe
  return (← site.role.match? t site.pipe node.commands).map fun found =>
    { found with host := site.host }

def Nests (t : Tree) (outer inner : PipeId) : Prop :=
  ∃ p c node x, t.Has (.pipe outer p) ∧ c ∈ p.commands ∧ t.Has (.command c node) ∧
    x ∈ node.operands ∧ t.Has (.expr x (.paren inner))

/-- A pipeline governs the reachable statement `host`, or stands in parentheses in a pipeline that
does so or stands there itself. -/
inductive Hosts (t : Tree) (host : StmtId) : Role → PipeId → Prop where
  | print {pipe commands} (hs : t.Reachable (.stmt host (.action pipe)))
      (hp : t.Has (.pipe pipe ⟨[], commands⟩)) : Hosts t host .print pipe
  | assign {pipe node} (hs : t.Reachable (.stmt host (.action pipe)))
      (hp : t.Has (.pipe pipe node)) (hdecls : node.decls ≠ []) : Hosts t host .assign pipe
  | branch {kind pipe body elseBody}
      (hs : t.Reachable (.stmt host (.branch kind pipe body elseBody))) :
      Hosts t host .subject pipe
  | invoke {name pipe} (hs : t.Reachable (.stmt host (.invoke name (some pipe)))) :
      Hosts t host .subject pipe
  | nested {role outer inner} (h : Hosts t host role outer) (hn : t.Nests outer inner) :
      Hosts t host .nested inner

theorem planAt?_of_has {f : Fresh} {s : Site (Pipe Handle)} (has : ∀ x ∈ s.pipe.entries, t.Has x) :
    t.planAt? (s.map Pipe.tag) = .ok (s.plan? f) := by
  have hmatch := match?_of_has f s.role has
  rw [planAt?]
  simp only [Site.map, get_pipe has, ok_bind, hmatch, pure_eq_ok]
  rfl

theorem nests_of_operand {p : Pipe Handle} (has : ∀ x ∈ p.nodes, t.Has x) {c : Command Handle}
    (hc : c ∈ p.commands) {x : ExprId} {inner : Pipe Handle} (hx : .paren x inner ∈ c.operands) :
    t.Nests p.tag inner.tag := by
  refine ⟨_, c.tag, _, x, has _ p.entry_mem_nodes, List.mem_map_of_mem hc,
    has _ (Command.entry_mem_nodes hc), ?_, has _ (Expr.entry_mem_nodes hc hx)⟩
  obtain ⟨id, head, args⟩ := c
  exact List.mem_map_of_mem (f := Expr.tag) hx

theorem Nests.exists_operand {p : Pipe Handle} (has : ∀ x ∈ p.nodes, t.Has x) {q : PipeId}
    (h : t.Nests p.tag q) :
    ∃ c ∈ p.commands, ∃ x inner, .paren x inner ∈ c.operands ∧ inner.tag = q := by
  obtain ⟨node, _, cnode, _, hp, hmem, hcommand, hoperand, hexpr⟩ := h
  injection hp.inj (has _ p.entry_mem_nodes) rfl with _ hnode
  subst hnode
  obtain ⟨c, hc, rfl⟩ := List.mem_map.mp hmem
  injection hcommand.inj (has _ (Command.entry_mem_nodes hc)) rfl with _ hcnode
  subst hcnode
  obtain ⟨e, he, rfl⟩ : ∃ e ∈ c.operands, e.tag = _ := List.mem_map.mp hoperand
  injection hexpr.inj (has _ (Expr.entry_mem_nodes hc he)) rfl with _ henode
  cases e with
  | atom => cases henode
  | paren x inner =>
    refine ⟨c, hc, x, inner, he, ?_⟩
    injection henode with hinner
    exact hinner.symm

section Held

variable (root : t.root = b.map Stmt.tag) (held : ∀ e ∈ blockEntries b, t.Reachable e)

include held in
theorem has_nodes {p : Pipe Handle} (hp : p ∈ blockPipes b) : ∀ x ∈ p.nodes, t.Has x :=
  fun x hx => (held x (Pipe.nodes_subset hp hx)).has

include held in
theorem Hosts.of_mem_commandPipes {host : StmtId} {role : Role} {p q : Pipe Handle}
    (h : t.Hosts host role p.tag) (hp : p ∈ blockPipes b) (hq : q ∈ commandPipes p.commands) :
    t.Hosts host .nested q.tag := by
  induction hn : p.size using Nat.strongRecOn generalizing p role with | _ n ih
  obtain ⟨c, hc, hq⟩ := mem_commandPipes.mp hq
  obtain ⟨e, he, hq⟩ := Command.mem_pipes.mp hq
  cases e with
  | atom => cases hq
  | paren x inner =>
    have hinner := h.nested (nests_of_operand (has_nodes held hp) hc he)
    rw [Expr.pipes, Pipe.pipes_eq] at hq
    rcases List.mem_cons.mp hq with rfl | hq
    · exact hinner
    · have hlt := Pipe.size_lt_of_operand hc he
      exact ih inner.size (hn ▸ hlt) hinner (mem_blockPipes_of_operand hp hc he) hq rfl

include held in
theorem hosts_governing {s : Stmt Handle} (hs : s ∈ blockStmts b) {p : Pipe Handle}
    (hp : s.governing? = some p) : t.Hosts s.tag s.role p.tag := by
  have hreach : t.Reachable s.entry := held _ (stmt_mem_blockEntries.mpr ⟨s, hs, rfl, rfl⟩)
  match s with
  | .action id p =>
    have hmem := mem_blockPipes_of_governing hs rfl
    have hentry := has_nodes held hmem _ p.entry_mem_nodes
    obtain rfl := Option.some.inj hp
    obtain ⟨id', decls, commands⟩ := p
    cases decls with
    | nil => exact .print hreach hentry
    | cons name names => exact .assign hreach hentry (List.cons_ne_nil name names)
  | .branch .. =>
    obtain rfl := Option.some.inj hp
    exact .branch hreach
  | .invoke _ _ (some p) =>
    obtain rfl := Option.some.inj hp
    exact .invoke hreach

include held in
theorem hosts_of_mem_sites {site : Site (Pipe Handle)} (h : site ∈ blockSites b) :
    t.Hosts site.host site.role site.pipe.tag := by
  obtain ⟨s, hs, p, hp, hhost, hsite⟩ := mem_blockSites.mp h
  have hgoverning := hosts_governing held hs hp
  rw [hhost]
  rcases hsite with ⟨hrole, hpipe⟩ | ⟨hrole, hpipe⟩
  · rwa [hrole, hpipe]
  · rw [hrole]
    exact hgoverning.of_mem_commandPipes held (mem_blockPipes_of_governing hs hp) hpipe

include root held in
theorem exists_site_of_stmt {host : StmtId} {node : StmtNode} (hs : t.Reachable (.stmt host node))
    {q : PipeId} (hq : node.governing? = some q) :
    ∃ (s : Stmt Handle) (p : Pipe Handle), s.node = node ∧ s.governing? = some p ∧ p.tag = q ∧
      ⟨host, s.role, p⟩ ∈ blockSites b := by
  have hentry := mem_entries_of_reachable root (fun e he => (held e he).has) hs
  obtain ⟨s, hmem, rfl, rfl⟩ := stmt_mem_blockEntries.mp hentry
  have hp : ∃ p, s.governing? = some p ∧ p.tag = q := by
    match s with
    | .action _ p | .branch _ _ p _ _ | .invoke _ _ (some p) => exact ⟨p, rfl, Option.some.inj hq⟩
  obtain ⟨p, hp, htag⟩ := hp
  exact ⟨s, p, rfl, hp, htag, mem_blockSites.mpr ⟨s, hmem, p, hp, rfl, .inl ⟨rfl, rfl⟩⟩⟩

include held in
theorem decls_of_mem_sites {site : Site (Pipe Handle)} (h : site ∈ blockSites b) {node : PipeNode}
    (hp : t.Has (.pipe site.pipe.tag node)) : node.decls = site.pipe.decls := by
  have hentry := has_nodes held (Site.mem_blockPipes h) _ site.pipe.entry_mem_nodes
  injection hp.inj hentry rfl with _ hnode
  rw [hnode]

include root held in
theorem Hosts.exists_site {host : StmtId} {role : Role} {q : PipeId} (h : t.Hosts host role q) :
    ∃ p, ⟨host, role, p⟩ ∈ blockSites b ∧ p.tag = q := by
  induction h with
  | print hs hp =>
    obtain ⟨s, p, hnode, hgoverning, rfl, hsite⟩ := exists_site_of_stmt root held hs rfl
    have hdecls : [] = p.decls := decls_of_mem_sites held hsite hp
    rw [Stmt.role_of_action hnode hgoverning, Pipe.actionRole_print hdecls.symm] at hsite
    exact ⟨p, hsite, rfl⟩
  | assign hs hp hdecls =>
    obtain ⟨s, p, hnode, hgoverning, rfl, hsite⟩ := exists_site_of_stmt root held hs rfl
    rw [decls_of_mem_sites held hsite hp] at hdecls
    rw [Stmt.role_of_action hnode hgoverning, Pipe.actionRole_assign hdecls] at hsite
    exact ⟨p, hsite, rfl⟩
  | branch hs | invoke hs =>
    obtain ⟨s, p, hnode, hgoverning, rfl, hsite⟩ := exists_site_of_stmt root held hs rfl
    rw [Stmt.role_of_not_action (hnode ▸ nofun)] at hsite
    exact ⟨p, hsite, rfl⟩
  | nested _ hn ih =>
    obtain ⟨p, hsite, rfl⟩ := ih
    have hnodes := has_nodes held (Site.mem_blockPipes hsite)
    obtain ⟨c, hc, x, inner, hx, rfl⟩ := hn.exists_operand hnodes
    exact ⟨inner, mem_blockSites_of_operand hsite hc hx, rfl⟩

include root held in
theorem mem_sites_iff_hosts {s : Site PipeId} :
    s ∈ (blockSites b).map (Site.map Pipe.tag) ↔ t.Hosts s.host s.role s.pipe := by
  constructor
  · intro hs
    obtain ⟨site, hsite, rfl⟩ := List.mem_map.mp hs
    exact hosts_of_mem_sites held hsite
  · intro hs
    obtain ⟨p, hsite, hp⟩ := hs.exists_site root held
    exact List.mem_map.mpr ⟨_, hsite, by rw [Site.map, hp]⟩

include root held in
theorem mem_pipe_tags_iff_reaches {q : PipeId} :
    q ∈ (blockPipes b).map Pipe.tag ↔ t.Reaches q.key := by
  rw [mem_pipe_tags]
  constructor
  · intro hq
    obtain ⟨e, he, hkey⟩ := List.mem_map.mp hq
    have hkey : e.key = q.key := hkey
    rw [← hkey]
    exact (held e he).reaches
  · exact mem_keys_of_reaches root fun e he => (held e he).has

include held in
theorem planAt?_of_mem_sites (f : Fresh) {site : Site (Pipe Handle)} (h : site ∈ blockSites b) :
    t.planAt? (site.map Pipe.tag) = .ok (site.plan? f) := by
  apply planAt?_of_has
  intro x hx
  exact (held x (Pipe.entries_subset (Site.mem_blockPipes h) hx)).has

end Held

/-- The rewrite that the search finds is that of the first pipeline in the list of the reachable
pipelines, each of which is listed once, whose site has one. -/
theorem OwnedOnce.plan?_first (h : t.OwnedOnce) :
    ∃ (sites : List (Site PipeId)) (plans : Site PipeId → Option Plan),
      t.reachablePipes = .ok (sites.map Site.pipe) ∧ (sites.map Site.pipe).Nodup ∧
      (∀ q : PipeId, q ∈ sites.map Site.pipe ↔ t.Reaches q.key) ∧
      (∀ s, s ∈ sites ↔ t.Hosts s.host s.role s.pipe) ∧
      (∀ s ∈ sites, t.planAt? s = .ok (plans s)) ∧
      t.plan? = .ok (sites.findSome? plans) := by
  obtain ⟨b, root, nodup, held⟩ := h.exists_block
  have has : ∀ e ∈ blockEntries b, t.Has e := fun e he => (held e he).has
  let f := t.fresh ""
  have hpipes : ((blockSites b).map (Site.map Pipe.tag)).map Site.pipe =
      (blockPipes b).map Pipe.tag := by
    rw [← map_pipe_blockSites, List.map_map, List.map_map]
    rfl
  let plans (s : Site PipeId) : Option Plan := (t.planAt? s).toOption.join
  have hplans : ∀ s ∈ blockSites b, s.plan? f = plans (s.map Pipe.tag) := by
    intro s hs
    rw [show plans _ = (t.planAt? _).toOption.join from rfl, planAt?_of_mem_sites held f hs]
    rfl
  refine ⟨(blockSites b).map (Site.map Pipe.tag), plans, ?_⟩
  rw [hpipes]
  refine ⟨?_, nodup_pipe_tags nodup, fun q => mem_pipe_tags_iff_reaches root held,
    fun s => mem_sites_iff_hosts root held, ?_, ?_⟩
  · rw [reachablePipes, read_of_has root has nodup, ok_bind, pure_eq_ok]
  · intro s hs
    obtain ⟨site, hsite, rfl⟩ := List.mem_map.mp hs
    rw [planAt?_of_mem_sites held f hsite, hplans site hsite]
  · rw [plan?_of_has f root has nodup, plan_blockRewrite?, List.findSome?_map]
    exact congrArg _ (findSome?_congr hplans)

end Tree

def pipedInElse : Tree :=
  let subject : Pipe Untagged := .mk () [] [.mk () (.atom () (.bool true)) []]
  let piped : Pipe Untagged :=
    .mk () [] [.mk () (.atom () (.str "b")) [], .mk () (.atom () (.identifier "g")) []]
  .ofBlock "" [.branch () .cond subject [.text () "a"]
    [.action () (.mk () [] [.mk () (.atom () (.number "1")) [.paren () piped]])]]

theorem parse_pipedInElse :
    Tree.parse (delimited "if true" ++ "a" ++ delimited "else" ++ delimited "1 (\"b\" | g)" ++
      delimited "end") = .ok pipedInElse := by cbv

theorem hosts_pipedInElse : pipedInElse.Hosts ⟨1⟩ .nested ⟨1⟩ := by
  have hroots : pipedInElse.roots = [⟨.stmt, ⟨2⟩⟩] := by cbv
  have hbranch : pipedInElse.Has (.stmt ⟨2⟩ (.branch .cond ⟨0⟩ [⟨0⟩] [⟨1⟩])) := by cbv
  have haction : pipedInElse.Has (.stmt ⟨1⟩ (.action ⟨2⟩)) := by cbv
  have houter : pipedInElse.Has (.pipe ⟨2⟩ ⟨[], [⟨3⟩]⟩) := by cbv
  have hcommand : pipedInElse.Has (.command ⟨3⟩ ⟨⟨1⟩, [⟨4⟩]⟩) := by cbv
  have hexpr : pipedInElse.Has (.expr ⟨4⟩ (.paren ⟨1⟩)) := by cbv
  have hreaches : pipedInElse.ReachesBy 1 ⟨.stmt, ⟨1⟩⟩ :=
    .child hbranch (.root (hroots ▸ List.mem_singleton_self _)) (by decide)
  have hnests : pipedInElse.Nests ⟨2⟩ ⟨1⟩ :=
    ⟨_, _, _, _, houter, List.mem_singleton_self _, hcommand, by decide, hexpr⟩
  exact .nested (.print ⟨haction, 1, hreaches⟩ houter) hnests

theorem plan?_first_pipedInElse :
    pipedInElse.OwnedOnce ∧ ∃ (sites : List (Site PipeId)) (plans : Site PipeId → Option Plan),
      sites.map Site.pipe = [⟨0⟩, ⟨2⟩, ⟨1⟩] ∧ ⟨⟨1⟩, .nested, ⟨1⟩⟩ ∈ sites ∧
      (∀ s ∈ sites, pipedInElse.planAt? s = .ok (plans s)) ∧
      sites.findSome? plans = some ⟨⟨.foldPipedValue, .fold ⟨1⟩⟩, ⟨1⟩⟩ := by
  have howned := (Tree.parsed_of_parse parse_pipedInElse).singlyOwned.toOwnedOnce
  obtain ⟨sites, plans, hpipes, -, -, hhosts, hplans, hplan⟩ := Tree.OwnedOnce.plan?_first howned
  have hlist : pipedInElse.reachablePipes = .ok [⟨0⟩, ⟨2⟩, ⟨1⟩] := by cbv
  have hfound : pipedInElse.plan? = .ok (some ⟨⟨.foldPipedValue, .fold ⟨1⟩⟩, ⟨1⟩⟩) := by cbv
  refine ⟨howned, sites, plans, ?_, (hhosts _).mpr hosts_pipedInElse, hplans, ?_⟩
  · exact Except.ok.inj (hpipes.symm.trans hlist)
  · exact Except.ok.inj (hplan.symm.trans hfound)

end FlatTemplate

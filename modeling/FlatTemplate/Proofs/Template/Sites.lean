import FlatTemplate.Proofs.Template.Nesting

namespace FlatTemplate

structure Site (π : Type) where
  host : StmtId
  role : Role
  pipe : π
  deriving DecidableEq, Repr

def Site.map {π ρ : Type} (g : π → ρ) (s : Site π) : Site ρ := ⟨s.host, s.role, g s.pipe⟩

section Lists

variable {ι : NodeKind → Type}

theorem Pipe.pipes_eq (p : Pipe ι) : p.pipes = p :: commandPipes p.commands := by
  obtain ⟨id, decls, commands⟩ := p
  rfl

theorem mem_commandPipes_of_operand {cs : List (Command ι)} {c : Command ι} {id : ι .expr}
    {inner : Pipe ι} (hc : c ∈ cs) (hx : .paren id inner ∈ c.operands) :
    inner ∈ commandPipes cs := by
  apply mem_commandPipes.mpr
  refine ⟨c, hc, Command.mem_pipes.mpr ⟨_, hx, ?_⟩⟩
  exact inner.mem_pipes_self

theorem Pipe.size_lt_of_operand {p : Pipe ι} {c : Command ι} {id : ι .expr} {inner : Pipe ι}
    (hc : c ∈ p.commands) (hx : .paren id inner ∈ c.operands) : inner.size < p.size := by
  obtain ⟨_, _, commands⟩ := p
  obtain ⟨_, head, args⟩ := c
  obtain ⟨pre, post, rfl⟩ := List.append_of_mem hc
  simp only [Pipe.size, commandsSize_append, commandsSize, Command.size]
  rcases List.mem_cons.mp hx with rfl | hx
  · simp only [Expr.size]
    omega
  · obtain ⟨before, after, rfl⟩ := List.append_of_mem hx
    simp only [argsSize_append, argsSize, Expr.size]
    omega

end Lists

section Handles

variable {b : Block Handle}

theorem mem_blockPipes_of_governing {s : Stmt Handle} {p : Pipe Handle} (hs : s ∈ blockStmts b)
    (hp : s.governing? = some p) : p ∈ blockPipes b :=
  mem_blockPipes.mpr ⟨s, hs, p, hp, p.mem_pipes_self⟩

theorem Pipe.entries_subset {p : Pipe Handle} (hp : p ∈ blockPipes b) :
    p.entries ⊆ blockEntries b := by
  intro e he
  obtain ⟨q, hq, he⟩ := List.mem_flatMap.mp (p.entries_perm.mem_iff.mp he)
  exact Pipe.nodes_subset (blockPipes_subset hp hq) he

theorem mem_pipe_tags {q : PipeId} :
    q ∈ (blockPipes b).map Pipe.tag ↔ ⟨.pipe, q⟩ ∈ blockKeys b := by
  constructor
  · intro hq
    obtain ⟨p, hp, rfl⟩ := List.mem_map.mp hq
    exact List.mem_map.mpr ⟨_, Pipe.nodes_subset hp p.entry_mem_nodes, rfl⟩
  · intro hq
    obtain ⟨e, he, hkey⟩ := List.mem_map.mp hq
    rcases mem_blockEntries_nodes he with hstmt | ⟨p, hp, rfl | ⟨c, -, rfl | ⟨x, -, rfl⟩⟩⟩
    · rw [hkey] at hstmt
      cases hstmt
    · cases hkey
      exact List.mem_map_of_mem hp
    · cases hkey
    · cases hkey

theorem nodup_pipe_tags (nodup : (blockKeys b).Nodup) : ((blockPipes b).map Pipe.tag).Nodup := by
  obtain ⟨stmts, -, hperm⟩ := blockEntries_perm b
  have hentries : ((blockPipes b).map Pipe.entry).Sublist ((blockPipes b).flatMap Pipe.nodes) := by
    induction blockPipes b with
    | nil => exact .slnil
    | cons p ps ih =>
      rw [List.map_cons, List.flatMap_cons]
      exact .cons_cons p.entry (ih.trans (List.sublist_append_right _ _))
  have hkeys := (hperm.map Entry.key).nodup_iff.mp nodup
  rw [List.map_append] at hkeys
  have hpipes := (hentries.map Entry.key).nodup hkeys.of_append_left
  rw [List.map_map] at hpipes
  apply List.Nodup.of_map fun q : PipeId => (⟨.pipe, q⟩ : Key)
  rw [List.map_map]
  exact hpipes

end Handles

def Stmt.sites (s : Stmt Handle) : List (Site (Pipe Handle)) :=
  match s.governing? with
  | none => []
  | some p => ⟨s.tag, s.role, p⟩ :: (commandPipes p.commands).map fun q => ⟨s.tag, .nested, q⟩

def blockSites (b : Block Handle) : List (Site (Pipe Handle)) := (blockStmts b).flatMap Stmt.sites

theorem Stmt.sites_governing {s : Stmt Handle} {p : Pipe Handle} (hp : s.governing? = some p) :
    s.sites =
      ⟨s.tag, s.role, p⟩ :: (commandPipes p.commands).map fun q => ⟨s.tag, .nested, q⟩ := by
  rw [sites, hp]

theorem mem_blockSites {b : Block Handle} {site : Site (Pipe Handle)} :
    site ∈ blockSites b ↔ ∃ s ∈ blockStmts b, ∃ p ∈ s.governing?, site.host = s.tag ∧
      (site.role = s.role ∧ site.pipe = p ∨
        site.role = .nested ∧ site.pipe ∈ commandPipes p.commands) := by
  obtain ⟨host, role, q⟩ := site
  rw [blockSites, List.mem_flatMap]
  apply exists_congr
  intro s
  apply and_congr_right
  intro _
  cases hp : s.governing? with
  | none => simp [Stmt.sites, hp]
  | some p =>
    rw [Stmt.sites_governing hp]
    simp only [List.mem_cons, List.mem_map, Site.mk.injEq, Option.mem_def, Option.some.injEq,
      exists_eq_left']
    constructor
    · rintro (⟨rfl, rfl, rfl⟩ | ⟨q', hq', rfl, rfl, rfl⟩)
      · exact ⟨rfl, .inl ⟨rfl, rfl⟩⟩
      · exact ⟨rfl, .inr ⟨rfl, hq'⟩⟩
    · rintro ⟨rfl, ⟨rfl, rfl⟩ | ⟨rfl, hq'⟩⟩
      · exact .inl ⟨rfl, rfl, rfl⟩
      · exact .inr ⟨q, hq', rfl, rfl, rfl⟩

theorem mem_blockSites_of_operand {b : Block Handle} {site : Site (Pipe Handle)}
    (hsite : site ∈ blockSites b) {c : Command Handle} (hc : c ∈ site.pipe.commands)
    {id : ExprId} {inner : Pipe Handle} (hx : .paren id inner ∈ c.operands) :
    ⟨site.host, .nested, inner⟩ ∈ blockSites b := by
  obtain ⟨s, hs, p, hp, hhost, h⟩ := mem_blockSites.mp hsite
  refine mem_blockSites.mpr ⟨s, hs, p, hp, hhost, .inr ⟨rfl, ?_⟩⟩
  have hinner := mem_commandPipes_of_operand hc hx
  rcases h with ⟨-, hpipe⟩ | ⟨-, hpipe⟩
  · rwa [hpipe] at hinner
  · apply commandPipes_subset hpipe
    rw [Pipe.pipes_eq]
    exact List.mem_cons_of_mem _ hinner

theorem Stmt.map_pipe_sites {s : Stmt Handle} {p : Pipe Handle} (hp : s.governing? = some p) :
    s.sites.map Site.pipe = p.pipes := by
  rw [sites_governing hp, Pipe.pipes_eq, List.map_cons, List.map_map]
  exact congrArg _ (List.map_id _)

mutual

theorem Stmt.map_pipe_flatMap (s : Stmt Handle) :
    (s.stmts.flatMap Stmt.sites).map Site.pipe = s.pipes := by
  match s with
  | .text .. | .invoke _ _ none => rfl
  | .action id p | .invoke id _ (some p) =>
    rw [Stmt.stmts, List.flatMap_singleton]
    exact Stmt.map_pipe_sites rfl
  | .branch id kind p body elseBody =>
    have hown := Stmt.map_pipe_sites (s := .branch id kind p body elseBody) rfl
    have hbody := map_pipe_blockSites body
    have helse := map_pipe_blockSites elseBody
    rw [blockSites] at hbody helse
    rw [Stmt.stmts, Stmt.pipes, List.flatMap_cons, List.flatMap_append, List.map_append,
      List.map_append, hown, hbody, helse, List.append_assoc]

theorem map_pipe_blockSites (b : Block Handle) : (blockSites b).map Site.pipe = blockPipes b := by
  cases b with
  | nil => rfl
  | cons s b =>
    have hb := map_pipe_blockSites b
    rw [blockSites] at hb
    rw [blockSites, blockStmts, blockPipes, List.flatMap_append, List.map_append,
      s.map_pipe_flatMap, hb]

end

theorem Site.mem_blockPipes {b : Block Handle} {site : Site (Pipe Handle)}
    (h : site ∈ blockSites b) : site.pipe ∈ blockPipes b := by
  rw [← map_pipe_blockSites]
  exact List.mem_map_of_mem h

theorem findSome?_congr {α β : Type} {g h : α → Option β} {as : List α}
    (hgh : ∀ a ∈ as, g a = h a) : as.findSome? g = as.findSome? h := by
  induction as with
  | nil => rfl
  | cons a as ih =>
    rw [List.forall_mem_cons] at hgh
    rw [List.findSome?_cons, List.findSome?_cons, hgh.1, ih hgh.2]

theorem findSome?_cons_or {α β : Type} (g : α → Option β) (a : α) (as : List α) :
    (a :: as).findSome? g = (g a).or (as.findSome? g) := by
  rw [List.findSome?_cons]
  cases g a with
  | none => rfl
  | some b => rfl

section Search

variable (f : Fresh)

def Role.found? (role : Role) (p : Pipe Handle) : Option Match :=
  (role.rewrite? f p).map Rewriting.found

def Site.plan? (s : Site (Pipe Handle)) : Option Plan :=
  (s.role.found? f s.pipe).map fun found => { found with host := s.host }

theorem found_map {α β : Type} (g : α → β) (r : Option (Rewriting α)) :
    (r.map (Rewriting.map g)).map Rewriting.found = r.map Rewriting.found := by
  rw [Option.map_map]
  rfl

mutual

theorem Expr.found_rewrite? (e : Expr Handle) :
    (e.rewrite? f).map Rewriting.found = e.pipes.findSome? (Role.nested.found? f) := by
  cases e with
  | atom => rfl
  | paren id inner =>
    rw [Expr.rewrite?, found_map, Expr.pipes, inner.found_rewrite? .nested, Pipe.pipes_eq,
      findSome?_cons_or]

theorem found_argRewrite? (es : List (Expr Handle)) :
    (argRewrite? f es).map Rewriting.found = (argPipes es).findSome? (Role.nested.found? f) := by
  cases es with
  | nil => rfl
  | cons e es =>
    rw [argRewrite?, argPipes, List.findSome?_append, ← e.found_rewrite?, ← found_argRewrite? es]
    cases e.rewrite? f with
    | some r => rfl
    | none => exact found_map ..

theorem Command.found_rewrite? (c : Command Handle) :
    (c.rewrite? f).map Rewriting.found = c.pipes.findSome? (Role.nested.found? f) := by
  obtain ⟨id, head, args⟩ := c
  rw [Command.rewrite?, Command.pipes, List.findSome?_append, ← head.found_rewrite?,
    ← found_argRewrite? args]
  cases head.rewrite? f with
  | some r => rfl
  | none => exact found_map ..

theorem found_commandRewrite? (cs : List (Command Handle)) :
    (commandRewrite? f cs).map Rewriting.found =
      (commandPipes cs).findSome? (Role.nested.found? f) := by
  cases cs with
  | nil => rfl
  | cons c cs =>
    rw [commandRewrite?, commandPipes, List.findSome?_append, ← c.found_rewrite?,
      ← found_commandRewrite? cs]
    cases c.rewrite? f with
    | some r => rfl
    | none => exact found_map ..

theorem Pipe.found_rewrite? (role : Role) (p : Pipe Handle) :
    (p.rewrite? f role).map Rewriting.found =
      (role.found? f p).or ((commandPipes p.commands).findSome? (Role.nested.found? f)) := by
  obtain ⟨id, decls, commands⟩ := p
  rw [Pipe.rewrite?, Role.found?, Pipe.commands_mk, ← found_commandRewrite? commands]
  cases role.rewrite? f (.mk id decls commands) with
  | some r => rfl
  | none => exact found_map ..

end

theorem Stmt.plan_rewriteOwn? (s : Stmt Handle) :
    (s.rewriteOwn? f).map BlockRewriting.plan = s.sites.findSome? (Site.plan? f) := by
  rw [Stmt.rewriteOwn?_eq]
  cases hp : s.governing? with
  | none =>
    rw [Stmt.sites, hp]
    rfl
  | some p =>
    have hnested : ((commandPipes p.commands).map fun q => (⟨s.tag, .nested, q⟩ : Site _)).findSome?
        (Site.plan? f) = ((commandPipes p.commands).findSome? (Role.nested.found? f)).map
          fun found => { found with host := s.tag } := by
      rw [List.findSome?_map, List.map_findSome?]
      rfl
    rw [Stmt.sites_governing hp, findSome?_cons_or, hnested, Site.plan?, ← Option.map_or,
      ← p.found_rewrite? f s.role, Option.bind_some, Option.map_map, Option.map_map]
    rfl

mutual

theorem Stmt.plan_rewrite? (s : Stmt Handle) :
    (s.rewrite? f).map BlockRewriting.plan =
      (s.stmts.flatMap Stmt.sites).findSome? (Site.plan? f) := by
  match s with
  | .text .. | .action .. | .invoke .. =>
    rw [Stmt.stmts, List.flatMap_singleton, ← Stmt.plan_rewriteOwn?]
    rfl
  | .branch id kind p body elseBody =>
    have hbody := plan_blockRewrite? body
    have helse := plan_blockRewrite? elseBody
    rw [blockSites] at hbody helse
    rw [Stmt.stmts, List.flatMap_cons, List.flatMap_append, List.findSome?_append,
      List.findSome?_append, ← Stmt.plan_rewriteOwn?, ← hbody, ← helse, Stmt.rewrite?]
    cases (Stmt.branch id kind p body elseBody).rewriteOwn? f with
    | some r => rfl
    | none =>
      cases blockRewrite? f body with
      | some r => rfl
      | none => exact Option.map_map ..

theorem plan_blockRewrite? (b : Block Handle) :
    (blockRewrite? f b).map BlockRewriting.plan = (blockSites b).findSome? (Site.plan? f) := by
  cases b with
  | nil => rfl
  | cons s b =>
    have hb := plan_blockRewrite? b
    rw [blockSites] at hb
    rw [blockSites, blockStmts, List.flatMap_append, List.findSome?_append, ← s.plan_rewrite?,
      ← hb, blockRewrite?]
    cases s.rewrite? f with
    | some r => rfl
    | none => exact Option.map_map ..

end

end Search

end FlatTemplate

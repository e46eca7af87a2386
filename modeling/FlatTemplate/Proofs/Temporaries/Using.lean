import FlatTemplate.Proofs.Session.Canonicalizing
import FlatTemplate.Proofs.Template.Hygiene
import FlatTemplate.Proofs.Temporaries.Placing
import FlatTemplate.Proofs.Tree.Ownership

namespace FlatTemplate

/-- Of `b`, one pipeline declares `x`: that of an action, which declares nothing else. One operand
mentions `x`: it reads that variable, and belongs to the pipeline that governs a statement further
on in the same block. Between the two stand actions that are not in `old`. -/
def UsedOnce (x : String) (old b : Block Handle) : Prop :=
  ∃ C pre id p between host q rest e,
    b = BlockContext.plug C (pre ++ .action id p :: (between ++ host :: rest)) ∧
    p.decls = [x] ∧ (blockPipes b).filter (x ∈ ·.decls) = [p] ∧
    host.governing? = some q ∧ Entry.expr e (.atom (.var [x])) ∈ q.entries ∧
    (blockEntries b).filter (Entry.mentions x) = [.expr e (.atom (.var [x]))] ∧
    ∀ s ∈ between, ∃ id p, s = .action id p ∧ id.key ∉ blockKeys old

structure Temporary (x : String) (n : Nat) (b : Block Handle) : Prop where
  declared : (declsIn (blockEntries b)).count x = 1
  mentioned : ∃ e, (blockEntries b).filter (Entry.mentions x) = [.expr e (.atom (.var [x]))]
  introduced : Introduces x n b

theorem filter_atomsIn (x : String) (es : List Entry) :
    (atomsIn es).filter (Entry.mentions x) = es.filter (Entry.mentions x) := by
  rw [atomsIn, List.filter_filter]
  refine List.filter_congr fun e _ => ?_
  rw [Bool.and_eq_left_iff_imp]
  exact Entry.isAtom_of_mentions

theorem filter_references {α : Type} {f : Fresh} {x : String} {q : Rewriting α}
    (h : ∀ name ∈ q.name? f, name ≠ x) : (q.references f).filter (Entry.mentions x) = [] := by
  rw [Rewriting.references]
  cases hname : q.name? f with
  | none => rfl
  | some name =>
    have hne := h name hname
    simp [Fresh.reference, Entry.mentions, hne]

section Step

variable {f : Fresh} {x : String} {n : Nat} {b : Block Handle} {r : BlockRewriting}

theorem Temporary.blockRewrite? (hb : Temporary x n b) (h : FlatTemplate.blockRewrite? f b = some r)
    (hn : n ≤ f.stmt.index) (hx : x ≠ f.name)
    (hnests : Governed (Pipe.Nests fun decls => ∀ name ∈ decls, name ≠ x) b) :
    Temporary x n r.block := by
  obtain ⟨role, p, q, hp, hrewrites, htaken, hatoms, hdecls⟩ := blockRewrite?_moves h hnests
  obtain ⟨e, he⟩ := hb.mentioned
  have hname : ∀ name ∈ q.name? f, name ≠ x := by
    cases hq : q.taken with
    | true =>
      rw [hrewrites.name?_of_taken hq]
      rintro _ ⟨⟩
      exact hx.symm
    | false => exact hrewrites.name?_of_nests hp hq
  refine ⟨?_, ⟨e, ?_⟩, hb.introduced.blockRewrite? h hn hx⟩
  · rw [hdecls.count_eq, List.count_append, hb.declared]
    cases r.taken <;> simp [hx.symm]
  · have hperm := hatoms.filter (Entry.mentions x)
    rw [List.filter_append, filter_references hname, List.nil_append, filter_atomsIn,
      filter_atomsIn, he] at hperm
    exact List.perm_singleton.mp hperm

theorem declsIn_of_named {name : String} (hb : Governed (Pipe.Named (· ≠ name)) b) :
    (declsIn (blockEntries b)).count name = 0 := by
  refine List.count_eq_zero.mpr fun hmem => ?_
  obtain ⟨e, he, hmem⟩ := List.mem_flatMap.mp hmem
  match e, governed_named.mp hb e he with
  | .pipe _ _, hnamed => exact hnamed name hmem rfl

theorem mentions_of_named {name : String} (hb : Governed (Pipe.Named (· ≠ name)) b) :
    (blockEntries b).filter (Entry.mentions name) = [] := by
  refine List.filter_eq_nil_iff.mpr fun e he hmentions => ?_
  match e, governed_named.mp hb e he with
  | .expr _ (.atom (.var (first :: _))), hnamed =>
    exact hnamed first rfl (of_decide_eq_true hmentions)

theorem temporary_of_taken (h : blockRewrite? f b = some r) (htaken : r.taken)
    (hb : Governed (Pipe.Named (· ≠ f.name)) b) : Temporary f.name n r.block := by
  obtain ⟨role, p, q, -, hrewrites, hq, hatoms, hdecls⟩ := blockRewrite?_moves h hb
  refine ⟨?_, ⟨f.expr, ?_⟩, introduces_of_taken h htaken⟩
  · rw [hdecls.count_eq, List.count_append, declsIn_of_named hb, htaken]
    simp
  · have hperm := hatoms.filter (Entry.mentions f.name)
    rw [List.filter_append, filter_atomsIn, filter_atomsIn, mentions_of_named hb,
      List.append_nil, Rewriting.references, hrewrites.name?_of_taken (hq ▸ htaken)] at hperm
    simpa [Fresh.reference, Entry.mentions] using hperm

end Step

structure Draft.Tidy (config : Config) (n : Nat) (d : Draft) : Prop where
  named : d.Named (fun name => ∃ x, respell config.userTag x = name) config.tempStem
  nests : Governed (Pipe.Nests fun decls => ∀ name ∈ decls, ∃ x, respell config.userTag x = name)
    d.block
  bound : n ≤ d.bound .stmt
  temporaries : ∀ k < d.taken, Temporary (temporary config.tempStem k) n d.block

theorem Draft.Next.tidy {config : Config} (hconfig : config.Valid) {n : Nat} {d d' : Draft}
    {r : BlockRewriting} (h : Next config.tempStem d d' r) (hd : d.Tidy config n) :
    d'.Tidy config n := by
  refine ⟨h.named hd.named, ?_, Nat.le_trans hd.bound (h.bound .stmt), fun k hk => ?_⟩
  · rw [h.block]
    exact nests_blockRewrite? h.rewrite hd.nests
  · rw [h.block]
    by_cases hlt : k < d.taken
    · have hne : temporary config.tempStem k ≠ temporary config.tempStem d.taken := fun heq =>
        absurd (temporary_inj heq) (Nat.ne_of_lt hlt)
      refine (hd.temporaries k hlt).blockRewrite? h.rewrite hd.bound hne ?_
      refine hd.nests.imp fun p hp q hq name hname => ?_
      obtain ⟨x, rfl⟩ := hp q hq name hname
      exact hconfig.respell_ne_temporary x k
    · rw [h.taken] at hk
      split at hk
      · next htaken =>
        obtain rfl : k = d.taken := by omega
        exact temporary_of_taken h.rewrite htaken
          (hconfig.named_ne_temporary (fun _ hname => hname) hd.named)
      · exact absurd hk hlt

theorem Canonicalized.tidy {config : Config} (hconfig : config.Valid) {b : Block Handle}
    {bound : NodeKind → Nat} {outcome : Outcome} {n : Nat} {d d' : Draft}
    (h : Canonicalized config b bound outcome n d d') : d'.Tidy config (bound .stmt) := by
  refine h.run.preserves (P := fun d => d.Tidy config (bound .stmt))
    (fun _ _ _ hnext => hnext.tidy hconfig) ⟨?_, ?_, h.bound .stmt, ?_⟩
  · have hany : Governed (Pipe.Named fun _ => True) b := by
      refine governed_named.mpr fun e _ => ?_
      cases e with
      | stmt | command => trivial
      | pipe => exact fun _ _ => trivial
      | expr id node =>
        cases node with
        | paren => trivial
        | atom a =>
          cases a with
          | var => exact fun _ _ => trivial
          | field | dot | identifier | str | number | bool => trivial
    rw [Draft.Named, h.block]
    refine (named_blockRename _ hany).imp fun p hp e he => (hp e he).mono ?_
    rintro name ⟨x, -, hx⟩
    exact .inl ⟨x, hx⟩
  · rw [h.block]
    refine governed_blockRename (P := fun _ => True) (fun p _ => ?_) fun _ _ _ _ => trivial
    obtain ⟨id, decls, commands⟩ := p
    rw [Pipe.rename, Pipe.nests_mk, commandPipes_rename]
    intro q hq name hname
    obtain ⟨q, -, rfl⟩ := List.mem_map.mp hq
    obtain ⟨_, names, _⟩ := q
    obtain ⟨x, -, rfl⟩ := List.mem_map.mp hname
    exact ⟨x, rfl⟩
  · rw [h.taken]
    exact fun k hk => absurd hk (Nat.not_lt_zero k)

mutual

theorem Expr.declsIn_entries (e : Expr Handle) :
    declsIn e.entries = e.pipes.flatMap Pipe.decls := by
  cases e with
  | atom => rfl
  | paren _ inner => exact inner.declsIn_entries

theorem declsIn_argEntries (es : List (Expr Handle)) :
    declsIn (argEntries es) = (argPipes es).flatMap Pipe.decls := by
  cases es with
  | nil => rfl
  | cons e es =>
    rw [argEntries, argPipes, declsIn_append, List.flatMap_append, e.declsIn_entries,
      declsIn_argEntries es]

theorem Command.declsIn_entries (c : Command Handle) :
    declsIn c.entries = c.pipes.flatMap Pipe.decls := by
  obtain ⟨id, head, args⟩ := c
  rw [Command.entries, Command.pipes, declsIn_command, declsIn_append, List.flatMap_append,
    head.declsIn_entries, declsIn_argEntries args]

theorem declsIn_commandEntries (cs : List (Command Handle)) :
    declsIn (commandEntries cs) = (commandPipes cs).flatMap Pipe.decls := by
  cases cs with
  | nil => rfl
  | cons c cs =>
    rw [commandEntries, commandPipes, declsIn_append, List.flatMap_append, c.declsIn_entries,
      declsIn_commandEntries cs]

theorem Pipe.declsIn_entries (p : Pipe Handle) :
    declsIn p.entries = p.pipes.flatMap Pipe.decls := by
  obtain ⟨id, decls, commands⟩ := p
  rw [Pipe.entries, Pipe.pipes, declsIn_pipe, List.flatMap_cons, declsIn_commandEntries commands,
    Pipe.decls_mk]

end

mutual

theorem Stmt.declsIn_entries (s : Stmt Handle) :
    declsIn s.entries = s.pipes.flatMap Pipe.decls := by
  match s with
  | .text .. | .invoke _ _ none => rfl
  | .action _ p | .invoke _ _ (some p) => exact p.declsIn_entries
  | .branch _ _ p body elseBody =>
    rw [Stmt.entries, Stmt.pipes, declsIn_stmt, declsIn_append, declsIn_append,
      List.flatMap_append, List.flatMap_append, p.declsIn_entries, declsIn_blockEntries body,
      declsIn_blockEntries elseBody]

theorem declsIn_blockEntries (b : Block Handle) :
    declsIn (blockEntries b) = (blockPipes b).flatMap Pipe.decls := by
  cases b with
  | nil => rfl
  | cons s b =>
    rw [blockEntries, blockPipes, declsIn_append, List.flatMap_append, s.declsIn_entries,
      declsIn_blockEntries b]

end

theorem filter_decls_eq {ps : List (Pipe Handle)} {p : Pipe Handle} {x : String}
    (h : (ps.flatMap Pipe.decls).count x = 1) (hp : p ∈ ps) (hx : x ∈ p.decls) :
    ps.filter (x ∈ ·.decls) = [p] := by
  obtain ⟨before, after, rfl⟩ := List.append_of_mem hp
  have hone := List.count_pos_iff.mpr hx
  rw [List.flatMap_append, List.flatMap_cons, List.count_append, List.count_append] at h
  have hnone {qs : List (Pipe Handle)} (hqs : (qs.flatMap Pipe.decls).count x = 0) :
      qs.filter (x ∈ ·.decls) = [] := by
    refine List.filter_eq_nil_iff.mpr fun q hq hmem => ?_
    exact List.count_eq_zero.mp hqs (List.mem_flatMap.mpr ⟨q, hq, of_decide_eq_true hmem⟩)
  rw [List.filter_append, List.filter_cons_of_pos (by simpa using hx), hnone (by omega),
    hnone (by omega)]
  rfl

theorem Introduces.exists_plug {x : String} {n : Nat} {b : Block Handle} (h : Introduces x n b) :
    ∃ C pre id p between host q rest,
      b = BlockContext.plug C (pre ++ .action id p :: (between ++ host :: rest)) ∧
      p.decls = [x] ∧ (∀ s ∈ between, Stmt.IsAdded n s) ∧ host.governing? = some q ∧
      q.Mentions x := by
  induction h with
  | @here id p between host q rest hdecls hbetween hhost hmentions =>
    exact ⟨.hole, [], id, p, between, host, q, rest, rfl, hdecls, hbetween, hhost, hmentions⟩
  | behind s _ ih =>
    obtain ⟨C, pre, id, p, between, host, q, rest, rfl, h⟩ := ih
    match C with
    | .hole => exact ⟨.hole, s :: pre, id, p, between, host, q, rest, rfl, h⟩
    | .inBody outer owner kind pipe inner elseBody post =>
      exact ⟨.inBody (s :: outer) owner kind pipe inner elseBody post, pre, id, p, between, host,
        q, rest, rfl, h⟩
    | .inElse outer owner kind pipe body inner post =>
      exact ⟨.inElse (s :: outer) owner kind pipe body inner post, pre, id, p, between, host, q,
        rest, rfl, h⟩
  | @inBody owner kind pipe body elseBody post _ ih =>
    obtain ⟨C, pre, id, p, between, host, q, rest, rfl, h⟩ := ih
    exact ⟨.inBody [] owner kind pipe C elseBody post, pre, id, p, between, host, q, rest, rfl, h⟩
  | @inElse owner kind pipe body elseBody post _ ih =>
    obtain ⟨C, pre, id, p, between, host, q, rest, rfl, h⟩ := ih
    exact ⟨.inElse [] owner kind pipe body C post, pre, id, p, between, host, q, rest, rfl, h⟩

theorem Stmt.entries_governing {s : Stmt Handle} {p : Pipe Handle} (hp : s.governing? = some p) :
    p.entries ⊆ s.entries := by
  obtain ⟨frame, hframe⟩ := Tree.entries_govern hp
  have hperm := hframe p rfl
  rw [Tree.govern_governing hp] at hperm
  exact fun e he => hperm.mem_iff.mpr (List.mem_append_left _ he)

theorem entries_subset_plug (C : BlockContext) {b : Block Handle} {s : Stmt Handle} (hs : s ∈ b) :
    s.entries ⊆ blockEntries (C.plug b) := fun _ he =>
  (Tree.perm_plug C b).mem_iff.mpr (List.mem_append_left _ (mem_blockEntries.mpr ⟨s, hs, he⟩))

theorem blockPipes_append (as bs : Block Handle) :
    blockPipes (as ++ bs) = blockPipes as ++ blockPipes bs := by
  induction as with
  | nil => rfl
  | cons s as ih => rw [List.cons_append, blockPipes, blockPipes, ih, List.append_assoc]

theorem blockPipes_subset_plug (C : BlockContext) (b : Block Handle) :
    blockPipes b ⊆ blockPipes (C.plug b) := by
  induction C with
  | hole => exact List.Subset.refl _
  | inBody pre id kind pipe inner elseBody post ih =>
    intro p hp
    simp [BlockContext.plug, blockPipes_append, blockPipes, Stmt.pipes, ih hp]
  | inElse pre id kind pipe body inner post ih =>
    intro p hp
    simp [BlockContext.plug, blockPipes_append, blockPipes, Stmt.pipes, ih hp]

theorem Temporary.usedOnce {x : String} {n : Nat} {old b : Block Handle} (h : Temporary x n b)
    (hold : ∀ k ∈ blockKeys old, k.1 = .stmt → k.2.index < n) : UsedOnce x old b := by
  obtain ⟨C, pre, id, p, between, host, q, rest, rfl, hdecls, hbetween, hhost, e', he',
    hmentions⟩ := h.introduced.exists_plug
  obtain ⟨e, he⟩ := h.mentioned
  have hmem : e' ∈ [Entry.expr e (.atom (.var [x]))] := by
    rw [← he]
    refine List.mem_filter.mpr ⟨?_, hmentions⟩
    exact entries_subset_plug C (s := host) (by simp) (Stmt.entries_governing hhost he')
  obtain rfl := List.mem_singleton.mp hmem
  refine ⟨C, pre, id, p, between, host, q, rest, e, rfl, hdecls, ?_, hhost, he', he, ?_⟩
  · refine filter_decls_eq (declsIn_blockEntries _ ▸ h.declared) ?_ (by simp [hdecls])
    refine blockPipes_subset_plug C _ ?_
    simp [blockPipes_append, blockPipes, Stmt.pipes, p.mem_pipes_self]
  · intro s hs
    match s, hbetween s hs with
    | .action id p, hadded =>
      exact ⟨id, p, rfl, fun hkey => absurd (hold _ hkey rfl) (Nat.not_lt.mpr hadded)⟩

end FlatTemplate

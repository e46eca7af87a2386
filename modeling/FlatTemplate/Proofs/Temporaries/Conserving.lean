import FlatTemplate.Proofs.Temporaries.Moving
import FlatTemplate.Proofs.Tree.Ownership

namespace FlatTemplate

theorem mem_atomsIn {es : List Entry} {id : ExprId} {a : Atom} :
    .expr id (.atom a) ∈ atomsIn es ↔ .expr id (.atom a) ∈ es := by
  simp [atomsIn, List.mem_filter, Entry.isAtom]

theorem nodup_atomsIn {es : List Entry} (h : (es.map Entry.key).Nodup) :
    ((atomsIn es).map Entry.key).Nodup :=
  h.sublist (List.filter_sublist.map _)

theorem mem_declarationsIn {es : List Entry} {x : Declaration} :
    x ∈ declarationsIn es ↔ ∃ node, .pipe x.pipe node ∈ es ∧ node.decls = x.names := by
  constructor
  · intro hx
    obtain ⟨e, he, hx⟩ := List.mem_flatMap.mp hx
    match e with
    | .pipe id ⟨name :: names, commands⟩ =>
      obtain rfl := List.mem_singleton.mp hx
      exact ⟨_, he, rfl⟩
    | .pipe _ ⟨[], _⟩ | .stmt .. | .command .. | .expr .. => cases hx
  · rintro ⟨⟨decls, commands⟩, he, rfl⟩
    exact List.mem_flatMap.mpr ⟨_, he, List.mem_singleton_self x⟩

theorem nodup_declarationsIn {es : List Entry} (h : (es.map Entry.key).Nodup) :
    ((declarationsIn es).map Declaration.pipe).Nodup := by
  have hsublist : ((declarationsIn es).map fun x => x.pipe.key).Sublist (es.map Entry.key) := by
    clear h
    induction es with
    | nil => exact .refl _
    | cons e es ih =>
      match e with
      | .pipe id ⟨_ :: _, _⟩ => exact ih.cons_cons _
      | .pipe _ ⟨[], _⟩ | .stmt .. | .command .. | .expr .. => exact ih.cons _
  have hkeys := h.sublist hsublist
  rw [show (fun x : Declaration => x.pipe.key) = Handle.key ∘ Declaration.pipe from rfl,
    ← List.map_map] at hkeys
  exact hkeys.of_map _

def Declaration.rename (g : String → String) (x : Declaration) : Declaration :=
  ⟨x.pipe, g x.name, x.others.map g⟩

theorem declarationsIn_rename (g : String → String) (es : List Entry) :
    declarationsIn (es.map (Entry.rename g)) = (declarationsIn es).map (Declaration.rename g) := by
  rw [declarationsIn, declarationsIn, List.flatMap_map, List.map_flatMap]
  refine List.flatMap_congr fun e _ => ?_
  cases e with
  | stmt | command => rfl
  | pipe id node =>
    obtain ⟨decls, _⟩ := node
    cases decls <;> rfl
  | expr id node => cases node <;> rfl

namespace Stmt

def ownDeclared (s : Stmt Handle) : List Declaration := (s.governing?.map Pipe.declared).getD []

def nested (s : Stmt Handle) : List Declaration := (s.governing?.map Pipe.nested).getD []

end Stmt

def blockOwnDeclared (b : Block Handle) : List Declaration := (blockHeads b).flatMap Stmt.ownDeclared

def blockNested (b : Block Handle) : List Declaration := (blockHeads b).flatMap Stmt.nested

theorem perm_blockNested (b : Block Handle) :
    (declarationsIn (blockEntries b)).Perm (blockOwnDeclared b ++ blockNested b) := by
  have hheads (ss : List (Stmt Handle)) : (declarationsIn (ss.flatMap Stmt.ownEntries)).Perm
      (ss.flatMap Stmt.ownDeclared ++ ss.flatMap Stmt.nested) := by
    induction ss with
    | nil => exact .refl _
    | cons s ss ih =>
      have hs : declarationsIn s.ownEntries = s.ownDeclared ++ s.nested := by
        rw [Stmt.ownEntries, Stmt.ownDeclared, Stmt.nested]
        cases s.governing? with
        | none => rfl
        | some p => exact p.declarationsIn_entries
      simp only [List.flatMap_cons, declarationsIn_append, hs]
      grind
  have hperm := perm_declarationsIn (perm_entries_heads b)
  rw [declarationsIn_append,
    declarationsIn_of_stmts (List.forall_mem_map.mpr fun _ _ => rfl), List.nil_append] at hperm
  exact hperm.trans (hheads _)

theorem nodup_blockNested {b : Block Handle} (h : (blockKeys b).Nodup) :
    ((blockNested b).map Declaration.pipe).Nodup := by
  have hperm := (perm_blockNested b).map Declaration.pipe
  have hnodup := hperm.nodup_iff.mp (nodup_declarationsIn h)
  rw [List.map_append, List.nodup_append] at hnodup
  exact hnodup.2.1

theorem blockNested_rename (g : String → String) (b : Block Handle) :
    blockNested (blockRename g b) = (blockNested b).map (Declaration.rename g) := by
  rw [blockNested, blockNested, blockHeads, blockHeads, blockStmts_rename, List.map_map,
    List.flatMap_map, List.flatMap_map, List.map_flatMap]
  refine List.flatMap_congr fun s _ => ?_
  rw [Function.comp_apply, Stmt.nested, Stmt.nested, Stmt.governing?_bare, Stmt.governing?_bare,
    Stmt.governing?_rename]
  cases s.governing? with
  | none => rfl
  | some p =>
    obtain ⟨id, decls, commands⟩ := p
    exact (congrArg declarationsIn (commandEntries_rename g commands)).trans
      (declarationsIn_rename g _)

def Acts (b : Block Handle) (id : PipeId) : Prop := ∃ host, .stmt host (.action id) ∈ blockEntries b

theorem acts_iff_heads {b : Block Handle} {id : PipeId} :
    Acts b id ↔ ∃ host p, .action host p ∈ blockHeads b ∧ p.tag = id := by
  constructor
  · rintro ⟨host, hmem⟩
    obtain ⟨s, hs, htag, hnode⟩ := stmt_mem_blockEntries.mp hmem
    match s with
    | .action host' p =>
      cases hnode
      exact ⟨host', p, List.mem_map.mpr ⟨_, hs, rfl⟩, rfl⟩
    | .text .. | .branch .. | .invoke .. => cases hnode
  · rintro ⟨host, p, hmem, rfl⟩
    obtain ⟨s, hs, hbare⟩ := List.mem_map.mp hmem
    match s with
    | .action host' p' =>
      cases hbare
      exact ⟨host, stmt_mem_blockEntries.mpr ⟨_, hs, rfl, rfl⟩⟩
    | .text .. | .branch .. | .invoke .. => cases hbare

theorem Pipe.Rewrites.name?_eq {f : Fresh} {role : Role} {p : Pipe Handle}
    {q : Rewriting (Pipe Handle)} (h : Pipe.Rewrites f role p q) : (q.name? f).toList =
      (bif q.taken then [f.name] else []) ++ q.turned.map Declaration.name := by
  cases htaken : q.taken with
  | true =>
    rw [h.name?_of_taken htaken, Rewriting.turned, htaken]
    rfl
  | false =>
    have hsplit : q.found.edit ≠ .splitPrint := fun hsplit => by
      rw [h.taken_of_split hsplit] at htaken
      cases htaken
    rw [Rewriting.name?, if_neg hsplit, Rewriting.turned, htaken]
    cases q.ahead with
    | none => rfl
    | some a => cases ha : a.decls <;> simp [Pipe.declared, declarations, ha]

namespace BlockRewriting.Exchanges

variable {f : Fresh} {b : Block Handle} {r : BlockRewriting} {s : Stmt Handle} {p : Pipe Handle}
  {q : Rewriting (Pipe Handle)} {front inside behind : List (Stmt Handle)}
  (h : r.Exchanges f b s p q front inside behind)
include h

theorem perm_nested : (blockNested b).Perm (q.turned ++ blockNested r.block) := by
  have hp := h.rewrites.perm_nested
  have hhost : s.nested = p.nested := by
    rw [Stmt.nested, h.governing]
    rfl
  have hrest : (s.govern q.rest).nested = q.rest.nested := by
    rw [Stmt.nested, Stmt.governing?_govern h.governing]
    rfl
  have hahead : (q.ahead.map (.action f.stmt)).toList.flatMap Stmt.nested =
      (q.ahead.map Pipe.nested).getD [] := by
    cases q.ahead <;> simp [Stmt.nested, Stmt.governing?]
  have hprint : (if q.found.edit = .splitPrint then [f.print] else []).flatMap Stmt.nested = [] := by
    split <;> rfl
  simp only [blockNested, h.before, h.after, List.flatMap_append, List.flatMap_cons, hhost, hrest,
    hahead, hprint]
  grind

theorem acts {id : PipeId} (hid : Acts b id) : Acts r.block id := by
  rw [acts_iff_heads] at hid ⊢
  obtain ⟨host, p', hmem, rfl⟩ := hid
  rw [h.before] at hmem
  rw [h.after]
  rcases List.mem_append.mp hmem with hmem | hmem
  · exact ⟨host, p', List.mem_append_left _ hmem, rfl⟩
  · rcases List.mem_cons.mp hmem with rfl | hmem
    · obtain rfl := Option.some.inj h.governing
      exact ⟨host, q.rest, by simp [Stmt.govern], h.rewrites.rest_tag⟩
    · refine ⟨host, p', ?_, rfl⟩
      simp only [List.mem_append, List.mem_cons] at hmem ⊢
      tauto

theorem acts_of_turned {d : Declaration} (hd : d ∈ q.turned) : Acts r.block d.pipe := by
  rw [acts_iff_heads, h.after]
  cases htaken : q.taken with
  | true => simp [Rewriting.turned, htaken] at hd
  | false =>
    cases ha : q.ahead with
    | none => simp [Rewriting.turned, htaken, ha] at hd
    | some a =>
      simp only [Rewriting.turned, htaken, ha, cond_false, Option.map_some, Option.getD_some,
        Pipe.declared] at hd
      have hpipe : a.tag = d.pipe := by
        cases hdecls : a.decls with
        | nil => simp [hdecls, declarations] at hd
        | cons name names =>
          rw [hdecls] at hd
          obtain rfl := List.mem_singleton.mp hd
          rfl
      exact ⟨f.stmt, a, by simp, hpipe⟩

end BlockRewriting.Exchanges

def reading (x : ExprId × String) : Entry := .expr x.1 (.atom (.var [x.2]))

structure Draft.Conserves (stem : String) (d₀ d : Draft) (added : List (ExprId × String))
    (turned : List Declaration) : Prop where
  atoms : (atomsIn (blockEntries d.block)).Perm
    (added.map reading ++ atomsIn (blockEntries d₀.block))
  names : (added.map Prod.snd).Perm
    ((List.range d.taken).map (temporary stem) ++ turned.map Declaration.name)
  declarations : declarationsIn (blockEntries d₀.block) ⊆ declarationsIn (blockEntries d.block)
  nested : (blockNested d₀.block).Perm (turned ++ blockNested d.block)
  acts : ∀ x ∈ turned, Acts d.block x.pipe

namespace Draft

variable {stem : String} {d₀ d d' : Draft} {r : BlockRewriting}

theorem Next.conserves (h : Next stem d d' r) {added : List (ExprId × String)}
    {turned : List Declaration} (hd : d₀.Conserves stem d added turned) :
    ∃ added' turned', d₀.Conserves stem d' added' turned' := by
  obtain ⟨s, p, q, front, inside, behind, hex⟩ := exists_exchanges h.rewrite
  have hname := hex.rewrites.name?_eq
  refine ⟨(q.name? (d.fresh stem)).toList.map ((d.fresh stem).expr, ·) ++ added,
    q.turned ++ turned, ?_, ?_, ?_, ?_, ?_⟩
  · rw [h.block, List.map_append, List.append_assoc, List.map_map]
    exact hex.perm_atomsIn.trans (hd.atoms.append_left _)
  · have htaken : (List.range d'.taken).map (temporary stem) =
        (List.range d.taken).map (temporary stem) ++
          bif q.taken then [(d.fresh stem).name] else [] := by
      rw [h.taken, hex.taken]
      cases r.taken <;> simp [List.range_succ, fresh]
    have hnames := hd.names
    simp only [List.map_append, List.map_map, Function.comp_def, List.map_id', hname, htaken]
    grind
  · obtain ⟨minted, hminted, -⟩ := hex.perm_declarationsIn
    rw [h.block]
    exact fun x hx => hminted.mem_iff.mpr (List.mem_append_right _ (hd.declarations hx))
  · have hstep := hex.perm_nested
    have hnested := hd.nested
    rw [h.block]
    grind
  · rw [h.block]
    intro x hx
    rcases List.mem_append.mp hx with hx | hx
    · exact hex.acts_of_turned hx
    · exact hex.acts (hd.acts x hx)

theorem Run.conserves {n : Nat} (h : Run stem n d₀ d) (htaken : d₀.taken = 0) :
    ∃ added turned, d₀.Conserves stem d added turned := by
  refine h.preserves (P := fun d => ∃ added turned, d₀.Conserves stem d added turned)
    (fun _ _ _ hnext ⟨_, _, hd⟩ => hnext.conserves hd) ⟨[], [], .refl _, ?_, ?_, .refl _, nofun⟩
  · rw [htaken]
    exact .refl _
  · exact List.Subset.refl _

end Draft

end FlatTemplate

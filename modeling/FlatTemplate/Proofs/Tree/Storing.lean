import FlatTemplate.Proofs.Template.Proper
import FlatTemplate.Proofs.Tree.Putting
import FlatTemplate.Tree.Build

namespace FlatTemplate

namespace Tree

structure Grown (t t' : Tree) (entries : List Entry) : Prop where
  root : t'.root = t.root
  changed : t.Changed t' entries
  unused : ∀ e ∈ entries, t.arenaSize e.key.1 ≤ e.key.2.index
  nodup : (entries.map Entry.key).Nodup
  only : ∀ e, t'.Has e → t.Has e ∨ e ∈ entries

variable {ι : NodeKind → Type} {t t' t'' : Tree}

namespace Grown

theorem refl (t : Tree) : t.Grown t [] :=
  ⟨rfl, ⟨by simp, fun _ he _ => he, fun _ => Nat.le_refl _⟩, by simp, List.nodup_nil,
    fun _ => Or.inl⟩

theorem put {e : Entry} (h : e.key.2.index = t.arenaSize e.key.1) : t.Grown (t.put e) [e] := by
  have hchanged : t.Changed (t.puts [e]) [e] := changed_puts (by simp [h]) (List.nodup_singleton _)
  refine ⟨root_put e, hchanged, by simp [h], List.nodup_singleton _, fun x hx => ?_⟩
  rw [has_put (Nat.le_of_eq h)] at hx
  split at hx
  · exact Or.inr (List.mem_singleton.mpr hx)
  · exact Or.inl hx

theorem trans {es fs : List Entry} (h : t.Grown t' es) (h' : t'.Grown t'' fs) :
    t.Grown t'' (es ++ fs) := by
  have hdisjoint : ∀ e ∈ es, e.key ∉ fs.map Entry.key := by
    intro e he hkey
    obtain ⟨f, hf, hfe⟩ := List.mem_map.mp hkey
    have hlt := (h.changed.new e he).index_lt
    have hle := h'.unused f hf
    rw [hfe] at hle
    omega
  refine ⟨h'.root.trans h.root, h.changed.trans h'.changed hdisjoint, fun e he => ?_, ?_,
    fun e he => ?_⟩
  · rcases List.mem_append.mp he with he | he
    · exact h.unused e he
    · exact Nat.le_trans (h.changed.size _) (h'.unused e he)
  · rw [List.map_append, List.nodup_append]
    refine ⟨h.nodup, h'.nodup, fun k hk l hl hkl => ?_⟩
    obtain ⟨e, he, rfl⟩ := List.mem_map.mp hk
    exact hdisjoint e he (hkl ▸ hl)
  · rw [List.mem_append, ← or_assoc]
    exact (h'.only e he).imp_left (h.only e)

theorem perm {es fs : List Entry} (h : t.Grown t' es) (hperm : es.Perm fs) : t.Grown t' fs := by
  have hkeys := hperm.map Entry.key
  refine ⟨h.root, ⟨fun e he => h.changed.new e (hperm.mem_iff.mpr he), fun e he hkey =>
    h.changed.old e he fun hmem => hkey (hkeys.mem_iff.mp hmem), h.changed.size⟩, fun e he =>
    h.unused e (hperm.mem_iff.mpr he), hkeys.nodup_iff.mp h.nodup, fun e he =>
    (h.only e he).imp_right hperm.mem_iff.mp⟩

theorem snoc {es : List Entry} {e : Entry} (h : t.Grown t' es)
    (he : e.key.2.index = t'.arenaSize e.key.1) : t.Grown (t'.put e) (e :: es) :=
  (h.trans (put he)).perm (List.perm_append_singleton e es)

end Grown

mutual

theorem storeExpr_grown (e : Expr ι) (t : Tree) :
    ∃ (e' : Expr Handle) (t' : Tree), storeExpr e t = (e'.tag, t') ∧ e'.erase = e.erase ∧
      t.Grown t' e'.entries := by
  cases e with
  | atom _ a =>
    refine ⟨.atom t.exprs.next a, _, ?_, rfl, Grown.put (e := .expr t.exprs.next (.atom a)) rfl⟩
    rw [storeExpr, addExpr_eq_put]
    rfl
  | paren _ inner =>
    obtain ⟨p, t', hstore, hp, hgrown⟩ := storePipe_grown inner t
    refine ⟨.paren t'.exprs.next p, _, ?_, ?_, hgrown.snoc rfl⟩
    · rw [storeExpr, hstore]
      exact addExpr_eq_put _
    · rw [Expr.erase, Expr.erase, hp]

theorem storeArgs_grown (es : List (Expr ι)) (t : Tree) :
    ∃ (es' : List (Expr Handle)) (t' : Tree), storeArgs es t = (es'.map Expr.tag, t') ∧
      argErase es' = argErase es ∧ t.Grown t' (argEntries es') := by
  cases es with
  | nil => exact ⟨[], t, rfl, rfl, Grown.refl t⟩
  | cons e es =>
    obtain ⟨e', t', hstore, he, hgrown⟩ := storeExpr_grown e t
    obtain ⟨es', t'', hstore', hes, hgrown'⟩ := storeArgs_grown es t'
    refine ⟨e' :: es', t'', ?_, ?_, hgrown.trans hgrown'⟩
    · simp only [storeArgs, hstore, hstore', List.map_cons]
    · rw [argErase, argErase, he, hes]

theorem storeCommand_grown (c : Command ι) (t : Tree) :
    ∃ (c' : Command Handle) (t' : Tree), storeCommand c t = (c'.tag, t') ∧ c'.erase = c.erase ∧
      t.Grown t' c'.entries := by
  obtain ⟨_, head, args⟩ := c
  obtain ⟨e, t', hstore, he, hgrown⟩ := storeExpr_grown head t
  obtain ⟨es, t'', hstore', hes, hgrown'⟩ := storeArgs_grown args t'
  refine ⟨.mk t''.commands.next e es, _, ?_, ?_, (hgrown.trans hgrown').snoc rfl⟩
  · simp only [storeCommand, hstore, hstore']
    exact addCommand_eq_put _
  · rw [Command.erase, Command.erase, he, hes]

theorem storeCommands_grown (cs : List (Command ι)) (t : Tree) :
    ∃ (cs' : List (Command Handle)) (t' : Tree), storeCommands cs t = (cs'.map Command.tag, t') ∧
      commandErase cs' = commandErase cs ∧ t.Grown t' (commandEntries cs') := by
  cases cs with
  | nil => exact ⟨[], t, rfl, rfl, Grown.refl t⟩
  | cons c cs =>
    obtain ⟨c', t', hstore, hc, hgrown⟩ := storeCommand_grown c t
    obtain ⟨cs', t'', hstore', hcs, hgrown'⟩ := storeCommands_grown cs t'
    refine ⟨c' :: cs', t'', ?_, ?_, hgrown.trans hgrown'⟩
    · simp only [storeCommands, hstore, hstore', List.map_cons]
    · rw [commandErase, commandErase, hc, hcs]

theorem storePipe_grown (p : Pipe ι) (t : Tree) :
    ∃ (p' : Pipe Handle) (t' : Tree), storePipe p t = (p'.tag, t') ∧ p'.erase = p.erase ∧
      t.Grown t' p'.entries := by
  obtain ⟨_, decls, commands⟩ := p
  obtain ⟨cs, t', hstore, hcs, hgrown⟩ := storeCommands_grown commands t
  refine ⟨.mk t'.pipes.next decls cs, _, ?_, ?_, hgrown.snoc rfl⟩
  · rw [storePipe, hstore]
    exact addPipe_eq_put _
  · rw [Pipe.erase, Pipe.erase, hcs]

end

mutual

theorem storeStmt_grown (s : Stmt ι) (t : Tree) :
    ∃ (s' : Stmt Handle) (t' : Tree), storeStmt s t = (s'.tag, t') ∧ s'.erase = s.erase ∧
      t.Grown t' s'.entries := by
  match s with
  | .text _ text =>
    refine ⟨.text t.stmts.next text, _, ?_, rfl,
      Grown.put (e := .stmt t.stmts.next (.text text)) rfl⟩
    rw [storeStmt, addStmt_eq_put]
    rfl
  | .action _ pipe =>
    obtain ⟨p, t', hstore, hp, hgrown⟩ := storePipe_grown pipe t
    refine ⟨.action t'.stmts.next p, _, ?_, ?_, hgrown.snoc rfl⟩
    · rw [storeStmt, hstore]
      exact addStmt_eq_put _
    · rw [Stmt.erase, Stmt.erase, hp]
  | .branch _ kind pipe body elseBody =>
    obtain ⟨p, t₁, hpipe, hp, hgrown₁⟩ := storePipe_grown pipe t
    obtain ⟨b, t₂, hbody, hb, hgrown₂⟩ := storeBlock_grown body t₁
    obtain ⟨e, t₃, helse, he, hgrown₃⟩ := storeBlock_grown elseBody t₂
    refine ⟨.branch t₃.stmts.next kind p b e, _, ?_, ?_,
      ((hgrown₁.trans hgrown₂).trans hgrown₃).snoc rfl⟩
    · simp only [storeStmt, hpipe, hbody, helse]
      exact addStmt_eq_put _
    · rw [Stmt.erase, Stmt.erase, hp, hb, he]
  | .invoke _ name none =>
    refine ⟨.invoke t.stmts.next name none, _, ?_, rfl,
      Grown.put (e := .stmt t.stmts.next (.invoke name none)) rfl⟩
    rw [storeStmt, addStmt_eq_put]
    rfl
  | .invoke _ name (some pipe) =>
    obtain ⟨p, t', hstore, hp, hgrown⟩ := storePipe_grown pipe t
    refine ⟨.invoke t'.stmts.next name (some p), _, ?_, ?_, hgrown.snoc rfl⟩
    · rw [storeStmt, hstore]
      exact addStmt_eq_put _
    · rw [Stmt.erase, Stmt.erase, hp]

theorem storeBlock_grown (b : Block ι) (t : Tree) :
    ∃ (b' : Block Handle) (t' : Tree), storeBlock b t = (b'.map Stmt.tag, t') ∧
      blockErase b' = blockErase b ∧ t.Grown t' (blockEntries b') := by
  cases b with
  | nil => exact ⟨[], t, rfl, rfl, Grown.refl t⟩
  | cons s b =>
    obtain ⟨s', t', hstore, hs, hgrown⟩ := storeStmt_grown s t
    obtain ⟨b', t'', hstore', hb, hgrown'⟩ := storeBlock_grown b t'
    refine ⟨s' :: b', t'', ?_, ?_, hgrown.trans hgrown'⟩
    · simp only [storeBlock, hstore, hstore', List.map_cons]
    · rw [blockErase, blockErase, hs, hb]

end

structure Stores (t : Tree) (b : Block Handle) : Prop where
  root : t.root = b.map Stmt.tag
  has_iff : ∀ e, t.Has e ↔ e ∈ blockEntries b
  nodup : (blockKeys b).Nodup

theorem not_has_of_empty (name : String) (e : Entry) : ¬({ name } : Tree).Has e := by
  intro h
  have hlt := h.index_lt
  cases e <;> exact absurd hlt (Nat.not_lt_zero _)

theorem ofBlock_stores (name : String) (b : Block ι) :
    ∃ b' : Block Handle, blockErase b' = blockErase b ∧ (ofBlock name b).Stores b' := by
  obtain ⟨b', t', hstore, hb, hgrown⟩ := storeBlock_grown b { name }
  have hof : ofBlock name b = { t' with root := b'.map Stmt.tag } := by rw [ofBlock, hstore]
  refine ⟨b', hb, by rw [hof], fun e => ?_, hgrown.nodup⟩
  have hhas : (ofBlock name b).Has e ↔ t'.Has e := by
    rw [hof]
    cases e <;> rfl
  rw [hhas]
  exact ⟨fun h => (hgrown.only e h).resolve_left (not_has_of_empty name e), hgrown.changed.new e⟩

theorem proper_of_erase_eq {κ : NodeKind → Type} {b : Block ι} {b' : Block κ}
    (hb : blockErase b' = blockErase b) (h : ∀ p ∈ blockPipes b, p.Proper) :
    ∀ p ∈ blockPipes b', p.Proper := by
  intro p hp
  have hmem : p.erase ∈ blockPipes (blockErase b') := by
    rw [blockPipes_erase]
    exact List.mem_map_of_mem hp
  rw [hb, blockPipes_erase] at hmem
  obtain ⟨q, hq, hpq⟩ := List.mem_map.mp hmem
  exact Pipe.proper_erase.mp (hpq ▸ Pipe.proper_erase.mpr (h q hq))

theorem Stores.holds {t : Tree} {b : Block Handle} (h : t.Stores b)
    (hproper : ∀ p ∈ blockPipes b, p.Proper) : t.Holds b :=
  ⟨h.root, fun e => (h.has_iff e).mpr, h.nodup, sound_of_proper hproper⟩

theorem holds_ofBlock (name : String) {b : Block ι} (h : ∀ p ∈ blockPipes b, p.Proper) :
    ∃ b' : Block Handle, blockErase b' = blockErase b ∧ (∀ p ∈ blockPipes b', p.Proper) ∧
      (ofBlock name b).Holds b' := by
  obtain ⟨b', hb, hstores⟩ := ofBlock_stores name b
  have hproper := proper_of_erase_eq hb h
  exact ⟨b', hb, hproper, hstores.holds hproper⟩

mutual

theorem storeExpr_name (e : Expr ι) (t : Tree) : (storeExpr e t).2.name = t.name := by
  cases e with
  | atom => rfl
  | paren _ inner => exact storePipe_name inner t

theorem storeArgs_name (es : List (Expr ι)) (t : Tree) : (storeArgs es t).2.name = t.name := by
  cases es with
  | nil => rfl
  | cons e es => exact (storeArgs_name es _).trans (storeExpr_name e t)

theorem storeCommand_name (c : Command ι) (t : Tree) : (storeCommand c t).2.name = t.name := by
  obtain ⟨_, head, args⟩ := c
  exact (storeArgs_name args _).trans (storeExpr_name head t)

theorem storeCommands_name (cs : List (Command ι)) (t : Tree) :
    (storeCommands cs t).2.name = t.name := by
  cases cs with
  | nil => rfl
  | cons c cs => exact (storeCommands_name cs _).trans (storeCommand_name c t)

theorem storePipe_name (p : Pipe ι) (t : Tree) : (storePipe p t).2.name = t.name := by
  obtain ⟨_, decls, commands⟩ := p
  exact storeCommands_name commands t

end

mutual

theorem storeStmt_name (s : Stmt ι) (t : Tree) : (storeStmt s t).2.name = t.name := by
  match s with
  | .text .. | .invoke _ _ none => rfl
  | .action _ p | .invoke _ _ (some p) => exact storePipe_name p t
  | .branch _ kind p body elseBody =>
    have hbody := (storeBlock_name body _).trans (storePipe_name p t)
    exact (storeBlock_name elseBody _).trans hbody

theorem storeBlock_name (b : Block ι) (t : Tree) : (storeBlock b t).2.name = t.name := by
  cases b with
  | nil => rfl
  | cons s b => exact (storeBlock_name b _).trans (storeStmt_name s t)

end

@[simp] theorem name_ofBlock (name : String) (b : Block ι) : (ofBlock name b).name = name :=
  storeBlock_name b { name }

end Tree

end FlatTemplate

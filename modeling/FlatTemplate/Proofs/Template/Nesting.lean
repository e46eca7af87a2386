import FlatTemplate.Proofs.Template.Governing
import FlatTemplate.Proofs.Template.Spelling

namespace FlatTemplate

section Pipes

variable {ι : NodeKind → Type}

@[simp] theorem argPipes_append (as bs : List (Expr ι)) :
    argPipes (as ++ bs) = argPipes as ++ argPipes bs := by
  induction as with
  | nil => rfl
  | cons e es ih => rw [List.cons_append, argPipes, argPipes, ih, List.append_assoc]

@[simp] theorem commandPipes_append (cs ds : List (Command ι)) :
    commandPipes (cs ++ ds) = commandPipes cs ++ commandPipes ds := by
  induction cs with
  | nil => rfl
  | cons c cs ih => rw [List.cons_append, commandPipes, commandPipes, ih, List.append_assoc]

theorem Pipe.mem_pipes_self (p : Pipe ι) : p ∈ p.pipes := by
  obtain ⟨id, decls, commands⟩ := p
  exact List.mem_cons_self

mutual

theorem Expr.pipes_subset {e : Expr ι} {q : Pipe ι} (hq : q ∈ e.pipes) : q.pipes ⊆ e.pipes := by
  cases e with
  | atom => cases hq
  | paren _ inner => exact inner.pipes_subset hq

theorem argPipes_subset {es : List (Expr ι)} {q : Pipe ι} (hq : q ∈ argPipes es) :
    q.pipes ⊆ argPipes es := by
  match es with
  | e :: es =>
    rcases List.mem_append.mp hq with hq | hq
    · exact List.subset_append_of_subset_left _ (e.pipes_subset hq)
    · exact List.subset_append_of_subset_right _ (argPipes_subset hq)

theorem Command.pipes_subset {c : Command ι} {q : Pipe ι} (hq : q ∈ c.pipes) :
    q.pipes ⊆ c.pipes := by
  obtain ⟨_, head, args⟩ := c
  rcases List.mem_append.mp hq with hq | hq
  · exact List.subset_append_of_subset_left _ (head.pipes_subset hq)
  · exact List.subset_append_of_subset_right _ (argPipes_subset hq)

theorem commandPipes_subset {cs : List (Command ι)} {q : Pipe ι} (hq : q ∈ commandPipes cs) :
    q.pipes ⊆ commandPipes cs := by
  match cs with
  | c :: cs =>
    rcases List.mem_append.mp hq with hq | hq
    · exact List.subset_append_of_subset_left _ (c.pipes_subset hq)
    · exact List.subset_append_of_subset_right _ (commandPipes_subset hq)

theorem Pipe.pipes_subset (p : Pipe ι) {q : Pipe ι} (hq : q ∈ p.pipes) : q.pipes ⊆ p.pipes := by
  obtain ⟨id, decls, commands⟩ := p
  rcases List.mem_cons.mp hq with rfl | hq
  · exact List.Subset.refl _
  · exact List.subset_cons_of_subset _ (commandPipes_subset hq)

end

mutual

theorem Stmt.mem_pipes {s : Stmt ι} {q : Pipe ι} :
    q ∈ s.pipes ↔ ∃ x ∈ s.stmts, ∃ p ∈ x.governing?, q ∈ p.pipes := by
  match s with
  | .text .. | .action .. | .invoke _ _ none | .invoke _ _ (some _) =>
    simp [Stmt.pipes, Stmt.stmts, Stmt.governing?]
  | .branch id kind p body elseBody =>
    have hown : (Stmt.branch id kind p body elseBody).governing? = some p := rfl
    simp only [Stmt.pipes, Stmt.stmts, List.mem_append, List.mem_cons, or_and_right, exists_or,
      exists_eq_left, hown, Option.mem_def, Option.some.injEq, exists_eq_left',
      mem_blockPipes (b := body), mem_blockPipes (b := elseBody), or_assoc]

theorem mem_blockPipes {b : Block ι} {q : Pipe ι} :
    q ∈ blockPipes b ↔ ∃ x ∈ blockStmts b, ∃ p ∈ x.governing?, q ∈ p.pipes := by
  match b with
  | [] => simp [blockPipes, blockStmts]
  | s :: rest =>
    simp only [blockPipes, blockStmts, List.mem_append, or_and_right, exists_or,
      Stmt.mem_pipes (s := s), mem_blockPipes (b := rest)]

end

theorem blockPipes_subset {b : Block ι} {q : Pipe ι} (hq : q ∈ blockPipes b) :
    q.pipes ⊆ blockPipes b := by
  obtain ⟨s, hs, p, hp, hq⟩ := mem_blockPipes.mp hq
  exact fun r hr => mem_blockPipes.mpr ⟨s, hs, p, hp, p.pipes_subset hq hr⟩

theorem mem_argPipes {es : List (Expr ι)} {q : Pipe ι} :
    q ∈ argPipes es ↔ ∃ e ∈ es, q ∈ e.pipes := by
  induction es with
  | nil => simp [argPipes]
  | cons e es ih => simp [argPipes, ih]

theorem mem_commandPipes {cs : List (Command ι)} {q : Pipe ι} :
    q ∈ commandPipes cs ↔ ∃ c ∈ cs, q ∈ c.pipes := by
  induction cs with
  | nil => simp [commandPipes]
  | cons c cs ih => simp [commandPipes, ih]

theorem Command.mem_pipes {c : Command ι} {q : Pipe ι} :
    q ∈ c.pipes ↔ ∃ e ∈ c.operands, q ∈ e.pipes := by
  obtain ⟨_, head, args⟩ := c
  simp [Command.pipes, Command.operands, mem_argPipes]

theorem mem_blockPipes_of_operand {b : Block ι} {p inner : Pipe ι} {c : Command ι} {id : ι .expr}
    (hp : p ∈ blockPipes b) (hc : c ∈ p.commands) (hx : .paren id inner ∈ c.operands) :
    inner ∈ blockPipes b := by
  refine blockPipes_subset hp ?_
  obtain ⟨_, _, commands⟩ := p
  have hinner : inner ∈ c.pipes := Command.mem_pipes.mpr ⟨_, hx, inner.mem_pipes_self⟩
  exact List.mem_cons_of_mem _ (mem_commandPipes.mpr ⟨c, hc, hinner⟩)

mutual

theorem Expr.pipes_rename (g : String → String) (e : Expr ι) :
    (e.rename g).pipes = e.pipes.map (Pipe.rename g) := by
  cases e with
  | atom => rfl
  | paren _ inner => exact inner.pipes_rename g

theorem argPipes_rename (g : String → String) (es : List (Expr ι)) :
    argPipes (argRename g es) = (argPipes es).map (Pipe.rename g) := by
  cases es with
  | nil => rfl
  | cons e es =>
    rw [argRename, argPipes, argPipes, e.pipes_rename g, argPipes_rename g es, List.map_append]

theorem Command.pipes_rename (g : String → String) (c : Command ι) :
    (c.rename g).pipes = c.pipes.map (Pipe.rename g) := by
  obtain ⟨_, head, args⟩ := c
  rw [Command.rename, Command.pipes, Command.pipes, head.pipes_rename g, argPipes_rename g args,
    List.map_append]

theorem commandPipes_rename (g : String → String) (cs : List (Command ι)) :
    commandPipes (commandRename g cs) = (commandPipes cs).map (Pipe.rename g) := by
  cases cs with
  | nil => rfl
  | cons c cs =>
    rw [commandRename, commandPipes, commandPipes, c.pipes_rename g, commandPipes_rename g cs,
      List.map_append]

theorem Pipe.pipes_rename (g : String → String) (p : Pipe ι) :
    (p.rename g).pipes = p.pipes.map (Pipe.rename g) := by
  obtain ⟨id, decls, commands⟩ := p
  rw [Pipe.pipes, List.map_cons, ← commandPipes_rename g commands]
  rfl

end

end Pipes

mutual

theorem Stmt.stmts_rename (g : String → String) (s : Stmt Handle) :
    (s.rename g).stmts = s.stmts.map (Stmt.rename g) := by
  match s with
  | .text .. | .action .. | .invoke _ _ none | .invoke _ _ (some _) => rfl
  | .branch id kind p body elseBody =>
    rw [Stmt.rename, Stmt.stmts, Stmt.stmts, blockStmts_rename g body,
      blockStmts_rename g elseBody, List.map_cons, List.map_append]
    rfl

theorem blockStmts_rename (g : String → String) (b : Block Handle) :
    blockStmts (blockRename g b) = (blockStmts b).map (Stmt.rename g) := by
  cases b with
  | nil => rfl
  | cons s b =>
    rw [blockRename, blockStmts, blockStmts, s.stmts_rename g, blockStmts_rename g b,
      List.map_append]

end

theorem Stmt.governing?_rename (g : String → String) (s : Stmt Handle) :
    (s.rename g).governing? = s.governing?.map (Pipe.rename g) := by
  match s with
  | .text .. | .action .. | .branch .. | .invoke _ _ none | .invoke _ _ (some _) => rfl

theorem governed_blockRename {P Q : Pipe Handle → Prop} {g : String → String}
    (hPQ : ∀ p, P p → Q (p.rename g)) {b : Block Handle} (h : Governed P b) :
    Governed Q (blockRename g b) := by
  intro s hs p hp
  rw [blockStmts_rename] at hs
  obtain ⟨s, hs', rfl⟩ := List.mem_map.mp hs
  rw [s.governing?_rename] at hp
  obtain ⟨p, hp', rfl⟩ := Option.map_eq_some_iff.mp hp
  exact hPQ p (h s hs' p hp')

/-- Of the pipelines in its operands, none declares a variable. -/
def Pipe.Quiet (p : Pipe Handle) : Prop := ∀ q ∈ commandPipes p.commands, q.decls = []

instance (p : Pipe Handle) : Decidable p.Quiet :=
  inferInstanceAs (Decidable (∀ q ∈ commandPipes p.commands, q.decls = []))

theorem Pipe.quiet_mk {id : PipeId} {decls : List String} {commands : List (Command Handle)} :
    (Pipe.mk id decls commands).Quiet ↔ ∀ q ∈ commandPipes commands, q.decls = [] := Iff.rfl

theorem Pipe.forall_pipes {p : Pipe Handle} :
    (∀ q ∈ p.pipes, q.decls = []) ↔ p.decls = [] ∧ p.Quiet := by
  obtain ⟨id, decls, commands⟩ := p
  rw [Pipe.pipes, List.forall_mem_cons, quiet_mk, Pipe.decls_mk]

theorem Pipe.quiet_rename (g : String → String) {p : Pipe Handle} (h : p.Quiet) :
    (p.rename g).Quiet := by
  obtain ⟨id, decls, commands⟩ := p
  rw [rename, quiet_mk, commandPipes_rename]
  intro q hq
  obtain ⟨q, hq', rfl⟩ := List.mem_map.mp hq
  obtain ⟨_, names, _⟩ := q
  exact congrArg (List.map g) (h _ hq')

def Pipe.Nests (A : List String → Prop) (p : Pipe Handle) : Prop :=
  ∀ q ∈ commandPipes p.commands, A q.decls

instance (A : List String → Prop) [DecidablePred A] (p : Pipe Handle) : Decidable (p.Nests A) :=
  inferInstanceAs (Decidable (∀ q ∈ commandPipes p.commands, A q.decls))

variable {A : List String → Prop}

theorem Pipe.nests_mk {id : PipeId} {decls : List String} {commands : List (Command Handle)} :
    (Pipe.mk id decls commands).Nests A ↔ ∀ q ∈ commandPipes commands, A q.decls := Iff.rfl

theorem Pipe.forall_pipes_decls {p : Pipe Handle} :
    (∀ q ∈ p.pipes, A q.decls) ↔ A p.decls ∧ p.Nests A := by
  obtain ⟨id, decls, commands⟩ := p
  rw [Pipe.pipes, List.forall_mem_cons, nests_mk, Pipe.decls_mk]

variable {f : Fresh}

theorem Expr.nests_bound {e : Expr Handle} (he : ∀ q ∈ e.pipes, A q.decls) :
    (e.bound f).Nests A := by
  match e with
  | .atom id a => exact nofun
  | .paren _ (.mk id [] commands) | .paren _ (.mk id (name :: names) commands) =>
    exact (Pipe.forall_pipes_decls.mp he).2

theorem Expr.quiet_bound {e : Expr Handle} (he : ∀ q ∈ e.pipes, q.decls = []) :
    (e.bound f).Quiet ∧ (e.bound f).decls = [f.name] := by
  refine ⟨nests_bound (A := (· = [])) he, ?_⟩
  match e with
  | .atom .. | .paren _ (.mk id [] commands) => rfl
  | .paren _ (.mk id (name :: names) commands) =>
    exact absurd (Pipe.forall_pipes.mp he).1 (List.cons_ne_nil _ _)

theorem Expr.pipes_stub (e : Expr Handle) : (e.stub f).pipes = [] := by
  obtain ⟨name, _, hstub, -⟩ := e.exists_stub_eq f
  rw [hstub]
  rfl

theorem Fresh.nests_read : (Pipe.mk f.pipe [] [f.read]).Nests A := by
  simp [Pipe.nests_mk, commandPipes, read, reading, Command.pipes, Expr.pipes, argPipes]

theorem Pipe.Change.nests {pattern : Pattern} {p : Pipe Handle} {r : Rewriting (Pipe Handle)}
    (h : Pipe.Change f pattern p r) (hp : p.Nests A) : r.Keeps (Pipe.Nests A) f := by
  cases h with
  | unwrap id decls c x inner commands =>
    rw [nests_mk] at hp
    refine ⟨fun q hq => hp q ?_, ?_, fun _ => Fresh.nests_read⟩
    · simp only [commandPipes, Command.pipes, Expr.pipes, Pipe.pipes, argPipes]
      simpa using .inr hq
    · rintro _ ⟨⟩
  | fold id decls v value c head args rest =>
    rw [nests_mk] at hp
    refine ⟨?_, ?_, fun _ => Fresh.nests_read⟩
    · rw [nests_mk]
      simp only [commandPipes, Command.pipes, argPipes, argPipes_append, List.append_nil] at hp ⊢
      grind
    · rintro _ ⟨⟩
  | leading _ rule id decls pre rest why =>
    rw [nests_mk, commandPipes_append, List.forall_mem_append] at hp
    refine ⟨List.forall_mem_append.mpr ⟨Fresh.nests_read (f := f), hp.2⟩, ?_,
      fun _ => Fresh.nests_read⟩
    rintro _ ⟨⟩
    exact hp.1
  | head _ rule id decls c rest why =>
    obtain ⟨c, head, args⟩ := c
    rw [nests_mk, commandPipes, Command.pipes, List.append_assoc, List.forall_mem_append] at hp
    refine ⟨?_, ?_, fun _ => Fresh.nests_read⟩
    · rw [bindHead, nests_mk, commandPipes, Command.pipes, Expr.pipes_stub]
      exact hp.2
    · rintro _ ⟨⟩
      exact Expr.nests_bound hp.1
  | arg id decls pre c head before e after post hpre hbefore he =>
    simp only [nests_mk, commandPipes_append, commandPipes, Command.pipes, argPipes_append,
      argPipes, List.forall_mem_append] at hp
    obtain ⟨hpre, ⟨hhead, hbefore, he, hafter⟩, hpost⟩ := hp
    refine ⟨?_, ?_, fun _ => Fresh.nests_read⟩
    · simp only [bindArg, nests_mk, commandPipes_append, commandPipes, Command.pipes,
        argPipes_append, argPipes, Expr.pipes_stub, List.forall_mem_append]
      exact ⟨hpre, ⟨hhead, hbefore, List.forall_mem_nil _, hafter⟩, hpost⟩
    · rintro _ ⟨⟩
      exact Expr.nests_bound he
  | split id decls commands hcall =>
    refine ⟨hp, ?_, fun _ => Fresh.nests_read⟩
    rintro _ ⟨⟩

theorem Pipe.Rewrites.nests {role : Role} {p : Pipe Handle} {r : Rewriting (Pipe Handle)}
    (h : Pipe.Rewrites f role p r) (hp : p.Nests A) : r.Keeps (Pipe.Nests A) f := by
  induction h with
  | here h =>
    obtain ⟨_, _, _, _, hchange, _⟩ := Role.rewrite?_eq_some h
    exact hchange.nests hp
  | @head role id decls pre c x inner args post r hown hpre h ih =>
    simp only [nests_mk, commandPipes_append, commandPipes, Command.pipes, Expr.pipes,
      List.forall_mem_append, forall_pipes_decls] at hp
    obtain ⟨hpre, ⟨⟨hdecls, hinner⟩, hargs⟩, hpost⟩ := hp
    obtain ⟨hrest, hahead, -⟩ := ih hinner
    have hsplit := h.edit_ne_split (by simp)
    have hrest' : A r.rest.decls := by rwa [h.rest_decls, if_neg hsplit]
    refine ⟨?_, hahead, fun hedit => absurd hedit hsplit⟩
    simp only [Rewriting.map, nests_mk, commandPipes_append, commandPipes, Command.pipes,
      Expr.pipes, List.forall_mem_append, forall_pipes_decls]
    exact ⟨hpre, ⟨⟨hrest', hrest⟩, hargs⟩, hpost⟩
  | @arg role id decls pre c head before x inner after post r hown hpre hhead hbefore h ih =>
    simp only [nests_mk, commandPipes_append, commandPipes, Command.pipes, argPipes_append,
      argPipes, Expr.pipes, List.forall_mem_append, forall_pipes_decls] at hp
    obtain ⟨hpre, ⟨hhead, hbefore, ⟨hdecls, hinner⟩, hafter⟩, hpost⟩ := hp
    obtain ⟨hrest, hahead, -⟩ := ih hinner
    have hsplit := h.edit_ne_split (by simp)
    have hrest' : A r.rest.decls := by rwa [h.rest_decls, if_neg hsplit]
    refine ⟨?_, hahead, fun hedit => absurd hedit hsplit⟩
    simp only [Rewriting.map, nests_mk, commandPipes_append, commandPipes, Command.pipes,
      argPipes_append, argPipes, Expr.pipes, List.forall_mem_append, forall_pipes_decls]
    exact ⟨hpre, ⟨hhead, hbefore, ⟨hrest', hrest⟩, hafter⟩, hpost⟩

theorem nests_blockRewrite? {b : Block Handle} {r : BlockRewriting}
    (h : blockRewrite? f b = some r) (hb : Governed (Pipe.Nests A) b) :
    Governed (Pipe.Nests A) r.block :=
  governed_blockRewrite? h hb fun _ _ _ hrewrites _ hp => hrewrites.nests hp

theorem Pipe.Change.quiet {pattern : Pattern} {p : Pipe Handle} {r : Rewriting (Pipe Handle)}
    (h : Pipe.Change f pattern p r) (hp : p.Quiet) :
    r.Keeps Pipe.Quiet f ∧ ∀ a ∈ r.ahead, a.decls = [f.name] := by
  refine ⟨h.nests (A := (· = [])) hp, ?_⟩
  cases h with
  | unwrap | fold | split => exact nofun
  | leading =>
    rintro _ ⟨⟩
    rfl
  | head _ rule id decls c rest why =>
    obtain ⟨c, head, args⟩ := c
    rw [quiet_mk, commandPipes, Command.pipes, List.append_assoc, List.forall_mem_append] at hp
    rintro _ ⟨⟩
    exact (Expr.quiet_bound hp.1).2
  | arg id decls pre c head before e after post hpre hbefore he =>
    simp only [quiet_mk, commandPipes_append, commandPipes, Command.pipes, argPipes_append,
      argPipes, List.forall_mem_append] at hp
    rintro _ ⟨⟩
    exact (Expr.quiet_bound hp.2.1.2.2.1).2

theorem Pipe.Rewrites.quiet {role : Role} {p : Pipe Handle} {r : Rewriting (Pipe Handle)}
    (h : Pipe.Rewrites f role p r) (hp : p.Quiet) :
    r.Keeps Pipe.Quiet f ∧ ∀ a ∈ r.ahead, a.decls = [f.name] := by
  refine ⟨h.nests (A := (· = [])) hp, ?_⟩
  induction h with
  | here h =>
    obtain ⟨_, _, _, _, hchange, _⟩ := Role.rewrite?_eq_some h
    exact (hchange.quiet hp).2
  | head hown hpre h ih =>
    simp only [quiet_mk, commandPipes_append, commandPipes, Command.pipes, Expr.pipes,
      List.forall_mem_append, forall_pipes] at hp
    exact ih hp.2.1.1.2
  | arg hown hpre hhead hbefore h ih =>
    simp only [quiet_mk, commandPipes_append, commandPipes, Command.pipes, argPipes_append,
      argPipes, Expr.pipes, List.forall_mem_append, forall_pipes] at hp
    exact ih hp.2.1.2.2.1.2

theorem quiet_blockRewrite? {b : Block Handle} {r : BlockRewriting}
    (h : blockRewrite? f b = some r) (hb : Governed Pipe.Quiet b) :
    Governed Pipe.Quiet r.block :=
  nests_blockRewrite? (A := (· = [])) h hb

end FlatTemplate

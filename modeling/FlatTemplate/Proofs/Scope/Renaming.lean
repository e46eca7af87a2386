import FlatTemplate.Proofs.Scope.Exactness
import FlatTemplate.Proofs.Template.Equivariance
import FlatTemplate.Proofs.Template.Naming

namespace FlatTemplate

section Named

variable {A : String → Prop} {p : Pipe Handle} {c : Command Handle}

theorem Pipe.Named.of_mem {q : Pipe Handle} (h : p.Named A) (hq : q ∈ p.pipes) : q.Named A := by
  intro e he
  obtain ⟨r, hr, he⟩ := List.mem_flatMap.mp (q.entries_perm.mem_iff.mp he)
  exact h e (p.entries_perm.mem_iff.mpr (List.mem_flatMap.mpr ⟨r, p.pipes_subset hq hr, he⟩))

theorem Pipe.mem_pipes_of_operand (hc : c ∈ p.commands) {id : ExprId} {inner : Pipe Handle}
    (hx : .paren id inner ∈ c.operands) : inner ∈ p.pipes := by
  rw [p.pipes_eq]
  exact List.mem_cons_of_mem _ (mem_commandPipes_of_operand hc hx)

theorem Pipe.Named.decls (h : p.Named A) : ∀ name ∈ p.decls, A name :=
  h p.entry (p.entries_perm.mem_iff.mpr
    (List.mem_flatMap.mpr ⟨p, p.mem_pipes_self, p.entry_mem_nodes⟩))

theorem Pipe.Named.operand (h : p.Named A) (hc : c ∈ p.commands) {e : Expr Handle}
    (he : e ∈ c.operands) : e.entry.Named A :=
  h e.entry (p.entries_perm.mem_iff.mpr
    (List.mem_flatMap.mpr ⟨p, p.mem_pipes_self, Expr.entry_mem_nodes hc he⟩))

end Named

section Rename

variable (g : String → String)

theorem Pipe.decls_rename (p : Pipe Handle) : (p.rename g).decls = p.decls.map g := by
  cases p
  rfl

theorem Pipe.commands_rename (p : Pipe Handle) :
    (p.rename g).commands = p.commands.map (Command.rename g) := by
  cases p
  exact commandRename_eq_map g _

theorem Command.operands_rename (c : Command Handle) :
    (c.rename g).operands = c.operands.map (Expr.rename g) := by
  cases c
  exact congrArg _ (argRename_eq_map g _)

theorem Command.hoists_rename (c : Command Handle) (e : Expr Handle) :
    (c.rename g).hoists (e.rename g) = c.hoists e := by
  rw [← c.relabel_ofNames, ← e.relabel_ofNames, hoists_relabel]

theorem Command.isPlain_rename (c : Command Handle) :
    (c.rename g).view.isPlain = c.view.isPlain := by
  rw [← c.relabel_ofNames, view_relabel, CommandView.isPlain_relabel]

variable {g} {x : String} {n : Nat} {p : Pipe Handle}

/-- No other name is renamed to what `x` is. -/
abbrev Apart (g : String → String) (x y : String) : Prop := g y = g x → y = x

theorem Atom.reads_rename {id : ExprId} {a : Atom} (h : (Entry.expr id (.atom a)).Named (Apart g x)) :
    (a.rename g).reads (g x) n id = a.reads x n id := by
  match a with
  | .var (first :: path) =>
    have hiff : g first = g x ↔ first = x := ⟨h first rfl, congrArg g⟩
    simp only [Atom.rename, reads, hiff]
  | .var [] | .field _ | .dot | .identifier _ | .str _ | .number _ | .bool _ => rfl

theorem Pipe.mem_decls_rename (h : p.Named (Apart g x)) : g x ∈ (p.rename g).decls ↔ x ∈ p.decls := by
  rw [p.decls_rename]
  refine ⟨fun hmem => ?_, List.mem_map_of_mem⟩
  obtain ⟨y, hy, heq⟩ := List.mem_map.mp hmem
  exact h.decls y hy heq ▸ hy

theorem Pipe.steps_rename (h : p.Named (Apart g x)) :
    (p.rename g).steps (g x) n = p.steps x n := by
  induction p using Pipe.forall_of_operands with | h p ih
  rw [(p.rename g).steps_eq, p.steps_eq, p.commands_rename, p.tag_rename, List.flatMap_map]
  refine congrArg₂ _ (List.flatMap_congr fun c hc => ?_) (if_congr (mem_decls_rename h) rfl rfl)
  rw [(c.rename g).steps_eq, c.steps_eq, c.operands_rename, List.flatMap_map]
  refine List.flatMap_congr fun e he => ?_
  cases e with
  | atom id a =>
    have hatom : (Entry.expr id (.atom a)).Named (Apart g x) := h.operand hc he
    rw [Expr.rename, Expr.steps, Expr.steps, Atom.reads_rename hatom]
  | paren id inner => exact ih c hc id inner he (h.of_mem (mem_pipes_of_operand hc he))

theorem Command.moved_rename {c : Command Handle}
    (h : ∀ e ∈ c.operands, (e.rename g).moved (g x) n = e.moved x n) :
    (c.rename g).moved (g x) n = c.moved x n := by
  have hoperands (which : Expr Handle → Bool) :
      ((c.operands.filter which).map (Expr.rename g)).flatMap (Expr.moved (g x) n) =
        (c.operands.filter which).flatMap (Expr.moved x n) := by
    rw [List.flatMap_map]
    exact List.flatMap_congr fun e he => h e (List.mem_of_mem_filter he)
  rw [(c.rename g).moved_eq, c.moved_eq, c.operands_rename, List.filter_map, List.filter_map,
    ← hoperands, ← hoperands]
  simp only [Function.comp_def, c.hoists_rename]

theorem passedMoved_rename {cs : List (Command Handle)}
    (h : ∀ c ∈ cs, (c.rename g).moved (g x) n = c.moved x n) :
    passedMoved (g x) n (cs.map (Command.rename g)) = passedMoved x n cs := by
  have hall {cs : List (Command Handle)} (h : ∀ c ∈ cs, (c.rename g).moved (g x) n = c.moved x n) :
      (cs.map (Command.rename g)).flatMap (Command.moved (g x) n) =
        cs.flatMap (Command.moved x n) := by
    rw [List.flatMap_map]
    exact List.flatMap_congr h
  match cs with
  | [] => rfl
  | [c] => exact h c (List.mem_singleton_self c)
  | l :: c :: cs =>
    obtain ⟨hl, hc, hcs⟩ := List.forall_mem_cons.mp h |>.imp_right List.forall_mem_cons.mp
    rw [List.map_cons, List.map_cons, passedMoved, passedMoved, commandMoved_eq, commandMoved_eq,
      l.isPlain_rename, hl, hc, hall hcs]

theorem lone_of_rename {cs : List (Command Handle)} {c : CommandId} {y : ExprId}
    {inner : Pipe Handle} (h : cs.map (Command.rename g) = [.mk c (.paren y inner) []]) :
    ∃ c y inner, cs = [.mk c (.paren y inner) []] := by
  obtain ⟨⟨id, head, args⟩, rfl, hcommand⟩ := List.map_eq_singleton_iff.mp h
  obtain ⟨-, hhead, hargs⟩ := Command.mk.inj hcommand
  cases head with
  | atom => cases hhead
  | paren y inner =>
    rw [argRename_eq_map, List.map_eq_nil_iff] at hargs
    exact ⟨id, y, inner, by rw [hargs]⟩

theorem Pipe.moved_rename (h : p.Named (Apart g x)) :
    (p.rename g).moved (g x) n = p.moved x n ∧ (p.rename g).front (g x) n = p.front x n := by
  induction p using Pipe.forall_of_operands with | h p ih
  have hpassed : passedMoved (g x) n (p.commands.map (Command.rename g)) =
      passedMoved x n p.commands := by
    refine passedMoved_rename fun c hc => Command.moved_rename fun e he => ?_
    cases e with
    | atom id a =>
      have hatom : (Entry.expr id (.atom a)).Named (Apart g x) := h.operand hc he
      rw [Expr.rename, Expr.moved, Expr.moved, Atom.reads_rename hatom]
    | paren id inner => exact (ih c hc id inner he (h.of_mem (mem_pipes_of_operand hc he))).1
  constructor
  · rw [(p.rename g).moved_eq, p.moved_eq, p.commands_rename, p.tag_rename, hpassed]
    exact congrArg _ (if_congr (mem_decls_rename h) rfl rfl)
  · obtain ⟨id, decls, commands⟩ := p
    rw [Pipe.rename, commandRename_eq_map, Pipe.front, Pipe.front]
    by_cases hlone : ∃ c y inner, commands = [.mk c (.paren y inner) []]
    · obtain ⟨c, y, inner, rfl⟩ := hlone
      have hc := List.mem_singleton_self (Command.mk c (.paren y inner) [])
      exact (ih _ hc y inner List.mem_cons_self
        (h.of_mem (mem_pipes_of_operand hc List.mem_cons_self))).2
    · rw [commandFront_eq (fun c y inner hcommands => hlone (lone_of_rename hcommands)),
        commandFront_eq (fun c y inner hcommands => hlone ⟨c, y, inner, hcommands⟩)]
      exact hpassed

theorem Pipe.nests_rename (h : p.Named (Apart g x)) (hp : p.Nests (x ∉ ·)) :
    (p.rename g).Nests (g x ∉ ·) := by
  obtain ⟨id, decls, commands⟩ := p
  rw [Pipe.rename, nests_mk, commandPipes_rename]
  intro q hq
  obtain ⟨q, hq', rfl⟩ := List.mem_map.mp hq
  exact (Pipe.mem_decls_rename (h.of_mem (List.mem_cons_of_mem _ hq'))).not.mpr (hp q hq')

theorem Pipe.passing_rename (h : p.Named (Apart g x)) (hp : p.Passing x) :
    (p.rename g).Passing (g x) :=
  hp.imp (Pipe.formed_rename stable_actionsIn g) (nests_rename h)

end Rename

section Blocks

variable {g : String → String} {x : String} {n : Nat}

structure Course.Renames (g : String → String) (course course' : Course) (p : Pipe Handle) : Prop where
  steps : course'.steps (p.rename g) = course.steps p
  lasting : course'.lasting (p.rename g) = course.lasting p

variable {course course' : Course}

theorem Stmt.behind_rename (s : Stmt Handle) (h : Governed (course.Renames g course') [s])
    (scope : Option PipeId) : (s.rename g).behind course' scope = s.behind course scope := by
  match s with
  | .text .. | .invoke _ _ none => rfl
  | .action _ p | .invoke _ _ (some p) =>
    have hp : course.Renames g course' p := Stmt.governed_own rfl h
    exact congrArg (latest scope) hp.steps
  | .branch _ _ p _ _ => exact congrArg (latest scope) (governed_branch.mp h).1.lasting

mutual

theorem Stmt.resolved_rename (s : Stmt Handle) (h : Governed (course.Renames g course') [s])
    (scope : Option PipeId) : (s.rename g).resolved course' scope = s.resolved course scope := by
  match s with
  | .text .. | .invoke _ _ none => rfl
  | .action _ p | .invoke _ _ (some p) =>
    have hp : course.Renames g course' p := Stmt.governed_own rfl h
    rw [Stmt.rename, Stmt.resolved, Stmt.resolved, hp.steps]
  | .branch id kind p body elseBody =>
    obtain ⟨hp, hbody, helse⟩ := governed_branch.mp h
    rw [Stmt.rename, Stmt.resolved, Stmt.resolved, hp.steps, blockResolved_rename body hbody,
      blockResolved_rename elseBody helse]

theorem blockResolved_rename (b : Block Handle) (h : Governed (course.Renames g course') b)
    (scope : Option PipeId) :
    blockResolved course' scope (blockRename g b) = blockResolved course scope b := by
  match b with
  | [] => rfl
  | s :: b =>
    obtain ⟨hs, hb⟩ := governed_cons.mp h
    rw [blockRename, blockResolved, blockResolved, s.resolved_rename hs, s.behind_rename hs,
      blockResolved_rename b hb]

end

theorem written_rename {b : Block Handle} (h : Governed (Pipe.Named (Apart g x)) b) :
    blockResolved (.written (g x) n) none (blockRename g b) =
      blockResolved (.written x n) none b :=
  blockResolved_rename b (h.imp fun _ hp => ⟨Pipe.steps_rename hp, rfl⟩) none

theorem hoisted_rename {b : Block Handle} (h : Governed (Pipe.Named (Apart g x)) b) :
    blockResolved (.hoisted (g x) n) none (blockRename g b) =
      blockResolved (.hoisted x n) none b :=
  blockResolved_rename b (h.imp fun _ hp => ⟨(Pipe.moved_rename hp).1, (Pipe.moved_rename hp).2⟩) none

theorem kept_rename {b : Block Handle} (h : Governed (Pipe.Named (Apart g x)) b)
    (nodup : (blockKeys b).Nodup) : Kept (g x) n (blockRename g b) ↔ Kept x n b := by
  rw [← kept_iff nodup, ← kept_iff (by rwa [blockKeys_rename]), written_rename h, hoisted_rename h]

end Blocks

end FlatTemplate

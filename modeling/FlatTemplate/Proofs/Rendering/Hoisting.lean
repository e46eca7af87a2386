import FlatTemplate.Proofs.Rendering.Renaming
import FlatTemplate.Proofs.Template.Nesting

namespace FlatTemplate

variable {V : Type*} (I : Interpretation V)

def Rewriting.behind {α : Type} (s : Frame V) (r : Rewriting α) : Frame V :=
  match r.ahead with
  | none => s
  | some a => s.declare a.decls (a.value I s)

section Agreeing

variable {A : String → Prop} {s s' : Frame V}

theorem argValues_congr (h : s.Renames id A s') {es : List (Expr Handle)}
    (hes : ∀ x ∈ argEntries es, x.Named A) : argValues I s' es = argValues I s es := by
  have := argValues_rename I h es hes
  rwa [argRename_id] at this

theorem Expr.applied_congr (h : s.Renames id A s') {e : Expr Handle}
    (he : ∀ x ∈ e.entries, x.Named A) (args : List V) :
    e.applied I s' args = e.applied I s args := by
  have := e.applied_rename I h he args
  rwa [Expr.rename_id] at this

theorem commandsValue_congr (h : s.Renames id A s') {cs : List (Command Handle)}
    (hcs : ∀ x ∈ commandEntries cs, x.Named A) (piped : Option V) :
    commandsValue I s' piped cs = commandsValue I s piped cs := by
  have := commandsValue_rename I h cs hcs piped
  rwa [commandRename_id] at this

theorem Pipe.value_congr (h : s.Renames id A s') {p : Pipe Handle} (hp : p.Named A) :
    p.value I s' = p.value I s := by
  have := p.value_rename I h hp
  rwa [Pipe.rename_id] at this

end Agreeing

variable (s : Frame V) {f : Fresh}

theorem Frame.declare_agrees (name : String) (v : V) :
    s.Renames id (· ≠ name) (s.declare [name] v) :=
  ⟨rfl, fun _ hx => by simp [declare, bind, Function.update_of_ne hx]⟩

theorem Frame.vars_declare (name : String) (v : V) : (s.declare [name] v).vars name = v := by
  simp [declare, bind]

@[simp] theorem argValues_append (as bs : List (Expr Handle)) :
    argValues I s (as ++ bs) = argValues I s as ++ argValues I s bs := by
  induction as with
  | nil => rfl
  | cons e es ih => rw [List.cons_append, argValues, argValues, ih, List.cons_append]

theorem commandsValue_append (piped : Option V) (cs ds : List (Command Handle)) :
    commandsValue I s piped (cs ++ ds) =
      commandsValue I s (commandsValue I s piped cs) ds := by
  induction cs generalizing piped with
  | nil => rfl
  | cons c cs ih => rw [List.cons_append, commandsValue, commandsValue, ih]

theorem exists_commandsValue {cs : List (Command Handle)} (h : cs ≠ []) (piped : Option V) :
    ∃ v, commandsValue I s piped cs = some v := by
  induction cs generalizing piped with
  | nil => exact absurd rfl h
  | cons c cs ih =>
    rw [commandsValue]
    by_cases hcs : cs = []
    · exact ⟨_, by rw [hcs, commandsValue]⟩
    · exact ih hcs _

theorem Expr.applied_nil {e : Expr Handle} (he : e.node.isIdentifier = false) :
    e.applied I s [] = e.value I s := by
  match e with
  | .paren .. | .atom _ (.var []) | .atom _ (.var [_]) | .atom _ (.var (_ :: _ :: _))
  | .atom _ (.field _) | .atom _ .dot | .atom _ (.str _) | .atom _ (.number _)
  | .atom _ (.bool _) => rfl
  | .atom _ (.identifier _) => cases he

theorem Fresh.value_read (piped : List V) :
    f.read.head.applied I s piped = I.applied (s.vars f.name) piped := by
  cases piped <;> rfl

theorem Expr.stub_of_quiet {e : Expr Handle} (he : ∀ q ∈ e.pipes, q.decls = []) :
    e.stub f = f.reading f.name := by
  obtain ⟨name, names, hstub, hdecls⟩ := e.exists_stub_eq f
  obtain ⟨rfl, -⟩ := List.cons.inj (hdecls.symm.trans (Expr.quiet_bound he).2)
  exact hstub

theorem Expr.applied_stub {e : Expr Handle} (he : ∀ q ∈ e.pipes, q.decls = []) (args : List V) :
    (e.stub f).applied I s args = I.applied (s.vars f.name) args := by
  rw [stub_of_quiet he]
  exact Fresh.value_read I s args

theorem Expr.value_stub {e : Expr Handle} (he : ∀ q ∈ e.pipes, q.decls = []) :
    (e.stub f).value I s = s.vars f.name := by
  rw [stub_of_quiet he]
  rfl

theorem Expr.value_bound {e : Expr Handle} (he : ∀ q ∈ e.pipes, q.decls = [])
    (hid : e.node.isIdentifier = false) : (e.bound f).value I s = e.value I s := by
  match e with
  | .atom id a => exact Expr.applied_nil I s hid
  | .paren _ (.mk _ [] _) => rfl
  | .paren _ (.mk id (name :: names) commands) =>
    exact absurd (Pipe.forall_pipes.mp he).1 (List.cons_ne_nil _ _)

theorem Pipe.Change.value {pattern : Pattern} {p : Pipe Handle} {r : Rewriting (Pipe Handle)}
    (h : Pipe.Change f pattern p r) (hp : p.Named (· ≠ f.name)) (hquiet : p.Quiet) :
    r.rest.value I (r.behind I s) = p.value I s := by
  cases h with
  | unwrap id decls c x inner commands => rfl
  | fold id decls v value c head args rest hcall hfold =>
    have hvalue := Expr.applied_nil I s (not_isIdentifier (.inr (.inr hfold)))
    simp only [Rewriting.behind, Pipe.value, commandsValue, Command.value, argValues_append,
      argValues, Option.toList_none, Option.toList_some, List.append_nil, hvalue]
  | leading _ rule id decls pre rest why =>
    rw [named_iff, commandEntries_append, List.forall_mem_append] at hp
    obtain ⟨v, hv⟩ := exists_commandsValue I s why.ne_nil none
    have hahead : (Pipe.mk f.pipe [f.name] pre).value I s = v := by
      rw [Pipe.value, hv, Option.getD_some]
    have hrest := commandsValue_congr I (s.declare_agrees f.name v) hp.2.2 (some v)
    have hread : f.read.value I (s.declare [f.name] v) none = v := s.vars_declare f.name v
    change (commandsValue I (s.declare [f.name] ((Pipe.mk f.pipe [f.name] pre).value I s)) none
      (f.read :: rest)).getD I.unbound = (commandsValue I s none (pre ++ rest)).getD I.unbound
    rw [hahead, commandsValue_append, hv, commandsValue, hread, hrest]
  | head _ rule id decls c rest why =>
    obtain ⟨c, head, args⟩ := c
    rw [named_iff, commandEntries, Command.entries, List.cons_append, List.forall_mem_cons,
      List.forall_mem_append, List.forall_mem_append] at hp
    obtain ⟨-, -, ⟨-, hargs⟩, hrest⟩ := hp
    rw [quiet_mk, commandPipes, Command.pipes, List.append_assoc, List.forall_mem_append] at hquiet
    have hbound := Expr.value_bound I s (f := f) hquiet.1
      (not_isIdentifier (why.paren_or_read.imp_right fun h => .inl h.2))
    have hagrees := s.declare_agrees f.name (head.value I s)
    have hargs := argValues_congr I hagrees hargs
    have happlied : I.applied (head.value I s) (argValues I s args) =
        head.applied I s (argValues I s args) := by
      rcases why.paren_or_read with hparen | ⟨rfl, hread⟩
      · match head with
        | .paren _ _ => rfl
      · exact (Expr.applied_nil I s (not_isIdentifier (.inr (.inl hread)))).symm
    have hstub := Expr.applied_stub I (s.declare [f.name] (head.value I s)) (f := f) hquiet.1
    change (commandsValue I (s.declare (head.bound f).decls ((head.bound f).value I s)) none
      (.mk c (head.stub f) args :: rest)).getD I.unbound = _
    rw [(Expr.quiet_bound hquiet.1).2, hbound, Pipe.value, commandsValue, commandsValue,
      commandsValue_congr I hagrees hrest, Command.value, Command.value, Option.toList_none,
      List.append_nil, List.append_nil, hstub, hargs, s.vars_declare, happlied]
  | arg id decls pre c head before e after post hpre hbefore he =>
    simp only [named_iff, commandEntries_append, commandEntries, Command.entries, argEntries_append,
      argEntries, List.cons_append, List.forall_mem_cons, List.forall_mem_append] at hp
    obtain ⟨-, hpre, -, ⟨hhead, hbefore, -, hafter⟩, hpost⟩ := hp
    simp only [quiet_mk, commandPipes_append, commandPipes, Command.pipes, argPipes_append,
      argPipes, List.forall_mem_append] at hquiet
    have hquiet := hquiet.2.1.2.2.1
    have hbound := Expr.value_bound I s (f := f) hquiet
      (not_isIdentifier ((Command.paren_or_read_of_hoists he).imp_right .inl))
    have hagrees := s.declare_agrees f.name (e.value I s)
    have hstub := Expr.value_stub I (s.declare [f.name] (e.value I s)) (f := f) hquiet
    change (commandsValue I (s.declare (e.bound f).decls ((e.bound f).value I s)) none
      (pre ++ .mk c head (before ++ e.stub f :: after) :: post)).getD I.unbound = _
    rw [(Expr.quiet_bound hquiet).2, hbound, Pipe.value]
    simp only [commandsValue_append, commandsValue, Command.value, argValues_append, argValues,
      commandsValue_congr I hagrees hpre, commandsValue_congr I hagrees hpost,
      argValues_congr I hagrees hbefore, argValues_congr I hagrees hafter,
      Expr.applied_congr I hagrees hhead, hstub, s.vars_declare]
  | split id decls commands hcall => rfl

theorem Rewriting.behind_map {α β : Type} (g : α → β) (r : Rewriting α) :
    (r.map g).behind I s = r.behind I s := rfl

theorem Rewriting.behind_agrees {α : Type} {r : Rewriting α}
    (h : ∀ a ∈ r.ahead, a.decls = [f.name]) : s.Renames id (· ≠ f.name) (r.behind I s) := by
  unfold Rewriting.behind
  split
  · exact ⟨rfl, fun _ _ => rfl⟩
  · next a ha =>
    rw [h a ha]
    exact s.declare_agrees _ _

theorem Pipe.Rewrites.value {role : Role} {p : Pipe Handle} {r : Rewriting (Pipe Handle)}
    (h : Pipe.Rewrites f role p r) (hp : p.Named (· ≠ f.name)) (hquiet : p.Quiet) :
    r.rest.value I (r.behind I s) = p.value I s := by
  have hagrees := Rewriting.behind_agrees I s (h.quiet hquiet).2
  -- The parts around the changed operand do not see the temporary, so their values stay.
  induction h with
  | here h =>
    obtain ⟨_, _, _, _, hchange, _⟩ := Role.rewrite?_eq_some h
    exact hchange.value I s hp hquiet
  | @head role id decls pre c x inner args post r hown hpre h ih =>
    simp only [named_iff, commandEntries_append, commandEntries, Command.entries, Expr.entries,
      List.cons_append, List.forall_mem_cons, List.forall_mem_append] at hp
    obtain ⟨-, hpre, -, -, ⟨hinner, hargs⟩, hpost⟩ := hp
    simp only [quiet_mk, commandPipes_append, commandPipes, Command.pipes, Expr.pipes,
      List.forall_mem_append, forall_pipes] at hquiet
    rw [Rewriting.behind_map] at hagrees ⊢
    have hvalue := ih hinner hquiet.2.1.1.2 hagrees
    simp only [Rewriting.map, Pipe.value, commandsValue_append, commandsValue, Command.value,
      Expr.applied, hvalue, commandsValue_congr I hagrees hpre, commandsValue_congr I hagrees hpost,
      argValues_congr I hagrees hargs]
  | @arg role id decls pre c head before x inner after post r hown hpre hhead hbefore h ih =>
    simp only [named_iff, commandEntries_append, commandEntries, Command.entries,
      argEntries_append, argEntries, Expr.entries, List.cons_append, List.forall_mem_cons,
      List.forall_mem_append] at hp
    obtain ⟨-, hpre, -, ⟨hhead, hbefore, -, hinner, hafter⟩, hpost⟩ := hp
    simp only [quiet_mk, commandPipes_append, commandPipes, Command.pipes, argPipes_append,
      argPipes, Expr.pipes, List.forall_mem_append, forall_pipes] at hquiet
    rw [Rewriting.behind_map] at hagrees ⊢
    have hvalue := ih hinner hquiet.2.1.2.2.1.2 hagrees
    simp only [Rewriting.map, Pipe.value, commandsValue_append, commandsValue, Command.value,
      argValues_append, argValues, Expr.value, hvalue, commandsValue_congr I hagrees hpre,
      commandsValue_congr I hagrees hpost, argValues_congr I hagrees hbefore,
      argValues_congr I hagrees hafter, Expr.applied_congr I hagrees hhead]

end FlatTemplate

import FlatTemplate.Proofs.Template.Heads

/-!
A change of a pipeline moves the operands that are atoms and the declarations. It brings in a
reference to what it binds, and the declaration of a temporary.
-/

namespace FlatTemplate

namespace Entry

def decls : Entry → List String
  | .pipe _ node => node.decls
  | _ => []

def isAtom : Entry → Bool
  | .expr _ (.atom _) => true
  | _ => false

end Entry

def atomsIn (es : List Entry) : List Entry := es.filter Entry.isAtom

def declsIn (es : List Entry) : List String := es.flatMap Entry.decls

section Simp

variable (es es' : List Entry) (e : ExprId) (a : Atom) (inner : PipeId)

@[simp] theorem atomsIn_nil : atomsIn [] = [] := rfl

@[simp] theorem atomsIn_append : atomsIn (es ++ es') = atomsIn es ++ atomsIn es' :=
  List.filter_append ..

@[simp] theorem atomsIn_stmt (id : StmtId) (node : StmtNode) :
    atomsIn (.stmt id node :: es) = atomsIn es := rfl

@[simp] theorem atomsIn_pipe (id : PipeId) (node : PipeNode) :
    atomsIn (.pipe id node :: es) = atomsIn es := rfl

@[simp] theorem atomsIn_command (id : CommandId) (node : CommandNode) :
    atomsIn (.command id node :: es) = atomsIn es := rfl

@[simp] theorem atomsIn_atom :
    atomsIn (.expr e (.atom a) :: es) = .expr e (.atom a) :: atomsIn es := rfl

@[simp] theorem atomsIn_paren : atomsIn (.expr e (.paren inner) :: es) = atomsIn es := rfl

@[simp] theorem declsIn_nil : declsIn [] = [] := rfl

@[simp] theorem declsIn_append : declsIn (es ++ es') = declsIn es ++ declsIn es' :=
  List.flatMap_append ..

@[simp] theorem declsIn_stmt (id : StmtId) (node : StmtNode) :
    declsIn (.stmt id node :: es) = declsIn es := rfl

@[simp] theorem declsIn_pipe (id : PipeId) (node : PipeNode) :
    declsIn (.pipe id node :: es) = node.decls ++ declsIn es := rfl

@[simp] theorem declsIn_command (id : CommandId) (node : CommandNode) :
    declsIn (.command id node :: es) = declsIn es := rfl

@[simp] theorem declsIn_expr (node : ExprNode) : declsIn (.expr e node :: es) = declsIn es := rfl

end Simp

structure Declaration where
  pipe : PipeId
  name : String
  others : List String
  deriving DecidableEq, Repr

def Declaration.names (d : Declaration) : List String := d.name :: d.others

def declarations (id : PipeId) : List String → List Declaration
  | [] => []
  | name :: others => [⟨id, name, others⟩]

theorem flatMap_names_declarations (id : PipeId) (decls : List String) :
    (declarations id decls).flatMap Declaration.names = decls := by
  cases decls <;> simp [declarations, Declaration.names]

def Entry.declared : Entry → List Declaration
  | .pipe id node => declarations id node.decls
  | _ => []

def declarationsIn (es : List Entry) : List Declaration := es.flatMap Entry.declared

section Simp

variable (es es' : List Entry) (e : ExprId)

@[simp] theorem declarationsIn_nil : declarationsIn [] = [] := rfl

@[simp] theorem declarationsIn_append :
    declarationsIn (es ++ es') = declarationsIn es ++ declarationsIn es' := List.flatMap_append ..

@[simp] theorem declarationsIn_stmt (id : StmtId) (node : StmtNode) :
    declarationsIn (.stmt id node :: es) = declarationsIn es := rfl

@[simp] theorem declarationsIn_pipe (id : PipeId) (node : PipeNode) :
    declarationsIn (.pipe id node :: es) = declarations id node.decls ++ declarationsIn es := rfl

@[simp] theorem declarationsIn_command (id : CommandId) (node : CommandNode) :
    declarationsIn (.command id node :: es) = declarationsIn es := rfl

@[simp] theorem declarationsIn_expr (node : ExprNode) :
    declarationsIn (.expr e node :: es) = declarationsIn es := rfl

end Simp

theorem declsIn_eq (es : List Entry) :
    declsIn es = (declarationsIn es).flatMap Declaration.names := by
  rw [declarationsIn, List.flatMap_assoc]
  refine List.flatMap_congr fun e _ => ?_
  match e with
  | .pipe id node => exact (flatMap_names_declarations id node.decls).symm
  | .stmt .. | .command .. | .expr .. => rfl

namespace Pipe

def declared (p : Pipe Handle) : List Declaration := declarations p.tag p.decls

def nested (p : Pipe Handle) : List Declaration := declarationsIn (commandEntries p.commands)

theorem declarationsIn_entries (p : Pipe Handle) :
    declarationsIn p.entries = p.declared ++ p.nested := by
  obtain ⟨id, decls, commands⟩ := p
  rfl

theorem nested_mk (id : PipeId) (decls : List String) (commands : List (Command Handle)) :
    (Pipe.mk id decls commands).nested = declarationsIn (commandEntries commands) := rfl

end Pipe

def Fresh.reference (f : Fresh) (name : String) : Entry := .expr f.expr (.atom (.var [name]))

def Rewriting.entries (f : Fresh) (r : Rewriting (Pipe Handle)) : List Entry :=
  (r.ahead.map Pipe.entries).getD [] ++ (r.rest.entries ++
    if r.found.edit = .splitPrint then (Pipe.mk f.pipe [] [f.read]).entries else [])

def Rewriting.name? {α : Type} (f : Fresh) (r : Rewriting α) : Option String :=
  if r.found.edit = .splitPrint then some f.name else r.ahead.bind (·.decls.head?)

def Rewriting.references {α : Type} (f : Fresh) (r : Rewriting α) : List Entry :=
  (r.name? f).toList.map f.reference

def Rewriting.turned {α : Type} (r : Rewriting α) : List Declaration :=
  bif r.taken then [] else (r.ahead.map Pipe.declared).getD []

section Changes

variable {f : Fresh}

theorem Expr.atomsIn_bound (e : Expr Handle) :
    (atomsIn (e.bound f).entries ++ atomsIn (e.stub f).entries).Perm
      ((e.bound f).decls.head?.toList.map f.reference ++ atomsIn e.entries) := by
  match e with
  | .atom .. | .paren _ (.mk _ [] _) | .paren _ (.mk _ (_ :: _) _) =>
    simp only [bound, stub, Pipe.entries, Fresh.reading, Fresh.reference, Expr.entries,
      commandEntries, Command.entries, argEntries, atomsIn_pipe, atomsIn_command, atomsIn_append,
      atomsIn_atom, atomsIn_paren, atomsIn_nil, Pipe.decls_mk, List.head?_cons, Option.toList_some,
      List.map_cons, List.map_nil]
    grind

theorem Expr.declarationsIn_bound (e : Expr Handle) : declarationsIn e.entries =
    (bif e.takes then [] else (e.bound f).declared) ++
      ((e.bound f).nested ++ declarationsIn (e.stub f).entries) := by
  match e with
  | .atom .. | .paren _ (.mk _ [] _) | .paren _ (.mk _ (_ :: _) _) =>
    simp [bound, stub, takes, Pipe.declared, Pipe.nested, declarations, Expr.entries, Pipe.entries,
      Fresh.reading, commandEntries, Command.entries, argEntries]

theorem Pipe.Change.perm_atomsIn {pattern : Pattern} {p : Pipe Handle}
    {r : Rewriting (Pipe Handle)} (h : Pipe.Change f pattern p r) :
    (atomsIn (r.entries f)).Perm (r.references f ++ atomsIn p.entries) := by
  cases h with
  | unwrap id decls c x inner commands =>
    simp [Rewriting.entries, Rewriting.references, Rewriting.name?, Pipe.entries, commandEntries,
      Command.entries, Expr.entries, argEntries]
  | fold id decls v value c head args rest =>
    simp [Rewriting.entries, Rewriting.references, Rewriting.name?, Pipe.entries, commandEntries,
      Command.entries, argEntries]
    grind
  | leading _ rule id decls pre rest why =>
    simp [Rewriting.entries, Rewriting.references, Rewriting.name?, bindLeading, Pipe.entries,
      commandEntries, Command.entries, argEntries, Expr.entries, Fresh.read, Fresh.reading,
      Fresh.reference]
  | head _ rule id decls c rest why =>
    obtain ⟨c, head, args⟩ := c
    have hbound := head.atomsIn_bound (f := f)
    simp [Rewriting.entries, Rewriting.references, Rewriting.name?, bindHead, Pipe.entries,
      commandEntries, Command.entries]
    rw [List.perm_iff_count] at hbound ⊢
    intro x
    have := hbound x
    simp only [List.count_append] at this ⊢
    omega
  | arg id decls pre c head before e after post hpre hbefore he =>
    have hbound := e.atomsIn_bound (f := f)
    simp [Rewriting.entries, Rewriting.references, Rewriting.name?, bindArg, Pipe.entries,
      commandEntries, Command.entries, argEntries]
    rw [List.perm_iff_count] at hbound ⊢
    intro x
    have := hbound x
    simp only [List.count_append] at this ⊢
    omega
  | split id decls commands hcall =>
    simp [Rewriting.entries, Rewriting.references, Rewriting.name?, Pipe.entries,
      commandEntries, Command.entries, argEntries, Expr.entries, Fresh.read, Fresh.reading,
      Fresh.reference]

theorem Rewriting.perm_atomsIn_map {p : Pipe Handle} {r : Rewriting (Pipe Handle)}
    (h : (atomsIn (r.entries f)).Perm (r.references f ++ atomsIn p.entries))
    (g : Pipe Handle → Pipe Handle) (atoms : List Entry)
    (hg : ∀ q, (atomsIn (g q).entries).Perm (atomsIn q.entries ++ atoms)) :
    (atomsIn ((r.map g).entries f)).Perm ((r.map g).references f ++ atomsIn (g p).entries) := by
  have hentries : (r.map g).entries f = (r.ahead.map Pipe.entries).getD [] ++
      ((g r.rest).entries ++ if r.found.edit = .splitPrint then
        (Pipe.mk f.pipe [] [f.read]).entries else []) := rfl
  have hp := hg p
  have hrest := hg r.rest
  rw [hentries, show (r.map g).references f = r.references f from rfl]
  simp only [Rewriting.entries, atomsIn_append, List.perm_iff_count, List.count_append]
    at h hp hrest ⊢
  intro x
  have := h x
  have := hp x
  have := hrest x
  omega

theorem Pipe.Rewrites.perm_atomsIn {role : Role} {p : Pipe Handle} {r : Rewriting (Pipe Handle)}
    (h : Pipe.Rewrites f role p r) :
    (atomsIn (r.entries f)).Perm (r.references f ++ atomsIn p.entries) := by
  induction h with
  | here h =>
    obtain ⟨_, _, _, _, hchange, _⟩ := Role.rewrite?_eq_some h
    exact hchange.perm_atomsIn
  | @head role id decls pre c x inner args post r hown hpre h ih =>
    refine Rewriting.perm_atomsIn_map ih
      (fun q => .mk id decls (pre ++ .mk c (.paren x q) args :: post))
      (atomsIn (commandEntries pre ++ argEntries args ++ commandEntries post)) fun q => ?_
    simp only [Pipe.entries, commandEntries_append, commandEntries, Command.entries,
      Expr.entries, List.cons_append, atomsIn_append, atomsIn_pipe, atomsIn_command,
      atomsIn_paren]
    grind
  | @arg role id decls pre c head before x inner after post r hown hpre hhead hbefore h ih =>
    refine Rewriting.perm_atomsIn_map ih
      (fun q => .mk id decls (pre ++ .mk c head (before ++ .paren x q :: after) :: post))
      (atomsIn (commandEntries pre ++ head.entries ++ argEntries before ++ argEntries after ++
        commandEntries post)) fun q => ?_
    simp only [Pipe.entries, commandEntries_append, commandEntries, Command.entries,
      argEntries_append, argEntries, Expr.entries, List.cons_append, atomsIn_append, atomsIn_pipe,
      atomsIn_command, atomsIn_paren]
    grind

theorem Pipe.Change.perm_nested {pattern : Pattern} {p : Pipe Handle} {r : Rewriting (Pipe Handle)}
    (h : Pipe.Change f pattern p r) :
    p.nested.Perm (r.turned ++ ((r.ahead.map Pipe.nested).getD [] ++ r.rest.nested)) := by
  cases h with
  | unwrap id decls c x inner commands =>
    simp [Rewriting.turned, Pipe.nested, Pipe.entries, commandEntries, Command.entries,
      Expr.entries, argEntries, declarations]
  | fold id decls v value c head args rest =>
    simp only [Rewriting.turned, Pipe.nested_mk, commandEntries, Command.entries, argEntries,
      argEntries_append, List.cons_append, declarationsIn_append, declarationsIn_command,
      Option.map_none, Option.getD_none, cond_false, List.append_nil,
      List.nil_append]
    grind
  | leading _ rule id decls pre rest why =>
    simp [Rewriting.turned, Pipe.bindLeading, Pipe.nested_mk, commandEntries, Command.entries,
      argEntries, Expr.entries, Fresh.read, Fresh.reading]
  | head _ rule id decls c rest why =>
    obtain ⟨c, head, args⟩ := c
    simp [Rewriting.turned, Pipe.bindHead, Pipe.nested_mk, commandEntries, Command.entries,
      head.declarationsIn_bound (f := f)]
  | arg id decls pre c head before e after post hpre hbefore he =>
    simp only [Rewriting.turned, Pipe.bindArg, Pipe.nested_mk, commandEntries_append,
      commandEntries, Command.entries, argEntries_append, argEntries, List.cons_append,
      declarationsIn_append, declarationsIn_command, e.declarationsIn_bound (f := f),
      Command.head_mk, Option.map_some, Option.getD_some]
    grind
  | split id decls commands hcall =>
    simp [Rewriting.turned, Pipe.nested_mk]

theorem Pipe.Rewrites.perm_nested {role : Role} {p : Pipe Handle} {r : Rewriting (Pipe Handle)}
    (h : Pipe.Rewrites f role p r) :
    p.nested.Perm (r.turned ++ ((r.ahead.map Pipe.nested).getD [] ++ r.rest.nested)) := by
  -- A pipeline in parentheses goes on to declare what it declared.
  have hdeclared {inner : Pipe Handle} {r : Rewriting (Pipe Handle)}
      (h : Pipe.Rewrites f .nested inner r) : r.rest.declared = inner.declared := by
    rw [Pipe.declared, Pipe.declared, h.rest_tag, h.rest_decls, if_neg (h.edit_ne_split nofun)]
  induction h with
  | here h =>
    obtain ⟨_, _, _, _, hchange, _⟩ := Role.rewrite?_eq_some h
    exact hchange.perm_nested
  | @head role id decls pre c x inner args post r hown hpre h ih =>
    have hrest := hdeclared h
    simp only [Rewriting.turned, Rewriting.map, Pipe.nested_mk, commandEntries_append,
      commandEntries, Command.entries, Expr.entries, List.cons_append, declarationsIn_append,
      declarationsIn_command, declarationsIn_expr, Pipe.declarationsIn_entries] at ih ⊢
    rw [hrest]
    grind
  | @arg role id decls pre c head before x inner after post r hown hpre hhead hbefore h ih =>
    have hrest := hdeclared h
    simp only [Rewriting.turned, Rewriting.map, Pipe.nested_mk, commandEntries_append,
      commandEntries, Command.entries, argEntries_append, argEntries, Expr.entries,
      List.cons_append, declarationsIn_append, declarationsIn_command, declarationsIn_expr,
      Pipe.declarationsIn_entries] at ih ⊢
    rw [hrest]
    grind

theorem Pipe.Change.reference_mem {pattern : Pattern} {p : Pipe Handle}
    {r : Rewriting (Pipe Handle)} (h : Pipe.Change f pattern p r) {name : String}
    (hname : r.name? f = some name) (hsplit : r.found.edit ≠ .splitPrint) :
    f.reference name ∈ r.rest.entries := by
  cases h with
  | unwrap | fold => cases hname
  | leading =>
    obtain rfl := Option.some.inj hname
    simp [bindLeading, Pipe.entries, commandEntries, Command.entries, Fresh.read, Expr.entries,
      Fresh.reading, Fresh.reference]
  | head _ rule id decls c rest why =>
    obtain ⟨c, head, args⟩ := c
    obtain ⟨bound, names, hstub, hdecls⟩ := head.exists_stub_eq f
    obtain rfl : bound = name := Option.some.inj ((congrArg List.head? hdecls).symm.trans hname)
    simp [bindHead, hstub, Pipe.entries, commandEntries, Command.entries, Expr.entries,
      Fresh.reading, Fresh.reference]
  | arg id decls pre c head before e after post hpre hbefore he =>
    obtain ⟨bound, names, hstub, hdecls⟩ := e.exists_stub_eq f
    obtain rfl : bound = name := Option.some.inj ((congrArg List.head? hdecls).symm.trans hname)
    simp [bindArg, hstub, Pipe.entries, commandEntries, Command.entries, argEntries, Expr.entries,
      Fresh.reading, Fresh.reference]
  | split => exact absurd rfl hsplit

theorem Pipe.Rewrites.reference_mem {role : Role} {p : Pipe Handle} {r : Rewriting (Pipe Handle)}
    (h : Pipe.Rewrites f role p r) {name : String} (hname : r.name? f = some name)
    (hsplit : r.found.edit ≠ .splitPrint) : f.reference name ∈ r.rest.entries := by
  induction h with
  | here h =>
    obtain ⟨_, _, _, _, hchange, _⟩ := Role.rewrite?_eq_some h
    exact hchange.reference_mem hname hsplit
  | head hown hpre h ih =>
    have hmem := ih hname hsplit
    simp [Rewriting.map, Pipe.entries, commandEntries, Command.entries, Expr.entries, hmem]
  | arg hown hpre hhead hbefore h ih =>
    have hmem := ih hname hsplit
    simp [Rewriting.map, Pipe.entries, commandEntries, Command.entries, argEntries, Expr.entries,
      hmem]

theorem Pipe.Change.ahead_of_taken {pattern : Pattern} {p : Pipe Handle}
    {r : Rewriting (Pipe Handle)} (h : Pipe.Change f pattern p r) (htaken : r.taken)
    (hsplit : r.found.edit ≠ .splitPrint) : ∃ a, r.ahead = some a ∧ a.decls = [f.name] := by
  have hbound {e : Expr Handle} (he : e.takes) : (e.bound f).decls = [f.name] := by
    match e with
    | .atom .. | .paren _ (.mk _ [] _) => rfl
  cases h with
  | unwrap | fold => cases htaken
  | leading => exact ⟨_, rfl, rfl⟩
  | split => exact absurd rfl hsplit
  | head | arg => exact ⟨_, rfl, hbound htaken⟩

theorem Pipe.Rewrites.ahead_of_taken {role : Role} {p : Pipe Handle} {r : Rewriting (Pipe Handle)}
    (h : Pipe.Rewrites f role p r) (htaken : r.taken) (hsplit : r.found.edit ≠ .splitPrint) :
    ∃ a, r.ahead = some a ∧ a.decls = [f.name] := by
  induction h with
  | here h =>
    obtain ⟨_, _, _, _, hchange, _⟩ := Role.rewrite?_eq_some h
    exact hchange.ahead_of_taken htaken hsplit
  | head _ _ _ ih | arg _ _ _ _ _ ih => exact ih htaken hsplit

theorem Pipe.Rewrites.name?_of_taken {role : Role} {p : Pipe Handle} {r : Rewriting (Pipe Handle)}
    (h : Pipe.Rewrites f role p r) (htaken : r.taken) : r.name? f = some f.name := by
  rw [Rewriting.name?]
  split
  · rfl
  · next hsplit =>
    obtain ⟨a, ha, hdecls⟩ := h.ahead_of_taken htaken hsplit
    rw [ha, Option.bind_some, hdecls, List.head?_cons]

theorem Pipe.Change.ahead_of_nests {pattern : Pattern} {p : Pipe Handle}
    {r : Rewriting (Pipe Handle)} (h : Pipe.Change f pattern p r) {A : List String → Prop}
    (hp : p.Nests A) (htaken : r.taken = false) : ∀ a ∈ r.ahead, A a.decls := by
  have hbound {e : Expr Handle} (hA : ∀ q ∈ e.pipes, A q.decls) (he : e.takes = false) :
      A (e.bound f).decls := by
    match e with
    | .paren _ (.mk id (name :: names) commands) => exact hA _ List.mem_cons_self
  cases h with
  | unwrap | fold => exact nofun
  | leading | split => cases htaken
  | head _ rule id decls c rest why =>
    obtain ⟨c, head, args⟩ := c
    rw [nests_mk, commandPipes, Command.pipes, List.append_assoc, List.forall_mem_append] at hp
    rintro _ ⟨⟩
    exact hbound hp.1 htaken
  | arg id decls pre c head before e after post hpre hbefore he =>
    simp only [nests_mk, commandPipes_append, commandPipes, Command.pipes, argPipes_append,
      argPipes, List.forall_mem_append] at hp
    rintro _ ⟨⟩
    exact hbound hp.2.1.2.2.1 htaken

theorem Pipe.Rewrites.ahead_of_nests {role : Role} {p : Pipe Handle} {r : Rewriting (Pipe Handle)}
    (h : Pipe.Rewrites f role p r) {A : List String → Prop} (hp : p.Nests A)
    (htaken : r.taken = false) : ∀ a ∈ r.ahead, A a.decls := by
  induction h with
  | here h =>
    obtain ⟨_, _, _, _, hchange, _⟩ := Role.rewrite?_eq_some h
    exact hchange.ahead_of_nests hp htaken
  | head hown hpre h ih =>
    simp only [nests_mk, commandPipes_append, commandPipes, Command.pipes, Expr.pipes,
      List.forall_mem_append] at hp
    exact ih (forall_pipes_decls.mp hp.2.1.1).2 htaken
  | arg hown hpre hhead hbefore h ih =>
    simp only [nests_mk, commandPipes_append, commandPipes, Command.pipes, argPipes_append,
      argPipes, Expr.pipes, List.forall_mem_append] at hp
    exact ih (forall_pipes_decls.mp hp.2.1.2.2.1).2 htaken

theorem Pipe.Rewrites.taken_of_split {role : Role} {p : Pipe Handle} {r : Rewriting (Pipe Handle)}
    (h : Pipe.Rewrites f role p r) (hsplit : r.found.edit = .splitPrint) : r.taken := by
  cases h with
  | here h =>
    obtain ⟨_, _, _, _, hchange, -⟩ := Role.rewrite?_eq_some h
    cases hchange with
    | unwrap | fold | leading | head | arg =>
      simp [Pipe.bindLeading, Pipe.bindHead, Pipe.bindArg] at hsplit
    | split => rfl
  | head _ _ h | arg _ _ _ _ h => exact absurd hsplit (h.edit_ne_split (by simp))

theorem Pipe.Rewrites.name?_of_nests {role : Role} {p : Pipe Handle} {r : Rewriting (Pipe Handle)}
    (h : Pipe.Rewrites f role p r) {B : String → Prop}
    (hp : p.Nests fun decls => ∀ name ∈ decls, B name) (htaken : r.taken = false) :
    ∀ name ∈ r.name? f, B name := by
  have hsplit : r.found.edit ≠ .splitPrint := fun hsplit => by
    rw [h.taken_of_split hsplit] at htaken
    cases htaken
  intro name hname
  rw [Rewriting.name?, if_neg hsplit] at hname
  obtain ⟨a, ha, hname⟩ := Option.bind_eq_some_iff.mp hname
  exact h.ahead_of_nests hp htaken a ha name (List.mem_of_mem_head? hname)

theorem Pipe.Rewrites.perm_declarationsIn {role : Role} {p : Pipe Handle}
    {r : Rewriting (Pipe Handle)} (h : Pipe.Rewrites f role p r)
    (hprint : role = .print → p.decls = []) : ∃ minted,
      (declarationsIn (r.entries f)).Perm (minted ++ declarationsIn p.entries) ∧
        minted.flatMap Declaration.names = bif r.taken then [f.name] else [] := by
  have hnested := h.perm_nested
  rw [p.declarationsIn_entries]
  by_cases hsplit : r.found.edit = .splitPrint
  · obtain ⟨hrole, hahead, hrest⟩ := h.of_split hsplit
    refine ⟨[⟨p.tag, f.name, []⟩], ?_, by rw [h.taken_of_split hsplit]; rfl⟩
    rw [Rewriting.entries, if_pos hsplit, hahead, hrest, Pipe.declared, hprint hrole]
    simp [Pipe.entries, commandEntries, Command.entries, argEntries, Expr.entries, Fresh.read,
      Fresh.reading, declarations, Pipe.nested]
  · have hrest : r.rest.declared = p.declared := by
      rw [Pipe.declared, Pipe.declared, h.rest_tag, h.rest_decls, if_neg hsplit]
    rw [Rewriting.entries, if_neg hsplit, List.append_nil, declarationsIn_append,
      Pipe.declarationsIn_entries, hrest]
    cases htaken : r.taken with
    | true =>
      obtain ⟨a, ha, hdecls⟩ := h.ahead_of_taken htaken hsplit
      refine ⟨a.declared, ?_, by rw [Pipe.declared, hdecls]; rfl⟩
      simp only [Rewriting.turned, htaken, ha, cond_true, Option.map_some, Option.getD_some,
        a.declarationsIn_entries, List.nil_append] at hnested ⊢
      grind
    | false =>
      refine ⟨[], ?_, rfl⟩
      cases ha : r.ahead with
      | none =>
        simp only [Rewriting.turned, htaken, ha, cond_false, Option.map_none, Option.getD_none,
          List.nil_append, declarationsIn_nil] at hnested ⊢
        exact hnested.symm.append_left _
      | some a =>
        simp only [Rewriting.turned, htaken, ha, cond_false, Option.map_some, Option.getD_some,
          a.declarationsIn_entries, List.nil_append] at hnested ⊢
        grind

end Changes

theorem atomsIn_of_stmts {es : List Entry} (h : ∀ e ∈ es, e.key.1 = .stmt) : atomsIn es = [] := by
  refine List.filter_eq_nil_iff.mpr fun e he => ?_
  match e, h e he with
  | .stmt .., _ => exact Bool.false_ne_true

theorem declarationsIn_of_stmts {es : List Entry} (h : ∀ e ∈ es, e.key.1 = .stmt) :
    declarationsIn es = [] := by
  refine List.flatMap_eq_nil_iff.mpr fun e he => ?_
  match e, h e he with
  | .stmt .., _ => rfl

theorem perm_atomsIn {es es' : List Entry} (h : es.Perm es') : (atomsIn es).Perm (atomsIn es') :=
  h.filter _

theorem perm_declarationsIn {es es' : List Entry} (h : es.Perm es') :
    (declarationsIn es).Perm (declarationsIn es') := h.flatMap_right _

theorem Stmt.decls_of_print {s : Stmt Handle} {p : Pipe Handle} (hp : s.governing? = some p)
    (hrole : s.role = .print) : p.decls = [] := by
  match s with
  | .action id p' =>
    obtain rfl := Option.some.inj hp
    rw [Stmt.role, Pipe.actionRole] at hrole
    split at hrole
    · next hdecls => exact List.isEmpty_iff.mp hdecls
    · cases hrole
  | .branch .. | .invoke .. => cases hrole

namespace BlockRewriting.Exchanges

variable {f : Fresh} {b : Block Handle} {r : BlockRewriting} {s : Stmt Handle} {p : Pipe Handle}
  {q : Rewriting (Pipe Handle)} {front inside behind : List (Stmt Handle)}
  (h : r.Exchanges f b s p q front inside behind)
include h

theorem entries : ∃ stmts stmts' frame, (∀ e ∈ stmts, e.key.1 = .stmt) ∧
    (∀ e ∈ stmts', e.key.1 = .stmt) ∧ (blockEntries b).Perm (stmts ++ (p.entries ++ frame)) ∧
      (blockEntries r.block).Perm (stmts' ++ (q.entries f ++ frame)) := by
  have hstmts (b : Block Handle) : ∀ e ∈ (blockStmts b).map Stmt.entry, e.key.1 = .stmt :=
    List.forall_mem_map.mpr fun _ _ => rfl
  have hhost : s.ownEntries = p.entries := by
    rw [Stmt.ownEntries, h.governing]
    rfl
  have hrest : (s.govern q.rest).ownEntries = q.rest.entries := by
    rw [Stmt.ownEntries, Stmt.governing?_govern h.governing]
    rfl
  have hahead : (q.ahead.map (.action f.stmt)).toList.flatMap Stmt.ownEntries =
      (q.ahead.map Pipe.entries).getD [] := by
    cases q.ahead <;> simp [Stmt.ownEntries, Stmt.governing?]
  have hprint : (if q.found.edit = .splitPrint then [f.print] else []).flatMap Stmt.ownEntries =
      if q.found.edit = .splitPrint then (Pipe.mk f.pipe [] [f.read]).entries else [] := by
    split <;> simp [Stmt.ownEntries, Fresh.print, Stmt.governing?]
  refine ⟨(blockStmts b).map Stmt.entry, (blockStmts r.block).map Stmt.entry,
    (front ++ inside ++ behind).flatMap Stmt.ownEntries, hstmts b, hstmts r.block, ?_, ?_⟩
  · refine (perm_entries_heads b).trans (List.Perm.append_left _ ?_)
    simp only [h.before, List.flatMap_append, List.flatMap_cons, hhost]
    grind
  · refine (perm_entries_heads r.block).trans (List.Perm.append_left _ ?_)
    simp only [h.after, List.flatMap_append, List.flatMap_cons, hrest, hahead, hprint,
      Rewriting.entries]
    grind

theorem perm_atomsIn : (atomsIn (blockEntries r.block)).Perm
    (q.references f ++ atomsIn (blockEntries b)) := by
  obtain ⟨stmts, stmts', frame, hstmts, hstmts', hbefore, hafter⟩ := h.entries
  have hbefore := FlatTemplate.perm_atomsIn hbefore
  have hafter := FlatTemplate.perm_atomsIn hafter
  simp only [atomsIn_append, atomsIn_of_stmts hstmts, atomsIn_of_stmts hstmts', List.nil_append]
    at hbefore hafter
  refine hafter.trans ((h.rewrites.perm_atomsIn.append_right _).trans ?_)
  rw [List.append_assoc]
  exact hbefore.symm.append_left _

theorem perm_declarationsIn : ∃ minted, (declarationsIn (blockEntries r.block)).Perm
    (minted ++ declarationsIn (blockEntries b)) ∧
      minted.flatMap Declaration.names = bif r.taken then [f.name] else [] := by
  obtain ⟨stmts, stmts', frame, hstmts, hstmts', hbefore, hafter⟩ := h.entries
  have hbefore := FlatTemplate.perm_declarationsIn hbefore
  have hafter := FlatTemplate.perm_declarationsIn hafter
  simp only [declarationsIn_append, declarationsIn_of_stmts hstmts,
    declarationsIn_of_stmts hstmts', List.nil_append] at hbefore hafter
  obtain ⟨minted, hminted, hnames⟩ :=
    h.rewrites.perm_declarationsIn (Stmt.decls_of_print h.governing)
  refine ⟨minted, hafter.trans ((hminted.append_right _).trans ?_), h.taken ▸ hnames⟩
  rw [List.append_assoc]
  exact hbefore.symm.append_left _

end BlockRewriting.Exchanges

theorem blockRewrite?_moves {f : Fresh} {b : Block Handle} {r : BlockRewriting}
    (h : blockRewrite? f b = some r) {P : Pipe Handle → Prop} (hb : Governed P b) :
    ∃ role p q, P p ∧ Pipe.Rewrites f role p q ∧ q.taken = r.taken ∧
      (atomsIn (blockEntries r.block)).Perm (q.references f ++ atomsIn (blockEntries b)) ∧
      (declsIn (blockEntries r.block)).Perm
        ((bif r.taken then [f.name] else []) ++ declsIn (blockEntries b)) := by
  obtain ⟨s, p, q, front, inside, behind, hex⟩ := exists_exchanges h
  have hp : P p := governed_iff_heads.mp hb s (by simp [hex.before]) p hex.governing
  obtain ⟨minted, hminted, hnames⟩ := hex.perm_declarationsIn
  refine ⟨s.role, p, q, hp, hex.rewrites, hex.taken, hex.perm_atomsIn, ?_⟩
  rw [declsIn_eq, declsIn_eq, ← hnames, ← List.flatMap_append]
  exact hminted.flatMap_right _

end FlatTemplate

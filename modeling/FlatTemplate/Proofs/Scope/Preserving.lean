import FlatTemplate.Proofs.Scope.Steady

namespace FlatTemplate

variable {x : String} {n : Nat} {f : Fresh}

theorem Pipe.Formed.of_mem {V : List Form → Bool} {p q : Pipe Handle} (h : p.Formed V)
    (hq : q ∈ p.pipes) : q.Formed V := fun r hr => h r (p.pipes_subset hq hr)

theorem Pipe.mem_pipes_lone (id : PipeId) (decls : List String) (c : CommandId) (y : ExprId)
    (inner : Pipe Handle) : inner ∈ (Pipe.mk id decls [.mk c (.paren y inner) []]).pipes := by
  simp [Pipe.pipes, commandPipes, Command.pipes, Expr.pipes, inner.mem_pipes_self]

/-- Where what is passed something acts, parentheses are rewritten inside if they are all there is. -/
theorem Pipe.Rewrites.induct_of_acting {motive : Pipe Handle → Rewriting (Pipe Handle) → Prop}
    {role : Role} {p : Pipe Handle} {r : Rewriting (Pipe Handle)} (h : Pipe.Rewrites f role p r)
    (hacting : p.Acting)
    (change : ∀ pattern p r, Pipe.Change f pattern p r → p.Acting → motive p r)
    (lone : ∀ id decls c y inner r, Pipe.Rewrites f .nested inner r → motive inner r →
      motive (.mk id decls [.mk c (.paren y inner) []])
        (r.map fun q => .mk id decls [.mk c (.paren y q) []])) : motive p r := by
  induction h with
  | here h =>
    obtain ⟨_, _, _, _, hchange, _⟩ := Role.rewrite?_eq_some h
    exact change _ _ _ hchange hacting
  | @head role id decls pre c y inner args post r hown hpre h ih =>
    have hlone := Role.eq_lone_of_paren hown hacting (c := .mk c (.paren y inner) args) (by simp)
      List.mem_cons_self rfl
    obtain ⟨rfl, rfl, rfl⟩ : pre = [] ∧ args = [] ∧ post = [] := by
      cases pre <;> simp_all
    exact lone id decls c y inner r h (ih (hacting.of_mem (mem_pipes_lone ..)))
  | @arg role id decls pre c head before y inner after post r hown hpre hhead hbefore h ih =>
    have hlone := Role.eq_lone_of_paren hown hacting
      (c := .mk c head (before ++ .paren y inner :: after)) (by simp) (e := .paren y inner)
      (List.mem_cons_of_mem _ (by simp)) rfl
    cases pre <;> simp at hlone

theorem Pipe.Rewrites.moved {role : Role} {p : Pipe Handle} {r : Rewriting (Pipe Handle)}
    (h : Pipe.Rewrites f role p r) (hacting : p.Acting) (hx : x ≠ f.name)
    (hn : n ≤ f.expr.index) :
    r.aheadMoved x n ++ passedMoved x n r.rest.commands = passedMoved x n p.commands ∧
      r.aheadMoved x n ++ r.rest.front x n = p.front x n := by
  refine h.induct_of_acting (motive := fun p r =>
    r.aheadMoved x n ++ FlatTemplate.passedMoved x n r.rest.commands =
      FlatTemplate.passedMoved x n p.commands ∧
    r.aheadMoved x n ++ r.rest.front x n = p.front x n) hacting ?change ?lone
  case change =>
    intro pattern p r h hacting
    exact ⟨h.passedMoved hacting hx hn, h.front hacting hx hn⟩
  case lone =>
    rintro id decls c y inner r h ⟨hpassed, hfront⟩
    have hdecls := h.rest_decls
    rw [if_neg (h.edit_ne_split nofun)] at hdecls
    have hmoved (q : Pipe Handle) :
        FlatTemplate.passedMoved x n [.mk c (.paren y q) []] = q.moved x n := Command.moved_bare ..
    refine ⟨?_, hfront⟩
    change r.aheadMoved x n ++ FlatTemplate.passedMoved x n [.mk c (.paren y r.rest) []] =
      FlatTemplate.passedMoved x n [.mk c (.paren y inner) []]
    rw [hmoved, hmoved, r.rest.moved_eq, inner.moved_eq, h.rest_tag, hdecls, ← List.append_assoc,
      hpassed]

theorem passedMoved_rearranged_self (cs : List (Command Handle)) :
    Rearranged (passedMoved x n cs) (commandSteps x n cs) := by
  rw [commandSteps_eq]
  exact passedMoved_rearranged fun c _ => c.rearranged_self

theorem Pipe.Nests.declaredBy_passedMoved {p : Pipe Handle} (h : p.Nests (x ∉ ·)) :
    declaredBy (passedMoved x n p.commands) = [] := by
  rw [(passedMoved_rearranged_self _).declares]
  exact (declarersIn_eq_nil.mpr h ▸ declaredBy_commandSteps p.commands).eq_nil

theorem Pipe.Nests.declaredBy_front {p : Pipe Handle} (h : p.Nests (x ∉ ·)) :
    declaredBy (p.front x n) = [] :=
  List.subset_nil.mp (h.declaredBy_passedMoved (n := n) ▸ declaredBy_subset p.infix_front)

/-- Commands that are passed something are actions, or no pipeline in parentheses declares `x`. -/
def Pipe.Passing (x : String) (p : Pipe Handle) : Prop := p.Acting ∨ p.Nests (x ∉ ·)

instance (p : Pipe Handle) : Decidable (p.Passing x) := inferInstanceAs (Decidable (_ ∨ _))

structure Rewriting.Moves (x : String) (n : Nat) (p : Pipe Handle) (r : Rewriting (Pipe Handle)) :
    Prop where
  passed : Alike (r.aheadMoved x n ++ passedMoved x n r.rest.commands) (passedMoved x n p.commands)
  front : declaredBy (r.aheadMoved x n ++ r.rest.front x n) = declaredBy (p.front x n)

theorem Pipe.readBy_moved (p : Pipe Handle) :
    (readBy (p.moved x n)).Perm (readsIn x n p.entries) :=
  p.readBy_steps ▸ p.rearranged.reads

theorem readBy_passedMoved (p : Pipe Handle) :
    (readBy (passedMoved x n p.commands)).Perm (readsIn x n p.entries) := by
  have hperm := p.readBy_moved (x := x) (n := n)
  rw [p.moved_eq, readBy_append] at hperm
  have hnone : readBy (if x ∈ p.decls then [.declare p.tag] else []) = [] := by split <;> rfl
  rwa [hnone, List.append_nil] at hperm

theorem Pipe.Rewrites.not_mem_ahead {role : Role} {p : Pipe Handle} {r : Rewriting (Pipe Handle)}
    (h : Pipe.Rewrites f role p r) (hx : x ≠ f.name) (hp : p.Nests (x ∉ ·)) :
    ∀ a ∈ r.ahead, x ∉ a.decls := by
  cases hr : r.taken with
  | false => exact h.ahead_of_nests hp hr
  | true =>
    intro a ha
    have hsplit : r.found.edit ≠ .splitPrint := fun hsplit => by
      rw [(h.of_split hsplit).2.1] at ha
      cases ha
    obtain ⟨a', ha', hdecls⟩ := h.ahead_of_taken hr hsplit
    obtain rfl := Option.some.inj (ha.symm.trans ha')
    simpa [hdecls] using hx

theorem Fresh.readsIn_reference (hn : n ≤ f.expr.index) (name : String) :
    readsIn x n [f.reference name] = [] := by
  simp [readsIn, reference, Entry.read?, Atom.reads_eq_false hn]

theorem Fresh.readsIn_print (hn : n ≤ f.expr.index) :
    readsIn x n (Pipe.mk f.pipe [] [f.read]).entries = [] := by
  simp [readsIn, Pipe.entries, commandEntries, Command.entries, argEntries, Fresh.read,
    Fresh.reading, Expr.entries, Entry.read?, Atom.reads_eq_false hn]

theorem Pipe.Rewrites.perm_readsIn {role : Role} {p : Pipe Handle} {r : Rewriting (Pipe Handle)}
    (h : Pipe.Rewrites f role p r) (hn : n ≤ f.expr.index) :
    (readsIn x n ((r.ahead.map Pipe.entries).getD []) ++ readsIn x n r.rest.entries).Perm
      (readsIn x n p.entries) := by
  have hperm := h.perm_atomsIn.filterMap (Entry.read? x n)
  change (readsIn x n (atomsIn _)).Perm (readsIn x n (_ ++ atomsIn _)) at hperm
  have hreferences : readsIn x n (r.references f) = [] := by
    rw [Rewriting.references]
    cases r.name? f with
    | none => rfl
    | some name => exact Fresh.readsIn_reference hn name
  rw [readsIn_append, hreferences, List.nil_append, readsIn_atomsIn, readsIn_atomsIn,
    Rewriting.entries, readsIn_append, readsIn_append] at hperm
  split at hperm
  · rwa [Fresh.readsIn_print hn, List.append_nil] at hperm
  · rwa [show readsIn x n [] = [] from rfl, List.append_nil] at hperm

theorem Pipe.Rewrites.moves_of_nests {role : Role} {p : Pipe Handle} {r : Rewriting (Pipe Handle)}
    (h : Pipe.Rewrites f role p r) (hx : x ≠ f.name) (hn : n ≤ f.expr.index)
    (hp : p.Nests (x ∉ ·)) : r.Moves x n p := by
  obtain ⟨hrest, hahead, -⟩ := h.nests hp
  have hdecls := h.not_mem_ahead hx hp
  have hreads := h.perm_readsIn (x := x) hn
  have hnone : declaredBy (r.aheadMoved x n) = [] ∧ (readBy (r.aheadMoved x n)).Perm
      (readsIn x n ((r.ahead.map Pipe.entries).getD [])) := by
    rw [Rewriting.aheadMoved]
    cases ha : r.ahead with
    | none => exact ⟨rfl, .nil⟩
    | some a =>
      refine ⟨?_, a.readBy_moved⟩
      rw [Option.map_some, Option.getD_some, a.moved_eq, if_neg (hdecls a ha), List.append_nil]
      exact (hahead a ha).declaredBy_passedMoved
  constructor
  · refine .of_reads ⟨?_, ?_⟩ hp.declaredBy_passedMoved
    · rw [readBy_append]
      exact ((hnone.2.append (readBy_passedMoved _)).trans hreads).trans (readBy_passedMoved p).symm
    · rw [declaredBy_append, hnone.1, hrest.declaredBy_passedMoved, hp.declaredBy_passedMoved]
      rfl
  · rw [declaredBy_append, hnone.1, hrest.declaredBy_front, hp.declaredBy_front]
    rfl

theorem Pipe.Rewrites.moves {role : Role} {p : Pipe Handle} {r : Rewriting (Pipe Handle)}
    (h : Pipe.Rewrites f role p r) (hx : x ≠ f.name) (hn : n ≤ f.expr.index)
    (hp : p.Passing x) : r.Moves x n p := by
  rcases hp with hacting | hnests
  · obtain ⟨hpassed, hfront⟩ := h.moved (x := x) hacting hx hn
    exact ⟨hpassed ▸ .refl _, congrArg declaredBy hfront⟩
  · exact h.moves_of_nests hx hn hnests

theorem Pipe.Rewrites.passing {role : Role} {p : Pipe Handle} {r : Rewriting (Pipe Handle)}
    (h : Pipe.Rewrites f role p r) (hp : p.Passing x) : r.Keeps (Pipe.Passing x) f := by
  rcases hp with hacting | hnests
  · obtain ⟨hrest, hahead, hprint⟩ := h.formed stable_actionsIn hacting
    exact ⟨.inl hrest, fun a ha => .inl (hahead a ha), fun hsplit => .inl (hprint hsplit)⟩
  · obtain ⟨hrest, hahead, hprint⟩ := h.nests hnests
    exact ⟨.inr hrest, fun a ha => .inr (hahead a ha), fun hsplit => .inr (hprint hsplit)⟩

theorem Pipe.Nests.steady {p : Pipe Handle} (h : p.Nests (x ∉ ·)) : p.Steady x n := by
  have hcommands {q : Pipe Handle} (hq : q ∈ p.pipes) {c : Command Handle} (hc : c ∈ q.commands) :
      ∀ r ∈ c.pipes, x ∉ r.decls := by
    intro r hr
    refine h r ?_
    have hmem : r ∈ commandPipes q.commands := mem_commandPipes.mpr ⟨c, hc, hr⟩
    rw [p.pipes_eq] at hq
    rcases List.mem_cons.mp hq with rfl | hq
    · exact hmem
    · refine commandPipes_subset hq ?_
      rw [q.pipes_eq]
      exact List.mem_cons_of_mem _ hmem
  refine fun q hq => ⟨fun c hc => ?_, ?_⟩
  · exact List.pairwise_of_forall_mem_list fun a _ e he _ _ _ r hr =>
      hcommands hq hc r (Command.mem_pipes.mpr ⟨e, he, hr⟩)
  · match hlead : q.commands with
    | [] | [_] => trivial
    | l :: c :: cs => exact fun _ _ => hcommands hq (hlead ▸ by simp)

theorem Command.steady_bare (id : CommandId) (e : Expr Handle) : (Command.mk id e []).Steady x n :=
  List.pairwise_singleton _ _

theorem commandsSteady_bare (id : CommandId) (e : Expr Handle) :
    CommandsSteady x n [.mk id e []] :=
  ⟨List.forall_mem_singleton.mpr (Command.steady_bare id e), trivial⟩

theorem Expr.reads_stub (hn : n ≤ f.expr.index) (e : Expr Handle) : (e.stub f).reads x n = false := by
  obtain ⟨name, _, hstub, -⟩ := e.exists_stub_eq f
  rw [hstub]
  simp [Fresh.reading, Expr.reads, Atom.reads_eq_false hn]

theorem leadSteady_of_append {cs cs' : List (Command Handle)} (h : LeadSteady x n (cs ++ cs')) :
    LeadSteady x n cs := by
  cases cs with
  | nil => trivial
  | cons l cs =>
    cases cs with
    | nil => trivial
    | cons c cs => exact h

theorem leadSteady_of_not_reads {l : Command Handle} (h : l.view.isPlain = false ∨ l.head.reads x n = false)
    (cs : List (Command Handle)) : LeadSteady x n (l :: cs) := by
  cases cs with
  | nil => trivial
  | cons c cs =>
    intro hplain hreads
    rcases h with h | h
    · cases hplain.symm.trans h
    · cases hreads.symm.trans h

theorem Expr.steady_bound {e : Expr Handle} (h : ∀ q ∈ e.pipes, CommandsSteady x n q.commands) :
    (e.bound f).Steady x n := by
  match e with
  | .atom id a =>
    exact Pipe.steady_iff.mpr ⟨commandsSteady_bare _ _, nofun⟩
  | .paren _ (.mk id [] commands) =>
    exact Pipe.steady_iff.mpr (Pipe.steady_iff (p := .mk id [] commands).mp h)
  | .paren _ (.mk id (_ :: _) commands) => exact h

theorem Command.steady_arg (hn : n ≤ f.expr.index) {c : CommandId} {head e : Expr Handle}
    {before after : List (Expr Handle)} (h : (Command.mk c head (before ++ e :: after)).Steady x n) :
    (Command.mk c head (before ++ e.stub f :: after)).Steady x n := by
  have hsame : (Command.mk c head (before ++ e.stub f :: after)).hoists =
      (Command.mk c head (before ++ e :: after)).hoists := hoists_congr (by simp)
  have hoperands (e : Expr Handle) :
      (Command.mk c head (before ++ e :: after)).operands = head :: before ++ e :: after := rfl
  rw [Command.Steady, hoperands, List.pairwise_append, List.pairwise_cons (l := after)] at h
  rw [Command.Steady, hoperands, hsame, List.pairwise_append, List.pairwise_cons (l := after)]
  obtain ⟨hbefore, ⟨-, hafter⟩, hacross⟩ := h
  refine ⟨hbefore, ⟨fun a _ hreads => ?_, hafter⟩, fun a ha b hb => ?_⟩
  · cases (Expr.reads_stub hn e).symm.trans hreads
  · rcases List.mem_cons.mp hb with rfl | hb
    · rw [Expr.pipes_stub]
      exact fun _ _ _ => List.forall_mem_nil _
    · exact hacross a ha b (List.mem_cons_of_mem _ hb)

theorem Pipe.Change.steady {pattern : Pattern} {p : Pipe Handle} {r : Rewriting (Pipe Handle)}
    (h : Pipe.Change f pattern p r) (hacting : p.Acting) (hn : n ≤ f.expr.index)
    (hp : p.Steady x n) : r.rest.Steady x n ∧ ∀ a ∈ r.ahead, a.Steady x n := by
  rw [steady_iff] at hp
  obtain ⟨⟨hcommands, hlead⟩, hpipes⟩ := hp
  cases h with
  | unwrap id decls c y inner commands =>
    refine ⟨?_, by rintro _ ⟨⟩⟩
    rw [commands_mk, commandPipes, Command.pipes, List.append_assoc, List.forall_mem_append] at hpipes
    exact steady_iff.mpr (steady_iff (p := .mk inner [] commands).mp hpipes.1)
  | fold id decls v value c head args rest hcall hfold =>
    refine ⟨steady_iff.mpr ⟨⟨?_, leadSteady_of_not_reads (.inl (Command.isPlain_of_args (by simp))) _⟩,
      ?_⟩, by rintro _ ⟨⟩⟩
    · rw [commands_mk, List.forall_mem_cons, List.forall_mem_cons] at hcommands
      refine List.forall_mem_cons.mpr ⟨?_, hcommands.2.2⟩
      have hnone : value.pipes = [] := by
        cases value with
        | atom => rfl
        | paren => cases hfold
      have hoperands : (Command.mk c head (args ++ [value])).operands =
          (Command.mk c head args).operands ++ [value] := rfl
      rw [Command.Steady, hoperands, Command.hoists_fold hcall, List.pairwise_append]
      refine ⟨hcommands.2.1, List.pairwise_singleton _ _, fun a _ b hb _ _ _ => ?_⟩
      obtain rfl := List.mem_singleton.mp hb
      rw [hnone]
      exact List.forall_mem_nil _
    · simp only [commands_mk, commandPipes, Command.pipes, argPipes_append, argPipes,
        List.forall_mem_append] at hpipes ⊢
      exact ⟨⟨hpipes.2.1.1, hpipes.2.1.2, hpipes.1.1, List.forall_mem_nil _⟩, hpipes.2.2⟩
  | leading _ rule id decls pre rest why =>
    rw [commands_mk, List.forall_mem_append] at hcommands
    rw [commands_mk, commandPipes_append, List.forall_mem_append] at hpipes
    refine ⟨steady_iff.mpr ⟨⟨?_, ?_⟩, ?_⟩, ?_⟩
    · exact List.forall_mem_cons.mpr ⟨Command.steady_bare _ _, hcommands.2⟩
    · exact leadSteady_of_not_reads (.inr (Expr.reads_stub (e := .atom f.expr .dot) hn)) _
    · exact List.forall_mem_append.mpr ⟨List.forall_mem_nil _, hpipes.2⟩
    · rintro _ ⟨⟩
      refine steady_iff.mpr ⟨⟨hcommands.1, ?_⟩, hpipes.1⟩
      exact leadSteady_of_append hlead
  | head _ rule id decls c rest why =>
    obtain ⟨c, head, args⟩ := c
    obtain rfl : args = [] := Command.args_of_head why (formed_mk.mp hacting).1
    rw [commands_mk, List.forall_mem_cons] at hcommands
    simp only [commands_mk, commandPipes, Command.pipes, argPipes, List.append_nil,
      List.forall_mem_append] at hpipes
    refine ⟨steady_iff.mpr ⟨⟨?_, ?_⟩, ?_⟩, ?_⟩
    · exact List.forall_mem_cons.mpr ⟨Command.steady_bare _ _, hcommands.2⟩
    · exact leadSteady_of_not_reads (.inr (Expr.reads_stub hn head)) _
    · change ∀ q ∈ commandPipes (.mk c (head.stub f) [] :: rest), CommandsSteady x n q.commands
      rw [commandPipes, Command.pipes, Expr.pipes_stub]
      exact hpipes.2
    · rintro _ ⟨⟩
      exact Expr.steady_bound hpipes.1
  | arg id decls pre c head before e after post hpre hbefore he =>
    simp only [commands_mk, List.forall_mem_append, List.forall_mem_cons] at hcommands
    simp only [commands_mk, commandPipes_append, commandPipes, Command.pipes, argPipes_append,
      argPipes, List.forall_mem_append] at hpipes
    obtain ⟨hpre', hc, hpost⟩ := hcommands
    obtain ⟨hpre'', ⟨hhead, hbefore', he', hafter⟩, hpost'⟩ := hpipes
    refine ⟨steady_iff.mpr ⟨⟨?_, ?_⟩, ?_⟩, ?_⟩
    · exact List.forall_mem_append.mpr
        ⟨hpre', List.forall_mem_cons.mpr ⟨Command.steady_arg hn hc, hpost⟩⟩
    · rcases hpre with rfl | ⟨l, rfl, -⟩
      · exact leadSteady_of_not_reads (.inl (Command.isPlain_of_args (by simp))) _
      · intro hplain hreads q hq
        refine hlead hplain hreads q ?_
        simp only [Command.pipes, argPipes_append, argPipes, Expr.pipes_stub, Command.head_mk,
          List.nil_append, List.mem_append] at hq ⊢
        grind
    · simp only [bindArg, commands_mk, commandPipes_append, commandPipes, Command.pipes,
        argPipes_append, argPipes, Expr.pipes_stub, List.forall_mem_append]
      exact ⟨hpre'', ⟨hhead, hbefore', List.forall_mem_nil _, hafter⟩, hpost'⟩
    · rintro _ ⟨⟩
      exact Expr.steady_bound he'
  | split id decls commands hcall =>
    exact ⟨steady_iff.mpr ⟨⟨hcommands, hlead⟩, hpipes⟩, by rintro _ ⟨⟩⟩

theorem Pipe.Rewrites.steady_of_acting {role : Role} {p : Pipe Handle}
    {r : Rewriting (Pipe Handle)} (h : Pipe.Rewrites f role p r) (hacting : p.Acting)
    (hn : n ≤ f.expr.index) (hp : p.Steady x n) :
    r.rest.Steady x n ∧ ∀ a ∈ r.ahead, a.Steady x n := by
  revert hp
  refine h.induct_of_acting (motive := fun p r =>
    p.Steady x n → r.rest.Steady x n ∧ ∀ a ∈ r.ahead, a.Steady x n) hacting ?change ?lone
  case change =>
    intro pattern p r h hacting hp
    exact h.steady hacting hn hp
  case lone =>
    intro id decls c y inner r h ih hp
    obtain ⟨hrest, hahead⟩ := ih fun q hq => hp q (Pipe.pipes_subset _ (mem_pipes_lone ..) hq)
    refine ⟨steady_iff.mpr ⟨commandsSteady_bare _ _, ?_⟩, hahead⟩
    simpa [Rewriting.map, commandPipes, Command.pipes, Expr.pipes, argPipes, Steady] using hrest

theorem Pipe.Rewrites.steady {role : Role} {p : Pipe Handle} {r : Rewriting (Pipe Handle)}
    (h : Pipe.Rewrites f role p r) (hn : n ≤ f.expr.index) (hpassing : p.Passing x)
    (hp : p.Steady x n) : r.Keeps (Pipe.Steady x n) f := by
  have hprint : (Pipe.mk f.pipe [] [f.read]).Steady x n :=
    steady_iff.mpr ⟨commandsSteady_bare _ _, nofun⟩
  rcases hpassing with hacting | hnests
  · obtain ⟨hrest, hahead⟩ := h.steady_of_acting hacting hn hp
    exact ⟨hrest, hahead, fun _ => hprint⟩
  · obtain ⟨hrest, hahead, -⟩ := h.nests hnests
    exact ⟨hrest.steady, fun a ha => (hahead a ha).steady, fun _ => hprint⟩

theorem Expr.isParen_of_mem_pipes {e : Expr Handle} {q : Pipe Handle} (hq : q ∈ e.pipes) :
    e.node.isParen := by
  cases e with
  | atom => cases hq
  | paren => rfl

theorem Pipe.steady_of_rewrite?_eq_none {p : Pipe Handle}
    (h : ∀ q ∈ p.pipes, ∃ role : Role, role.rewrite? f q = none) (hacting : p.Acting) :
    p.Steady x n := by
  intro q hq
  obtain ⟨role, hrole⟩ := h q hq
  have hlone {c : Command Handle} (hc : c ∈ q.commands) {e : Expr Handle} (he : e ∈ c.operands)
      {r : Pipe Handle} (hr : r ∈ e.pipes) : q.commands = [.mk c.tag e []] :=
    Role.eq_lone_of_paren hrole (hacting.of_mem hq) hc he (Expr.isParen_of_mem_pipes hr)
  constructor
  · intro c hc
    rw [Command.Steady, List.pairwise_iff_forall_sublist]
    intro a e hsub _ _ _ r hr
    have hcommands := hlone hc (hsub.subset (by simp)) hr
    rw [hcommands, List.mem_singleton] at hc
    rw [hc] at hsub
    exact absurd hsub.length_le (by simp [Command.operands, Command.head, Command.args])
  · match hcommands : q.commands with
    | [] | [_] => trivial
    | l :: c :: cs =>
      intro _ _ r hr
      obtain ⟨e, he, hr⟩ := Command.mem_pipes.mp hr
      have hsingle := hlone (hcommands ▸ by simp) he hr
      simp [hcommands] at hsingle

theorem Pipe.declaredBy_front_of_rewrite?_eq_none {p : Pipe Handle}
    (h : ∀ q ∈ p.pipes, ∃ role : Role, role.rewrite? f q = none) (hacting : p.Acting) :
    declaredBy (p.front x n) = [] := by
  induction p using Pipe.forall_of_operands with | h p ih
  by_cases hparens : ∃ c ∈ p.commands, ∃ e ∈ c.operands, e.node.isParen
  · obtain ⟨c, hc, e, he, hparen⟩ := hparens
    obtain ⟨role, hrole⟩ := h p p.mem_pipes_self
    have hlone := Role.eq_lone_of_paren hrole hacting hc he hparen
    match e with
    | .paren y inner =>
      have hsub : inner.pipes ⊆ p.pipes := fun q hq => by
        rw [p.pipes_eq]
        exact List.mem_cons_of_mem _ (commandPipes_subset (mem_commandPipes_of_operand hc he) hq)
      have hinner := ih c hc y inner he (fun q hq => h q (hsub hq))
        (hacting.of_mem (hsub inner.mem_pipes_self))
      obtain ⟨id, decls, commands⟩ := p
      obtain rfl : commands = [.mk c.tag (.paren y inner) []] := hlone
      exact hinner
  · refine Nests.declaredBy_front fun q hq => ?_
    obtain ⟨c, hc, hq⟩ := mem_commandPipes.mp hq
    obtain ⟨e, he, hq⟩ := Command.mem_pipes.mp hq
    exact absurd ⟨c, hc, e, he, Expr.isParen_of_mem_pipes hq⟩ hparens

end FlatTemplate

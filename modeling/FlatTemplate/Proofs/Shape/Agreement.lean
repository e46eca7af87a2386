import FlatTemplate.Proofs.Printing.Canonical
import FlatTemplate.Proofs.Session.Flattening
import FlatTemplate.Proofs.Shape.Violations

namespace FlatTemplate

def ExprNode.isInert : ExprNode → Bool
  | .paren _ => true
  | .atom (.var path) => path.length = 1
  | .atom (.str _) | .atom (.number _) | .atom (.bool _) => true
  | .atom (.field _) | .atom .dot | .atom (.identifier _) => false

theorem Form.isAction_iff {c : Form} :
    c.isAction ↔ c.head.isIdentifier ∨ c.head.isPathRead ∨ c.head = .atom .dot := by
  rw [isAction, Bool.or_eq_true, Bool.or_eq_true, decide_eq_true_iff, or_assoc]

theorem Form.isInert_head {c : Form} (h : c.isAction = false)
    (hsound : ∀ path, c.head = .atom (.var path) → path ≠ []) : c.head.isInert := by
  obtain ⟨head, bare⟩ := c
  match head with
  | .atom (.var path) =>
    have hpath : ¬1 < path.length := by
      simpa [isAction, ExprNode.isIdentifier, Atom.isIdentifier, ExprNode.isPathRead,
        Atom.isPathRead] using h
    have hlength := List.length_pos_iff.mpr (hsound path rfl)
    simp only [ExprNode.isInert, decide_eq_true_eq]
    omega
  | .paren _ | .atom (.str _) | .atom (.number _) | .atom (.bool _) => rfl
  | .atom (.field _) | .atom .dot | .atom (.identifier _) => cases h

def argsIn (forms : List Form) : Bool := forms.all fun c => c.bare || c.isAction

theorem stable_argsIn : Stable argsIn where
  lone _ := rfl
  parens := by simp [argsIn, Form.isAction, ExprNode.isIdentifier, ExprNode.isPathRead]
  front h := by
    rw [argsIn, List.all_append, Bool.and_eq_true] at h
    exact h.1
  behind name {pre rest} _ h := by
    rw [argsIn, List.all_append, Bool.and_eq_true] at h
    exact h.2
  fold hc h := by
    simp only [argsIn, List.all_cons, Bool.and_eq_true] at h ⊢
    exact ⟨by simp [Form.isAction, hc], h.2.2⟩
  rename g forms := by simp [argsIn, List.all_map, Function.comp_def]

theorem Command.isAction_of_argsIn {cs : List (Command Handle)} (h : argsIn (cs.map form))
    {c : Command Handle} (hc : c ∈ cs) (hargs : c.args ≠ []) : c.isAction := by
  rw [argsIn, List.all_eq_true] at h
  have hform := h c.form (List.mem_map_of_mem hc)
  rw [Bool.or_eq_true] at hform
  exact hform.resolve_left fun hbare => hargs (List.isEmpty_iff.mp hbare)

theorem governed_formed {V : List Form → Bool} {b : Block Handle} :
    Governed (Pipe.Formed V) b ↔ ∀ p ∈ blockPipes b, V (p.commands.map Command.form) := by
  constructor
  · intro h q hq
    obtain ⟨s, hs, p, hp, hq⟩ := mem_blockPipes.mp hq
    exact h s hs p hp q hq
  · exact fun h s hs p hp q hq => h q (mem_blockPipes.mpr ⟨s, hs, p, hp, hq⟩)

section Canonical

variable {f : Fresh} {b : Block Handle}

theorem hoists_eq_false (h : blockRewrite? f b = none) {p : Pipe Handle} (hp : p ∈ blockPipes b)
    {c : Command Handle} (hc : c ∈ p.commands) {e : Expr Handle} (he : e ∈ c.args) :
    ¬c.hoists e := by
  obtain ⟨role, hrole⟩ := exists_rewrite?_eq_none_of_block h hp
  obtain ⟨id, decls, commands⟩ := p
  have hnone := Pattern.hasHoistable_eq_false
    (Role.rewrite?_eq_none hrole .hoistableOperand (by cases role <;> simp [Role.patterns])) c hc
  exact List.any_eq_false.mp hnone e he

theorem pathArgument_not_mem (h : blockRewrite? f b = none) (k : CommandId) :
    .pathArgument k ∉ shapeViolations b := by
  intro hmem
  obtain ⟨p, hp, c, hc, e, he, hmem⟩ := mem_shapeViolations.mp hmem
  obtain ⟨-, hcall, hpath⟩ := Expr.pathArgument_mem.mp hmem
  apply hoists_eq_false h hp hc he
  rw [Command.hoists_call hcall, hpath, Bool.or_true]

theorem exists_of_pipeArgument_mem (h : blockRewrite? f b = none) {k : CommandId}
    (hmem : .pipeArgument k ∈ shapeViolations b) :
    ∃ p ∈ blockPipes b, ∃ c ∈ p.commands, c.tag = k ∧ c.isAction = false := by
  obtain ⟨p, hp, c, hc, e, he, hmem⟩ := mem_shapeViolations.mp hmem
  obtain ⟨htag, hparen⟩ := Expr.pipeArgument_mem.mp hmem
  refine ⟨p, hp, c, hc, htag, Bool.eq_false_iff.mpr fun haction => hoists_eq_false h hp hc he ?_⟩
  exact Command.hoists_of_isAction haction (List.ne_nil_of_mem he) hparen

theorem Command.shapeViolations_eq_nil {c : Command Handle} (hc : c.isAction) (hargs : c.args ≠ [])
    {e : Expr Handle} (he : ¬c.hoists e) : e.shapeViolations c = [] := by
  match e with
  | .paren _ _ => exact absurd (hoists_of_isAction hc hargs rfl) he
  | .atom _ a =>
    rw [Expr.shapeViolations]
    refine if_neg fun hpath => he ?_
    rw [Bool.and_eq_true] at hpath
    rw [hoists_call hpath.1, Bool.or_eq_true]
    exact .inr hpath.2

theorem shapeViolations_eq_nil (h : blockRewrite? f b = none)
    (hb : Governed (Pipe.Formed argsIn) b) : shapeViolations b = [] := by
  rw [List.eq_nil_iff_forall_not_mem]
  intro v hmem
  obtain ⟨p, hp, c, hc, e, he, hmem⟩ := mem_shapeViolations.mp hmem
  have hargs := List.ne_nil_of_mem he
  have haction := Command.isAction_of_argsIn (governed_formed.mp hb p hp) hc hargs
  rw [Command.shapeViolations_eq_nil haction hargs (hoists_eq_false h hp hc he)] at hmem
  cases hmem

end Canonical

namespace Tree

variable {t : Tree} {b : Block Handle}

def ActionsTakeArguments (t : Tree) : Prop :=
  ∀ c node head, t.Reachable (.command c node) → t.exprs.get node.head = .ok head →
    node.args ≠ [] → head.isIdentifier ∨ head.isPathRead ∨ head = .atom .dot

theorem Holds.actionsTakeArguments_iff (h : t.Holds b) :
    t.ActionsTakeArguments ↔ Governed (Pipe.Formed argsIn) b := by
  rw [governed_formed]
  constructor
  · intro hactions p hp
    rw [argsIn, List.all_map, List.all_eq_true]
    intro c hc
    by_cases hargs : c.args = []
    · exact Bool.or_eq_true_iff.mpr (.inl (List.isEmpty_iff.mpr hargs))
    · have hreachable := h.reachable_command_iff.mpr ⟨p, hp, c, hc, rfl⟩
      have haction := hactions _ _ _ hreachable (h.get_operand hp hc (List.mem_cons_self ..))
        (by simpa using hargs)
      exact Bool.or_eq_true_iff.mpr (.inr (Form.isAction_iff.mpr haction))
  · intro hforms k node head hreachable hhead hargs
    obtain ⟨p, hp, c, hc, hentry⟩ := h.reachable_command_iff.mp hreachable
    obtain ⟨rfl, rfl⟩ := Entry.command.inj hentry
    obtain rfl := Except.ok.inj ((h.get_operand hp hc (List.mem_cons_self ..)).symm.trans hhead)
    exact Form.isAction_iff.mp (Command.isAction_of_argsIn (hforms p hp) hc (by simpa using hargs))

theorem Holds.isInert_head (h : t.Holds b) {p : Pipe Handle} (hp : p ∈ blockPipes b)
    {c : Command Handle} (hc : c ∈ p.commands) (haction : c.isAction = false) :
    c.head.node.isInert := by
  refine Form.isInert_head haction fun path hpath => ?_
  have hmem := Pipe.nodes_subset hp (Expr.entry_mem_nodes hc (List.mem_cons_self ..))
  have hsound := h.sound _ hmem
  have hnode : c.head.node = .atom (.var path) := hpath
  rwa [Expr.entry, hnode] at hsound

/-- What is reported of a canonical template: neither path among the arguments of a call, nor
pipeline among those of anything that can be called. Nothing is reported of what a session leaves
of a template where nothing else takes arguments. -/
theorem check_of_isCanonical (ht : t.SinglyOwned) :
    (t.isCanonical = .ok true → ∀ config, ∃ violations, t.check config = .ok violations ∧
      (∀ c, .pathArgument c ∉ violations) ∧
      ∀ c, .pipeArgument c ∈ violations → ∃ node head, t.Reachable (.command c node) ∧
        t.exprs.get node.head = .ok head ∧ head.isInert) ∧
    (t.ActionsTakeArguments → ∀ config : Config, config.validate = .ok () →
      ∃ outcome, t.canonicalize config = .ok outcome ∧
        (config.maxPasses = none → ∃ stats, outcome.result = .ok stats) ∧
        ∀ stats, outcome.result = .ok stats → outcome.tree.check config = .ok [] ∧
          ∀ config', ∃ violations, outcome.tree.check config' = .ok violations ∧
            ∀ v ∈ violations, ∃ s name, v = .undeclaredTemporary s name) := by
  obtain ⟨b, hb⟩ := ht.exists_holds
  refine ⟨fun hcanonical config => ?_, fun hactions config hvalid => ?_⟩
  · have hnone : blockRewrite? (t.fresh "") b = none := by
      rw [hb.isCanonical (t.fresh ""), Except.ok.injEq, Option.isNone_iff_eq_none] at hcanonical
      exact hcanonical
    -- What is reported of scopes is of another kind.
    have hshape : ∀ v ∈ shapeViolations b ++ scopeViolations config.tempStem [] b,
        (∀ s name, v ≠ .undeclaredTemporary s name) → v ∈ shapeViolations b := by
      intro v hv hkind
      refine (List.mem_append.mp hv).resolve_right fun hscope => ?_
      obtain ⟨s, name, rfl⟩ := exists_of_mem_scopeViolations hscope
      exact hkind s name rfl
    refine ⟨_, hb.check config, fun k hmem => ?_, fun k hmem => ?_⟩
    · exact pathArgument_not_mem hnone k (hshape _ hmem nofun)
    · obtain ⟨p, hp, c, hc, rfl, haction⟩ :=
        exists_of_pipeArgument_mem hnone (hshape _ hmem nofun)
      exact ⟨_, _, hb.reachable_command_iff.mpr ⟨p, hp, c, hc, rfl⟩,
        hb.get_operand hp hc (List.mem_cons_self ..), hb.isInert_head hp hc haction⟩
  · obtain ⟨outcome, _, _, d', hrun, h⟩ := hb.canonicalize hvalid
    have hconfig := Config.valid_of_validate hvalid
    refine ⟨outcome, hrun, h.succeeds, fun stats hstats => ?_⟩
    have hargs := h.governed (fun g _ => Pipe.formed_rename stable_argsIn g)
      (fun _ _ _ => formed_blockRewrite? stable_argsIn) (hb.actionsTakeArguments_iff.mp hactions)
    have hshape : shapeViolations d'.block = [] := by
      rcases h.ends with ⟨_, -, -, hnone⟩ | ⟨_, _, -, -, hresult⟩
      · exact shapeViolations_eq_nil hnone hargs
      · cases hresult.symm.trans hstats
    have hscope := scopeViolations_eq_nil d'.block ((h.tidy hconfig).scoped hconfig)
    refine ⟨?_, fun config' => ⟨_, h.holds.check config', fun v hv => ?_⟩⟩
    · rw [h.holds.check, hshape, hscope, List.append_nil]
    · rw [hshape, List.nil_append] at hv
      exact exists_of_mem_scopeViolations hv

def calledNumber : Tree :=
  let call : Pipe Untagged := .mk () [] [.mk () (.atom () (.identifier "f")) []]
  .ofBlock "" [.action () (.mk () [] [.mk () (.atom () (.number "1")) [.paren () call]])]

theorem parse_calledNumber : Tree.parse (delimited "1 (f)") = .ok calledNumber := by cbv

def passedMethod : Tree :=
  let call : Pipe Untagged :=
    .mk () [] [.mk () (.atom () (.identifier "f")) [.atom () (.field ["B"])]]
  .ofBlock "" [.action () (.mk () [] [.mk () (.atom () (.field ["A"])) [.paren () call],
    .mk () (.atom () (.identifier "g")) []])]

theorem parse_passedMethod : Tree.parse (delimited ".A (f .B) | g") = .ok passedMethod := by cbv

theorem check_of_isCanonical_called :
    (∃ violations, calledNumber.check {} = .ok violations ∧ .pipeArgument ⟨1⟩ ∈ violations ∧
      ∃ node head, calledNumber.commands.get ⟨1⟩ = .ok node ∧
        calledNumber.exprs.get node.head = .ok head ∧ head.isInert) ∧
    ∃ outcome, passedMethod.canonicalize {} = .ok outcome ∧ outcome.tree.check {} = .ok [] := by
  constructor
  · have hcanonical : calledNumber.isCanonical = .ok true := by cbv
    have hcheck : calledNumber.check {} = .ok [.pipeArgument ⟨1⟩] := by cbv
    obtain ⟨violations, hrun, -, hinert⟩ :=
      (check_of_isCanonical (parsed_of_parse parse_calledNumber).singlyOwned).1 hcanonical {}
    have hmem : .pipeArgument ⟨1⟩ ∈ violations := by
      rw [Except.ok.inj (hrun.symm.trans hcheck)]
      exact List.mem_singleton_self _
    obtain ⟨node, head, hreachable, hhead, hinert⟩ := hinert ⟨1⟩ hmem
    exact ⟨violations, hrun, hmem, node, head, hreachable.has, hhead, hinert⟩
  · have hparsed := parsed_of_parse parse_passedMethod
    obtain ⟨b, hb⟩ := hparsed.singlyOwned.exists_holds
    have hforms : passedMethod.read.map (fun b =>
        decide (Governed (Pipe.Formed argsIn) b)) = .ok true := by cbv
    rw [hb.read] at hforms
    have hactions := hb.actionsTakeArguments_iff.mpr (of_decide_eq_true (Except.ok.inj hforms))
    obtain ⟨outcome, hrun, hok, hnothing⟩ :=
      (check_of_isCanonical hparsed.singlyOwned).2 hactions {} Config.validate_default
    obtain ⟨stats, hstats⟩ := hok rfl
    exact ⟨outcome, hrun, (hnothing stats hstats).1⟩

end Tree

end FlatTemplate

import FlatTemplate.Proofs.Parser.Parsed
import FlatTemplate.Proofs.Session.Safety
import FlatTemplate.Proofs.Temporaries.Scoping

namespace FlatTemplate

variable {config : Config} {n : Nat} {d : Draft}

theorem Draft.Tidy.scoped (h : d.Tidy config n) (hconfig : config.Valid) :
    Scoped config.tempStem n [] d.block := by
  intro x htemporary hx
  obtain ⟨e, he, hmentions⟩ := List.countP_pos_iff.mp hx
  have hinUse : InUse (fun name => ∃ x, respell config.userTag x = name) config.tempStem d.taken
      x := by
    match e, governed_named.mp h.named e he with
    | .expr _ (.atom (.var (first :: path))), hnamed =>
      obtain rfl : first = x := of_decide_eq_true hmentions
      exact hnamed first rfl
  rcases hinUse with ⟨y, rfl⟩ | ⟨k, hk, rfl⟩
  · rw [hconfig.isTemporary_respell] at htemporary
    cases htemporary
  · have htemporary := h.temporaries k hk
    obtain ⟨e, he⟩ := htemporary.mentioned
    refine .inr ⟨htemporary.introduced, ?_⟩
    rw [mentionsIn, List.countP_eq_length_filter, he]
    rfl

theorem readsNameless_eq_false {b : Block Handle} (h : ∀ e ∈ blockEntries b, e.Sound) :
    (blockPipes b).any Pipe.readsNameless = false := by
  have hsound : ∀ p ∈ blockPipes b, ∀ c ∈ p.commands, ∀ e ∈ c.operands, e.isNameless = false := by
    intro p hp c hc e he
    have hmem : e.entry ∈ blockEntries b := Pipe.nodes_subset hp (Expr.entry_mem_nodes hc he)
    match e, h _ hmem with
    | .atom _ (.var (_ :: _)), _ | .atom _ (.field _), _ | .atom _ .dot, _
    | .atom _ (.identifier _), _ | .atom _ (.str _), _ | .atom _ (.number _), _
    | .atom _ (.bool _), _ | .paren _ _, _ => rfl
  simp only [List.any_eq_false, Pipe.readsNameless, Bool.or_eq_true, not_or,
    Bool.not_eq_true]
  intro p hp c hc
  exact ⟨hsound p hp c hc _ (List.mem_cons_self ..),
    fun e he => hsound p hp c hc e (List.mem_cons_of_mem _ he)⟩

namespace Tree

variable {t : Tree} {b : Block Handle}

theorem Holds.check (h : t.Holds b) (config : Config) :
    t.check config = .ok (shapeViolations b ++ scopeViolations config.tempStem [] b) := by
  rw [Tree.check, h.read, ok_bind, readsNameless_eq_false h.sound]
  rfl

theorem undeclaredTemporary_not_mem_shapeViolations (b : Block Handle) (id : StmtId)
    (name : String) : .undeclaredTemporary id name ∉ shapeViolations b := by
  intro hmem
  obtain ⟨p, -, hmem⟩ := List.mem_flatMap.mp hmem
  obtain ⟨c, -, hmem⟩ := List.mem_flatMap.mp hmem
  obtain ⟨e, -, hmem⟩ := List.mem_flatMap.mp hmem
  cases e <;> rw [Expr.shapeViolations] at hmem <;> split at hmem <;> simp at hmem

/-- One action declares each temporary, and one operand reads it: further on in the same block, with
nothing in between but actions that the session has inserted. No temporary is out of scope. -/
theorem canonicalize_usedOnce (ht : t.SinglyOwned) {config : Config}
    (hvalid : config.validate = .ok ()) :
    ∃ b outcome, t.read = .ok b ∧ t.canonicalize config = .ok outcome ∧
      (config.maxPasses = none → ∃ stats, outcome.result = .ok stats) ∧
      ∀ stats, outcome.result = .ok stats → ∃ b', outcome.tree.read = .ok b' ∧
        (∀ k < stats.temporaries, UsedOnce (temporary config.tempStem k) b b') ∧
        scopeViolations config.tempStem [] b' = [] ∧
        ∃ violations, outcome.tree.check config = .ok violations ∧
          ∀ id name, .undeclaredTemporary id name ∉ violations := by
  obtain ⟨b, hb⟩ := ht.exists_holds
  obtain ⟨outcome, _, _, d', hrun, h⟩ := hb.canonicalize hvalid
  have hconfig := Config.valid_of_validate hvalid
  have htidy := h.tidy hconfig
  have hscoped := scopeViolations_eq_nil d'.block (htidy.scoped hconfig)
  refine ⟨b, outcome, hb.read, hrun, h.succeeds, fun stats hstats =>
    ⟨d'.block, h.holds.read, fun k hk => ?_, hscoped, _, h.holds.check config, fun id name => ?_⟩⟩
  · rw [h.temporaries stats hstats] at hk
    refine (htidy.temporaries k hk).usedOnce fun key hkey hkind => ?_
    obtain ⟨e, he, rfl⟩ := List.mem_map.mp hkey
    exact hkind ▸ (hb.has e he).index_lt
  · rw [hscoped, List.append_nil]
    exact undeclaredTemporary_not_mem_shapeViolations d'.block id name

end Tree

def branchCall : Tree :=
  let path (x : String) : Expr Untagged := .atom () (.field [x])
  .ofBlock "" [.branch () .cond (.mk () [] [.mk () (path "A") []])
    [.action () (.mk () [] [.mk () (.atom () (.identifier "f")) [path "B", path "C"]])] []]

theorem parse_branchCall :
    Tree.parse (delimited "if .A" ++ delimited "f .B .C" ++ delimited "end") = .ok branchCall := by
  cbv

theorem canonicalize_branchCall :
    (branchCall.canonicalize {}).map (·.result.toOption.map Stats.temporaries) =
      .ok (some 4) := by
  rw [Tree.canonicalize, Config.validate_default]
  cbv

theorem canonicalize_usedOnce_branchCall :
    ∃ b outcome stats b', branchCall.read = .ok b ∧ branchCall.canonicalize {} = .ok outcome ∧
      outcome.result = .ok stats ∧ stats.temporaries = 4 ∧ outcome.tree.read = .ok b' ∧
      (∀ k < 4, UsedOnce (temporary "var" k) b b') ∧ scopeViolations "var" [] b' = [] := by
  obtain ⟨b, outcome, hread, hrun, hsucceeds, h⟩ := Tree.canonicalize_usedOnce
    (Tree.parsed_of_parse parse_branchCall).singlyOwned Config.validate_default
  obtain ⟨stats, hstats⟩ := hsucceeds rfl
  obtain ⟨b', hread', husedOnce, hscoped, -⟩ := h stats hstats
  have hfour : stats.temporaries = 4 := by
    have hcount := canonicalize_branchCall
    rw [hrun, Except.map, hstats] at hcount
    exact Option.some.inj (Except.ok.inj hcount)
  exact ⟨b, outcome, stats, b', hread, hrun, hstats, hfour, hread', hfour ▸ husedOnce, hscoped⟩

end FlatTemplate

import FlatTemplate.Proofs.Parser.Parsed
import FlatTemplate.Proofs.Parser.Texts
import FlatTemplate.Proofs.Tree.Nodes

namespace FlatTemplate

namespace Tree

/-- A store without nodes that are shared, lost or on a circle, in which every node is what source
can spell. -/
structure WellBuilt (t : Tree) : Prop where
  inRange : ∀ k ∈ t.references, k.2.index < t.arenaSize k.1
  once : ∀ k : Key, k.2.index < t.arenaSize k.1 → t.references.count k = 1
  reached : ∀ k : Key, k.2.index < t.arenaSize k.1 → ∃! n, t.ReachesBy n k
  commands : ∀ id node, t.Has (.pipe id node) → node.commands ≠ []
  vars : ∀ id path, t.Has (.expr id (.atom (.var path))) →
    ∃ first rest, path = first :: rest ∧ IsVariable first
  fields : ∀ id path, t.Has (.expr id (.atom (.field path))) → path ≠ []
  texts : ∀ id s, t.Has (.stmt id (.text s)) → s ≠ "" ∧ ¬['{', '{'] <:+: s.toList
  decls : ∀ id node, t.Has (.pipe id node) → node.decls.length ≤ 1 ∨ node.decls.length = 2 ∧
    ∃ owner body elseBody, t.Has (.stmt owner (.branch .range id body elseBody))
  invocations : ∀ owner name id node, t.Has (.stmt owner (.invoke name (some id))) →
    t.Has (.pipe id node) → node.decls = []

variable {t : Tree} {b : Block Handle}

theorem Stores.reached (h : t.Stores b) (hb : BlockLegible b) {k : Key}
    (hk : k.2.index < t.arenaSize k.1) : ∃! n, t.ReachesBy n k := by
  have hholds := h.holds hb.pipes
  obtain ⟨e, he, rfl⟩ := List.mem_map.mp (h.mem_keys_iff.mpr hk)
  obtain ⟨n, hn⟩ := (hholds.reachable he).reaches
  exact ⟨n, hn, fun m hm => hholds.singlyOwned.toOwnedOnce.reachesBy_inj hm hn⟩

theorem Stores.wellBuilt (h : t.Stores b) (hb : BlockLegible b)
    (htexts : ∀ s ∈ blockTexts b, Undelimited s.toList) : t.WellBuilt where
  inRange k hk := h.mem_references_iff.mp hk
  once k hk := h.count_references hk
  reached k hk := h.reached hb hk
  commands id node hp := (h.holds hb.pipes).sound _ ((h.has_iff _).mp hp)
  vars id path he := by
    have hlegible := hb.atom ((h.has_iff _).mp he)
    cases path with
    | nil => exact hlegible.elim
    | cons first rest => exact ⟨first, rest, rfl, isVariable_of_isVariableName hlegible.1⟩
  fields id path he := (hb.atom ((h.has_iff _).mp he)).1
  texts id s hs := by
    have hmem := mem_blockTexts ((h.has_iff _).mp hs)
    exact ⟨hb.texts s hmem, htexts s hmem⟩
  decls id node hp := by
    obtain hone | ⟨htwo, owner, body, elseBody, hrange⟩ := hb.decls ((h.has_iff _).mp hp)
    · exact Or.inl hone
    · exact Or.inr ⟨htwo, owner, body, elseBody, (h.has_iff _).mpr hrange⟩
  invocations owner name id node hs hp := by
    obtain ⟨node', hnode', hnil⟩ := hb.invocation ((h.has_iff _).mp hs)
    obtain ⟨-, rfl⟩ := Entry.pipe.inj (((h.has_iff _).mpr hnode').inj hp rfl)
    exact hnil

theorem Parsed.spelled (h : t.Parsed) : ∃ (name : String) (b : Block Untagged),
    (BlockLegible b ∧ ∀ s ∈ blockTexts b, Undelimited s.toList) ∧ t = .ofBlock name b := by
  refine h.made_of fun hsource => ?_
  obtain ⟨hmain, hdefinitions⟩ := Source.parse_legible hsource
  obtain ⟨htexts, htexts'⟩ := Source.parse_undelimited hsource
  exact ⟨⟨hmain, htexts⟩, fun d hd => ⟨hdefinitions d hd, htexts' d hd⟩⟩

theorem Parsed.stores (h : t.Parsed) : ∃ b, t.Stores b ∧ BlockLegible b ∧
    ∀ s ∈ blockTexts b, Undelimited s.toList := by
  obtain ⟨name, b, ⟨hb, htexts⟩, rfl⟩ := h.spelled
  obtain ⟨b', herase, hstores⟩ := ofBlock_stores name b
  refine ⟨b', hstores, ?_, ?_⟩
  · rwa [← blockLegible_erase, herase, blockLegible_erase]
  · rwa [← blockTexts_erase, herase, blockTexts_erase]

end Tree

namespace TemplateSet

theorem parse_wellBuilt {name source : String} {set : TemplateSet}
    (h : parse name source = .ok set) : ∀ t ∈ set.trees, t.WellBuilt := by
  intro t ht
  obtain ⟨b, hstores, hb, htexts⟩ := Tree.Parsed.stores ⟨name, source, set, h, ht⟩
  exact hstores.wellBuilt hb htexts

def chainSet : TemplateSet :=
  let field (name : String) : Expr Untagged := .atom () (.field [name])
  let pipe (decls : List String) (e : Expr Untagged) : Pipe Untagged := .mk () decls [.mk () e []]
  let chained : Stmt Untagged := .branch () .cond (pipe ["$v"] (field "C")) [.text () "c"] []
  let inner : Stmt Untagged := .branch () .cond (pipe [] (field "B")) [.text () "b"] [chained]
  .ofSource "main" ⟨[.text () "a", .branch () .range (pipe ["$i", "$x"] (field "A")) [inner] []],
    [⟨"d", [.invoke () "d" (some (pipe [] (.paren () (pipe ["$y"] (.atom () .dot)))))]⟩]⟩

theorem parse_chainSet : parse "main" (delimited "define \"d\"" ++
    delimited "template \"d\" ($y := .)" ++ delimited "end" ++ "a" ++
      delimited "range $i, $x := .A" ++ delimited "if .B" ++ "b" ++ delimited "else if $v := .C" ++
        "c" ++ delimited "end" ++ delimited "end") = .ok chainSet := by cbv

theorem parse_wellBuilt_chainSet :
    chainSet.trees.length = 2 ∧ ∀ t ∈ chainSet.trees, t.WellBuilt :=
  ⟨rfl, parse_wellBuilt parse_chainSet⟩

end TemplateSet

end FlatTemplate

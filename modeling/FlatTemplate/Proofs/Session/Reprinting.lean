import FlatTemplate.Proofs.Parser.Building
import FlatTemplate.Proofs.Printing.Canonical
import FlatTemplate.Proofs.Session.Canonicalizing
import FlatTemplate.Proofs.Template.Respelled

namespace FlatTemplate

theorem Canonicalized.legible {config : Config} {b : Block Handle} {bound : NodeKind → Nat}
    {outcome : Outcome} {n : Nat} {d d' : Draft} (h : Canonicalized config b bound outcome n d d')
    (hvalid : config.validate = .ok ()) (hb : BlockLegible b) :
    BlockLegible d'.block ∧ blockTexts d'.block = blockTexts b := by
  obtain ⟨hstem, htag⟩ := Config.fragments_of_validate hvalid
  have hstart : BlockLegible d.block :=
    h.block ▸ hb.rename fun _ hname => isVariableName_respell htag hname
  obtain ⟨hlegible, htexts⟩ := h.run.legible hstem hstart
  rw [h.block, blockTexts_rename] at htexts
  exact ⟨hlegible, htexts⟩

theorem Canonicalized.isCanonical {config : Config} {b : Block Handle} {bound : NodeKind → Nat}
    {outcome : Outcome} {n : Nat} {d d' : Draft} (h : Canonicalized config b bound outcome n d d')
    {stats : Stats} (hstats : outcome.result = .ok stats) :
    outcome.tree.isCanonical = .ok true := by
  rcases h.ends with ⟨_, -, -, hnone⟩ | ⟨_, _, -, -, hresult⟩
  · rw [h.holds.isCanonical, hnone]
    rfl
  · cases hresult.symm.trans hstats

namespace Tree

variable {t : Tree} {b : Block Handle} {config : Config}

/-- Where no text ends in an opening brace, the text of the tree that a session leaves is read again
as the same template, up to texts that stand side by side, and what is read is canonical if the tree
is, as it is where the session succeeds. -/
theorem Parsed.canonicalize_reread (ht : t.Parsed) (hread : t.read = .ok b)
    (hlast : ∀ text ∈ blockTexts b, text.toList.getLast? ≠ some '{')
    (hvalid : config.validate = .ok ()) :
    ∃ outcome b' text, t.canonicalize config = .ok outcome ∧ outcome.tree.read = .ok b' ∧
      outcome.tree.text = .ok text ∧
      (config.maxPasses = none → ∃ stats, outcome.result = .ok stats) ∧
      ∀ name, ∃ set b'', TemplateSet.parse name text = .ok set ∧ set.defined = [] ∧
        set.main.read = .ok b'' ∧
        blockMergeTexts (blockErase b'') = blockMergeTexts (blockErase b') ∧
        set.main.isCanonical = outcome.tree.isCanonical ∧
        ∀ stats, outcome.result = .ok stats → set.main.isCanonical = .ok true := by
  obtain ⟨b₀, hstores, hlegible, hinside⟩ := ht.stores
  have hb := hstores.holds hlegible.pipes
  obtain rfl := Except.ok.inj (hb.read.symm.trans hread)
  obtain ⟨outcome, n, d, d', hrun, h⟩ := hb.canonicalize hvalid
  obtain ⟨hlegible', htexts⟩ := h.legible hvalid hlegible
  have hseparated : blockSeparated d'.block [] = true := by
    refine separated_of_texts (fun text htext => ?_) []
    rw [htexts] at htext
    exact ⟨hinside text htext, hlast text htext⟩
  obtain ⟨text, htext, hreread⟩ := h.holds.reread hlegible' hseparated
  refine ⟨outcome, d'.block, text, hrun, h.holds.read, htext, h.succeeds, fun name => ?_⟩
  obtain ⟨set, b'', hparse, hdefined, hholds, herase⟩ := hreread name
  have hcanonical := h.holds.isCanonical_eq hholds herase
  refine ⟨set, b'', hparse, hdefined, hholds.read, ?_, hcanonical, fun stats hstats => ?_⟩
  · rw [herase, blockMergeTexts_blockMergeTexts]
  · rw [hcanonical, h.isCanonical hstats]

def keptTexts : Tree :=
  let call (args : List (Expr Untagged)) : Command Untagged :=
    .mk () (.atom () (.identifier "len")) args
  .ofBlock "" [.action () (.mk () ["$é"] [.mk () (.atom () (.field ["A"])) []]), .text () "\x7b a",
    .text () "\x7d b", .action () (.mk () [] [call [.atom () (.var ["$é", "B"])], call []])]

theorem parse_keptTexts : Tree.parse (delimited "$é := .A" ++ "\x7b a" ++ delimited "/* */" ++
    "\x7d b" ++ delimited "len $é.B | len") = .ok keptTexts := by cbv

def accentedNames : Config := { tempStem := "é", userTag := "ü" }

theorem canonicalize_reread_keptTexts : accentedNames.validate = .ok () ∧
    ∃ outcome text set, keptTexts.canonicalize accentedNames = .ok outcome ∧
      outcome.tree.text = .ok text ∧ TemplateSet.parse "" text = .ok set ∧
      set.main.isCanonical = .ok true := by
  have hparsed := parsed_of_parse parse_keptTexts
  have hvalid : accentedNames.validate = .ok () := rfl
  obtain ⟨b, -, hb⟩ := hparsed.holds
  have hlast : keptTexts.read.map (fun b => decide (∀ text ∈ blockTexts b,
      text.toList.getLast? ≠ some '{')) = .ok true := by cbv
  rw [hb.read] at hlast
  obtain ⟨outcome, b', text, hrun, -, htext, hok, hreread⟩ :=
    hparsed.canonicalize_reread hb.read (of_decide_eq_true (Except.ok.inj hlast)) hvalid
  obtain ⟨stats, hstats⟩ := hok rfl
  obtain ⟨set, b'', hparse, -, -, -, -, hcanonical⟩ := hreread ""
  exact ⟨hvalid, outcome, text, set, hrun, htext, hparse, hcanonical stats hstats⟩

end Tree

end FlatTemplate

import FlatTemplate.Proofs.Parser.Parsing
import FlatTemplate.Proofs.Tree.Ownership
import FlatTemplate.Proofs.Tree.Storing
import FlatTemplate.TemplateSet

namespace FlatTemplate

theorem mem_defineIn {t u : Tree} {us : List Tree} (h : u ∈ defineIn t us) : u = t ∨ u ∈ us := by
  induction us with
  | nil => exact Or.inl (List.mem_singleton.mp h)
  | cons v us ih =>
    unfold defineIn at h
    split at h
    · rcases List.mem_cons.mp h with h | h
      · exact Or.inl h
      · exact Or.inr (List.mem_cons_of_mem _ h)
    · rcases List.mem_cons.mp h with rfl | h
      · exact Or.inr (List.mem_cons_self ..)
      · exact (ih h).imp_right (List.mem_cons_of_mem _)

theorem TemplateSet.mem_trees_define {s : TemplateSet} {t u : Tree}
    (h : u ∈ (s.define t).trees) : u = t ∨ u ∈ s.trees := by
  rcases List.mem_cons.mp h with rfl | h
  · exact Or.inr (List.mem_cons_self ..)
  · exact (mem_defineIn h).imp_right (List.mem_cons_of_mem _)

theorem TemplateSet.mem_trees_ofSource {name : String} {source : Source} {t : Tree}
    (h : t ∈ (ofSource name source).trees) :
    t = .ofBlock name source.main ∨ ∃ d ∈ source.definitions, t = .ofBlock d.name d.body := by
  have hfold (ds : List Definition) (s : TemplateSet)
      (h : t ∈ (ds.foldl (fun s d => s.define (.ofBlock d.name d.body)) s).trees) :
      t ∈ s.trees ∨ ∃ d ∈ ds, t = .ofBlock d.name d.body := by
    induction ds generalizing s with
    | nil => exact Or.inl h
    | cons d ds ih =>
      rcases ih _ h with h | ⟨d', hd', h⟩
      · rcases mem_trees_define h with h | h
        · exact Or.inr ⟨d, List.mem_cons_self .., h⟩
        · exact Or.inl h
      · exact Or.inr ⟨d', List.mem_cons_of_mem _ hd', h⟩
  exact (hfold _ _ h).imp_left List.mem_singleton.mp

def delimited (action : String) : String := "\x7b\x7b" ++ action ++ "\x7d\x7d"

namespace Tree

variable {t : Tree}

/-- One of the trees of a set that was read from source. -/
def Parsed (t : Tree) : Prop :=
  ∃ name text set, TemplateSet.parse name text = .ok set ∧ t ∈ set.trees

theorem Parsed.made_of {p : Block Untagged → Prop}
    (hp : ∀ {text source}, Source.parse text = .ok source →
      p source.main ∧ ∀ d ∈ source.definitions, p d.body)
    (h : t.Parsed) : ∃ (name : String) (b : Block Untagged), p b ∧ t = .ofBlock name b := by
  obtain ⟨name, text, set, hparse, ht⟩ := h
  obtain ⟨source, hsource, hset⟩ := bind_eq_ok_iff.mp hparse
  obtain rfl := Except.ok.inj hset
  obtain ⟨hmain, hdefinitions⟩ := hp hsource
  rcases TemplateSet.mem_trees_ofSource ht with rfl | ⟨d, hd, rfl⟩
  · exact ⟨name, source.main, hmain, rfl⟩
  · exact ⟨d.name, d.body, hdefinitions d hd, rfl⟩

theorem Parsed.made (h : t.Parsed) :
    ∃ (name : String) (b : Block Untagged), BlockLegible b ∧ t = .ofBlock name b :=
  h.made_of Source.parse_legible

theorem Parsed.holds (h : t.Parsed) : ∃ b, (∀ p ∈ blockPipes b, p.Proper) ∧ t.Holds b := by
  obtain ⟨name, b, hb, rfl⟩ := h.made
  obtain ⟨b', -, hproper, hholds⟩ := holds_ofBlock name hb.pipes
  exact ⟨b', hproper, hholds⟩

theorem Parsed.singlyOwned (h : t.Parsed) : t.SinglyOwned :=
  have ⟨_, _, hb⟩ := h.holds
  hb.singlyOwned

theorem parsed_of_parse {text : String} (h : Tree.parse text = .ok t) : t.Parsed := by
  obtain ⟨set, hset, h⟩ := bind_eq_ok_iff.mp h
  obtain rfl := Except.ok.inj h
  exact ⟨"", text, set, hset, List.mem_cons_self ..⟩

end Tree

end FlatTemplate

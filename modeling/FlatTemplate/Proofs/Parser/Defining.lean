import FlatTemplate.Proofs.Parser.Parsed

namespace FlatTemplate

section DefineIn

variable {t u : Tree} {us : List Tree}

theorem defineIn_of_mem (hnodup : (us.map Tree.name).Nodup) {i : Nat} (hi : us[i]? = some u)
    (hu : u.name = t.name) : defineIn t us = us.set i t := by
  induction us generalizing i with
  | nil => cases hi
  | cons v us ih =>
    obtain ⟨hv, hnodup⟩ := List.nodup_cons.mp hnodup
    cases i with
    | zero =>
      obtain rfl := Option.some.inj hi
      rw [defineIn, if_pos hu, List.set_cons_zero]
    | succ i =>
      have hmem : u ∈ us := List.mem_of_getElem? hi
      have hne : v.name ≠ t.name := by
        rw [← hu]
        exact fun h => hv (h ▸ List.mem_map_of_mem hmem)
      rw [defineIn, if_neg hne, List.set_cons_succ, ih hnodup hi]

theorem defineIn_of_notMem (h : t.name ∉ us.map Tree.name) : defineIn t us = us ++ [t] := by
  induction us with
  | nil => rfl
  | cons v us ih =>
    obtain ⟨hv, hus⟩ := not_or.mp (List.mem_cons.not.mp h)
    rw [defineIn, if_neg (Ne.symm hv), ih hus, List.cons_append]

theorem map_name_defineIn (hnodup : (us.map Tree.name).Nodup) (t : Tree) :
    (defineIn t us).map Tree.name = if t.name ∈ us.map Tree.name then us.map Tree.name
      else us.map Tree.name ++ [t.name] := by
  split
  · next hmem =>
    obtain ⟨u, hu, hname⟩ := List.mem_map.mp hmem
    obtain ⟨i, hi⟩ := List.mem_iff_getElem?.mp hu
    have hlookup : (us.map Tree.name)[i]? = some t.name := by
      rw [List.getElem?_map, hi, ← hname]
      rfl
    obtain ⟨hlt, hget⟩ := List.getElem?_eq_some_iff.mp hlookup
    rw [defineIn_of_mem hnodup hi hname, List.map_set, ← hget, List.set_getElem_self]
  · next hmem => rw [defineIn_of_notMem hmem, List.map_append, List.map_singleton]

theorem find?_defineIn (t : Tree) (us : List Tree) (n : String) :
    (defineIn t us).find? (fun u => u.name = n) =
      if t.name = n then some t else us.find? fun u => u.name = n := by
  induction us with
  | nil => by_cases h : t.name = n <;> simp [defineIn, h]
  | cons v us ih =>
    rw [defineIn]
    by_cases hv : v.name = t.name
    · rw [if_pos hv]
      by_cases h : t.name = n
      · simp [h]
      · simp [h, hv]
    · rw [if_neg hv, List.find?_cons, List.find?_cons, ih]
      by_cases hvn : v.name = n
      · have htn : t.name ≠ n := fun h => hv (hvn.trans h.symm)
        simp [hvn, htn]
      · simp [hvn]

end DefineIn

namespace TemplateSet

/-- The set holds what the definitions, one after the other, make beside the main tree: the names in
the order in which they first occur, and for each name its last definition. -/
structure Collects (s : TemplateSet) (main : Tree) (definitions : List Tree) : Prop where
  main : s.main = main
  nodup : (s.defined.map Tree.name).Nodup
  names : s.defined.map Tree.name = (definitions.map Tree.name).eraseDups
  lookup : ∀ n, s.lookup? n = (definitions.filter fun t => t.name = n).getLast?
  size : s.size = 1 + (definitions.map Tree.name).toFinset.card

structure DefinesOnly (s : TemplateSet) (t : Tree) : Prop where
  main : (s.define t).main = s.main
  others : ∀ n, n ≠ t.name → (s.define t).lookup? n = s.lookup? n
  own : (s.define t).lookup? t.name = some t
  place : ∀ i u, s.defined[i]? = some u → u.name = t.name →
    (s.define t).defined = s.defined.set i t
  new : t.name ∉ s.defined.map Tree.name → (s.define t).defined = s.defined ++ [t]

variable {s : TemplateSet} {main t : Tree} {definitions : List Tree}

theorem size_eq (s : TemplateSet) : s.size = 1 + (s.defined.map Tree.name).length := by
  rw [size, trees, List.length_cons, List.length_map]
  omega

theorem lookup?_define (s : TemplateSet) (t : Tree) (n : String) :
    (s.define t).lookup? n = if t.name = n then some t else s.lookup? n :=
  find?_defineIn t s.defined n

theorem definesOnly (h : (s.defined.map Tree.name).Nodup) (t : Tree) : s.DefinesOnly t where
  main := rfl
  others n hn := by rw [lookup?_define, if_neg (Ne.symm hn)]
  own := by rw [lookup?_define, if_pos rfl]
  place _ _ hi hu := defineIn_of_mem h hi hu
  new h := defineIn_of_notMem h

theorem collects_nil (main : Tree) : Collects { main } main [] where
  main := rfl
  nodup := List.nodup_nil
  names := rfl
  lookup _ := rfl
  size := rfl

theorem eraseDups_concat (ns : List String) (n : String) :
    (ns ++ [n]).eraseDups = if n ∈ ns.eraseDups then ns.eraseDups else ns.eraseDups ++ [n] := by
  rw [List.eraseDups_append]
  by_cases h : n ∈ ns <;> simp [h, List.removeAll, List.eraseDups_cons]

theorem Collects.define (h : s.Collects main definitions) (t : Tree) :
    (s.define t).Collects main (definitions ++ [t]) := by
  have hnames : (s.define t).defined.map Tree.name =
      ((definitions ++ [t]).map Tree.name).eraseDups := by
    rw [List.map_append, List.map_singleton, eraseDups_concat, ← h.names]
    exact map_name_defineIn h.nodup t
  have hnodup : ((s.define t).defined.map Tree.name).Nodup := by
    rw [TemplateSet.define, map_name_defineIn h.nodup]
    split
    · exact h.nodup
    · next hmem =>
      rw [← List.concat_eq_append]
      exact h.nodup.concat hmem
  refine ⟨h.main, hnodup, hnames, fun n => ?_, ?_⟩
  · rw [lookup?_define, List.filter_append, List.getLast?_append, h.lookup]
    by_cases hn : t.name = n <;> simp [hn]
  · have hset : ((definitions ++ [t]).map Tree.name).toFinset =
        ((s.define t).defined.map Tree.name).toFinset := by
      ext n
      rw [List.mem_toFinset, List.mem_toFinset, hnames, List.mem_eraseDups]
    rw [size_eq, hset, List.toFinset_card_of_nodup hnodup]

theorem Collects.foldl (h : s.Collects main definitions) (more : List Tree) :
    (more.foldl TemplateSet.define s).Collects main (definitions ++ more) := by
  induction more generalizing s definitions with
  | nil => rwa [List.append_nil]
  | cons t more ih =>
    have hmore := ih (h.define t)
    rwa [List.append_assoc, List.singleton_append] at hmore

end TemplateSet

def Definition.tree (d : Definition) : Tree := .ofBlock d.name d.body

theorem pieceKinds_sublist {pieces pieces' : List Piece} (h : pieces.Sublist pieces') :
    (pieceKinds pieces).Sublist (pieceKinds pieces') := by
  induction h with
  | slnil => exact List.Sublist.refl _
  | cons piece _ ih => exact ih.trans (List.sublist_append_right _ _)
  | cons_cons piece _ ih => exact (List.Sublist.refl _).append ih

theorem Source.Spelled.keep {source : Source} {pieces : List Piece} (h : source.Spelled pieces)
    {kept : List Definition} (hkept : kept.Sublist source.definitions) :
    ∃ pieces', pieces'.Sublist pieces ∧ Source.Spelled ⟨source.main, kept⟩ pieces' := by
  induction h generalizing kept with
  | nil =>
    obtain rfl := List.sublist_nil.mp hkept
    exact ⟨[], List.Sublist.refl _, .nil⟩
  | stmt hs _ ih =>
    obtain ⟨pieces', hsublist, hspelled⟩ := ih hkept
    exact ⟨_, (List.Sublist.refl _).append hsublist, .stmt hs hspelled⟩
  | define hbody _ ih =>
    cases hkept with
    | cons _ hkept =>
      obtain ⟨pieces', hsublist, hspelled⟩ := ih hkept
      refine ⟨pieces', ?_, hspelled⟩
      exact ((hsublist.cons _).trans (List.sublist_append_right _ _)).cons _
    | cons_cons _ hkept =>
      obtain ⟨pieces', hsublist, hspelled⟩ := ih hkept
      refine ⟨_, ?_, .define hbody hspelled⟩
      exact ((List.Sublist.refl _).append (hsublist.cons_cons _)).cons_cons _

structure Source.ReadFrom (source : Source) (ts : List Token) : Prop where
  spelled : ∃ pieces, source.Spelled pieces ∧ ts.map Token.kind = pieceKinds pieces
  keep : ∀ kept, kept.Sublist source.definitions →
    ∃ ts', ts'.Sublist ts ∧ Parser.source ts' = .ok ⟨source.main, kept⟩

theorem Source.readFrom {source : Source} {ts : List Token} (hts : LegibleTokens ts)
    (h : Parser.source ts = .ok source) : source.ReadFrom ts := by
  obtain ⟨hmain, hdefinitions, pieces, hspelled, hkinds⟩ := (Parser.source_eq_ok_iff hts).mp h
  refine ⟨⟨pieces, hspelled, hkinds⟩, fun kept hkept => ?_⟩
  obtain ⟨pieces', hsublist, hspelled'⟩ := hspelled.keep hkept
  have hkinds' := pieceKinds_sublist hsublist
  rw [← hkinds] at hkinds'
  obtain ⟨ts', hts', hmap⟩ := List.sublist_map_iff.mp hkinds'
  exact ⟨ts', hts', Parser.source_spelled hspelled' hmain
    (fun d hd => hdefinitions d (hkept.subset hd)) hmap.symm⟩

namespace TemplateSet

theorem ofSource_eq_foldl (name : String) (source : Source) : ofSource name source =
    (source.definitions.map Definition.tree).foldl define { main := .ofBlock name source.main } := by
  rw [List.foldl_map]
  rfl

/-- The trees that are defined in a source and after it are kept as in a map by name, in the order
of first definition; a definition is in nothing else's way. -/
theorem parse_collects {name text : String} {set : TemplateSet} (h : parse name text = .ok set) :
    ∃ (ts : List Token) (source : Source), Lexer.tokens text.toList = .ok ts ∧ source.ReadFrom ts ∧
      ∀ more : List Tree, let s := more.foldl define set
        let definitions := source.definitions.map Definition.tree ++ more
        s.Collects (.ofBlock name source.main) definitions ∧ (∀ t, s.DefinesOnly t) ∧
          ∀ before d after, definitions = before ++ d :: after → ∀ n, n ≠ d.name →
            ((before ++ after).foldl define { main := .ofBlock name source.main }).lookup? n =
              s.lookup? n := by
  obtain ⟨source, hsource, hset⟩ := bind_eq_ok_iff.mp h
  obtain rfl := Except.ok.inj hset
  have htokens : ∃ ts, Lexer.tokens text.toList = .ok ts ∧ Parser.source ts = .ok source := by
    unfold Source.parse at hsource
    extract_lets cs at hsource
    split at hsource
    · next s hs =>
      obtain rfl := Except.ok.inj hsource
      exact bind_eq_ok_iff.mp hs
    · cases hsource
  obtain ⟨ts, htokens, hread⟩ := htokens
  refine ⟨ts, source, htokens, Source.readFrom (Lexer.tokensFrom_legible htokens) hread, ?_⟩
  intro more s definitions
  have hcollects : s.Collects (.ofBlock name source.main) definitions := by
    have hfold := (collects_nil (.ofBlock name source.main)).foldl definitions
    rw [List.nil_append, List.foldl_append, ← ofSource_eq_foldl] at hfold
    exact hfold
  refine ⟨hcollects, definesOnly hcollects.nodup, fun before d after hd n hn => ?_⟩
  have hothers := (collects_nil (.ofBlock name source.main)).foldl (before ++ after)
  rw [hothers.lookup, hcollects.lookup, hd, List.nil_append, List.filter_append,
    List.filter_append, List.filter_cons_of_neg (by simpa using Ne.symm hn)]

def namedSet : TemplateSet where
  main := .ofBlock "m" ([.text () "x", .text () "y"] : Block Untagged)
  defined := [.ofBlock "a" ([.text () "3"] : Block Untagged),
    .ofBlock "m" ([.text () "2"] : Block Untagged)]

def namedText : String := delimited "define \"a\"" ++ "1" ++ delimited "end" ++ "x" ++
  delimited "define \"m\"" ++ "2" ++ delimited "end" ++ "y" ++ delimited "define \"a\"" ++ "3" ++
    delimited "end"

theorem parse_namedText : parse "m" namedText = .ok namedSet := by cbv

theorem parse_collects_namedSet : parse "m" namedText = .ok namedSet ∧
    ∃ (ts : List Token) (source : Source), Lexer.tokens namedText.toList = .ok ts ∧
      source.ReadFrom ts ∧
      let t : Tree := .ofBlock "m" ([.text () "4"] : Block Untagged)
      (namedSet.define t).Collects (.ofBlock "m" source.main)
          (source.definitions.map Definition.tree ++ [t]) ∧
        (namedSet.define t).DefinesOnly (.ofBlock "b" ([] : Block Untagged)) := by
  obtain ⟨ts, source, htokens, hread, h⟩ := parse_collects parse_namedText
  obtain ⟨hcollects, honly, -⟩ := h [.ofBlock "m" ([.text () "4"] : Block Untagged)]
  exact ⟨parse_namedText, ts, source, htokens, hread, hcollects, honly _⟩

end TemplateSet

end FlatTemplate

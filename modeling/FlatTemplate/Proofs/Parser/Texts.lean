import FlatTemplate.Proofs.Parser.Parsing

namespace FlatTemplate

def TokenKind.Undelimited : TokenKind → Prop
  | .text s => FlatTemplate.Undelimited s.toList
  | _ => True

theorem Lexer.tokensFrom_undelimited {trim : Bool} {cs : List Char} {tokens : List Token}
    (h : tokensFrom trim cs = .ok tokens) : ∀ token ∈ tokens, token.kind.Undelimited := by
  refine tokensFrom_forall (fun kind hkind => ?_) (fun text _ htext => ?_) h
  · cases kind with
    | text s => exact absurd rfl (hkind.2 s)
    | _ => trivial
  · rw [TokenKind.Undelimited, String.toList_ofList]
    exact htext

theorem Parser.source_undelimited {ts : List Token} {source : Source}
    (hts : ∀ token ∈ ts, token.kind.Undelimited) (h : Parser.source ts = .ok source) :
    (∀ text ∈ blockTexts source.main, Undelimited text.toList) ∧
      ∀ d ∈ source.definitions, ∀ text ∈ blockTexts d.body, Undelimited text.toList := by
  obtain ⟨pieces, hspelled, hread⟩ := source_derives h
  have hpieces : ∀ text ∈ pieceTexts pieces, Undelimited text.toList := by
    intro text htext
    have hkind : .text text ∈ ts.map Token.kind := by
      rw [hread.kinds_eq]
      exact List.mem_append_left _ (mem_pieceKinds_of_text htext)
    obtain ⟨token, htoken, hkind⟩ := List.mem_map.mp hkind
    have := hts token htoken
    rwa [hkind] at this
  obtain ⟨hmain, hdefinitions⟩ := hspelled.texts
  exact ⟨fun text ht => hpieces text (hmain ht),
    fun d hd text ht => hpieces text (hdefinitions d hd ht)⟩

theorem Source.parse_undelimited {text : String} {source : Source}
    (h : Source.parse text = .ok source) :
    (∀ text ∈ blockTexts source.main, Undelimited text.toList) ∧
      ∀ d ∈ source.definitions, ∀ text ∈ blockTexts d.body, Undelimited text.toList := by
  obtain ⟨tokens, htokens, hsource⟩ := Source.parse_eq_ok_iff.mp h
  exact Parser.source_undelimited (Lexer.tokensFrom_undelimited htokens) hsource

end FlatTemplate

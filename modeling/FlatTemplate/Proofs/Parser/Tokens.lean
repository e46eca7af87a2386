import FlatTemplate.Proofs.Except
import FlatTemplate.Proofs.Template.Legible
import FlatTemplate.Proofs.Text.Characters

namespace FlatTemplate

open FlatTemplate.Parser Text

def TokenKind.Legible (kind : TokenKind) : Prop :=
  kind ≠ .text "" ∧ ∀ a ∈ atom? kind, a.Legible

def LegibleTokens (ts : List Token) : Prop := ∀ token ∈ ts, token.kind.Legible

def TokenKind.InAction (kind : TokenKind) : Prop := kind.Legible ∧ ∀ text, kind ≠ .text text

theorem TokenKind.inAction_of_atom {kind : TokenKind} {a : Atom} (h : atom? kind = some a)
    (ha : a.Legible) : kind.InAction := by
  have htext : ∀ text, kind ≠ .text text := by
    rintro _ rfl
    cases h
  refine ⟨⟨htext "", fun b hb => ?_⟩, htext⟩
  obtain rfl := Option.some.inj (h.symm.trans hb)
  exact ha

theorem TokenKind.inAction_of_not_atom {kind : TokenKind} (htext : ∀ text, kind ≠ .text text)
    (h : atom? kind = none) : kind.InAction := by
  refine ⟨⟨htext "", fun a ha => ?_⟩, htext⟩
  rw [h] at ha
  cases ha

def Undelimited (text : List Char) : Prop := ¬['{', '{'] <:+: text

theorem Undelimited.of_infix {text text' : List Char} (h : Undelimited text)
    (h' : text' <:+: text) : Undelimited text' :=
  fun hin => h (hin.trans h')

namespace Lexer

theorem ite_eq_ok_elim {α : Type} {p : Prop} [Decidable p] {x y : Except Failure α} {a : α}
    {q : Prop} (h : (if p then x else y) = .ok a) (hx : p → x = .ok a → q)
    (hy : ¬p → y = .ok a → q) : q := by
  by_cases hp : p
  · exact hx hp (by rwa [if_pos hp] at h)
  · exact hy hp (by rwa [if_neg hp] at h)

theorem all_takeWhile (p : Char → Bool) (cs : List Char) : (cs.takeWhile p).all p = true := by
  induction cs with
  | nil => rfl
  | cons c cs ih =>
    rw [List.takeWhile_cons]
    split
    · next hc => rw [List.all_cons, hc, ih, Bool.true_and]
    · rfl

theorem isVariableName_word (cs : List Char) : isVariableName ("$" ++ word cs).toList = true := by
  rw [String.toList_append, word]
  change (String.ofList (cs.takeWhile isWordChar)).toList.all isWordChar = true
  rw [String.toList_ofList]
  exact all_takeWhile isWordChar cs

theorem isWord_word {cs : List Char} (h : cs.head?.any isWordStart = true) :
    isWord (word cs).toList = true := by
  cases cs with
  | nil => cases h
  | cons c cs =>
    have hc : isWordStart c = true := h
    rw [word, String.toList_ofList, List.takeWhile_cons_of_pos (isWordChar_of_isWordStart hc),
      isWord, hc, all_takeWhile, Bool.true_and]

theorem isWord_fields {cs : List Char} : ∀ segment ∈ (fields cs).1, isWord segment.toList := by
  induction hn : cs.length using Nat.strongRecOn generalizing cs with | _ n ih
  unfold fields
  split
  · next c rest =>
    split
    · next hc =>
      refine List.forall_mem_cons.mpr ⟨?_, ih _ ?_ rfl⟩
      · rw [String.toList_ofList, isWord, hc, all_takeWhile, Bool.true_and]
      · have := length_dropWhile_le isWordChar rest
        simp only [← hn, List.length_cons, afterWord]
        omega
    · simp
  · simp

theorem numberTail_numberTail (afterMark : Bool) (cs : List Char) :
    numberTail afterMark (numberTail afterMark cs) = numberTail afterMark cs := by
  induction cs generalizing afterMark with
  | nil => rfl
  | cons c cs ih =>
    by_cases hc : (c.isAlphanum || c = '.' || c = '_' || (afterMark && (c = '+' || c = '-'))) = true
    · rw [numberTail, if_pos hc, numberTail, if_pos hc, ih]
    · rw [numberTail, if_neg hc]
      rfl

theorem head?_numberTail {cs : List Char} (h : cs.head?.any Char.isDigit = true) :
    (numberTail false cs).head? = cs.head? := by
  cases cs with
  | nil => cases h
  | cons c cs =>
    have hc : c.isAlphanum = true := by
      rw [Char.isAlphanum, show c.isDigit = true from h, Bool.or_true]
    rw [numberTail, if_pos (by simp [hc])]
    rfl

theorem opensNumber_numberTail {c : Char} {cs : List Char} (h : opensNumber c cs = true) :
    opensNumber c (numberTail false cs) = true := by
  unfold opensNumber at h ⊢
  rcases Bool.or_eq_true _ _ ▸ h with h | h
  · rw [h, Bool.true_or]
  · have hdigit := (Bool.and_eq_true _ _ ▸ h).2
    rw [head?_numberTail hdigit, h, Bool.or_true]

theorem number_inAction {c : Char} {cs : List Char} {kind : TokenKind} {rest : Rest cs}
    (hc : opensNumber c cs = true) (h : number c cs = .ok (kind, rest)) : kind.InAction := by
  unfold number at h
  extract_lets tail spelling at h
  refine ite_eq_ok_elim h (fun hnumber h => ?_) fun _ h => by cases h
  obtain ⟨rfl, -⟩ := Prod.mk.inj (Except.ok.inj h)
  refine TokenKind.inAction_of_atom rfl ?_
  have hspelling : spelling.toList = c :: tail := String.toList_ofList
  simp only [Atom.Legible, hspelling, isNumberSpelling, Bool.and_eq_true, decide_eq_true_eq]
  exact ⟨⟨opensNumber_numberTail hc, numberTail_numberTail false cs⟩, hnumber⟩

theorem wordToken_inAction {start : List Char} {word : String} {kind : TokenKind}
    (hword : isWord word.toList = true) (h : wordToken start word = .ok kind) : kind.InAction := by
  unfold wordToken at h
  refine ite_eq_ok_elim h (fun _ h => ?_) fun htrue h => ?_
  · obtain rfl := Except.ok.inj h
    exact TokenKind.inAction_of_atom rfl trivial
  refine ite_eq_ok_elim h (fun _ h => ?_) fun hfalse h => ?_
  · obtain rfl := Except.ok.inj h
    exact TokenKind.inAction_of_atom rfl trivial
  refine ite_eq_ok_elim h (fun _ h => by cases h) fun hnil h => ?_
  split at h
  · obtain rfl := Except.ok.inj h
    exact TokenKind.inAction_of_not_atom (by simp) rfl
  · next hkeyword =>
    obtain rfl := Except.ok.inj h
    refine TokenKind.inAction_of_atom rfl ⟨hword, ?_⟩
    simp [isReserved, htrue, hfalse, hnil, hkeyword]

theorem inAction_of_pure {cs : List Char} {found kind? : Option TokenKind} {stay rest : Rest cs}
    (hfound : ∀ kind ∈ found, kind.InAction)
    (h : (pure (found, stay) : Except Failure (Option TokenKind × Rest cs)) = .ok (kind?, rest)) :
    ∀ kind ∈ kind?, kind.InAction := by
  obtain ⟨rfl, -⟩ := Prod.mk.inj (Except.ok.inj h)
  exact hfound

theorem inAction_of_found {cs : List Char} {kind : TokenKind} {kind? : Option TokenKind}
    {stay rest : Rest cs} (hkind : kind.InAction)
    (h : (pure (some kind, stay) : Except Failure (Option TokenKind × Rest cs)) =
      .ok (kind?, rest)) : ∀ kind ∈ kind?, kind.InAction :=
  inAction_of_pure (fun _ hk => Option.some.inj hk ▸ hkind) h

theorem inAction_of_number {c : Char} {cs : List Char} {kind? : Option TokenKind} {rest : Rest cs}
    (hc : opensNumber c cs = true)
    (h : (do
      let (token, rest) ← number c cs
      return (some token, rest) : Except Failure (Option TokenKind × Rest cs)) =
        .ok (kind?, rest)) : ∀ kind ∈ kind?, kind.InAction := by
  obtain ⟨⟨token, rest'⟩, hnumber, h⟩ := bind_eq_ok_iff.mp h
  exact inAction_of_found (number_inAction hc hnumber) h

theorem lexeme_inAction {c : Char} {cs : List Char} {kind? : Option TokenKind} {rest : Rest cs}
    (h : lexeme c cs = .ok (kind?, rest)) : ∀ kind ∈ kind?, kind.InAction := by
  unfold lexeme at h
  extract_lets stay at h
  refine ite_eq_ok_elim h (fun _ h => inAction_of_pure (by simp) h) fun _ h => ?_
  -- the marks
  iterate 5
    refine ite_eq_ok_elim h
      (fun _ h => inAction_of_found (TokenKind.inAction_of_not_atom (by simp) rfl) h)
      fun _ h => ?_
  -- the two kinds of string
  iterate 2
    refine ite_eq_ok_elim h (fun _ h => ?_) fun _ h => ?_
    · obtain ⟨⟨text, rest'⟩, -, h⟩ := bind_eq_ok_iff.mp h
      exact inAction_of_found (TokenKind.inAction_of_atom (a := .str _) rfl trivial) h
  refine ite_eq_ok_elim h (fun _ h => ?_) fun _ h => ?_
  · exact inAction_of_found
      (TokenKind.inAction_of_atom (a := .var (_ :: _)) rfl ⟨isVariableName_word cs, isWord_fields⟩) h
  refine ite_eq_ok_elim h (fun hdot h => ?_) fun _ h => ?_
  · refine ite_eq_ok_elim h (fun hhead h => ?_) fun _ h => ?_
    · exact inAction_of_found (TokenKind.inAction_of_atom (a := .field _) rfl
        ⟨List.cons_ne_nil _ _, List.forall_mem_cons.mpr ⟨isWord_word hhead, isWord_fields⟩⟩) h
    · refine ite_eq_ok_elim h (fun hdigit h => inAction_of_number ?_ h) fun _ h =>
        inAction_of_found (TokenKind.inAction_of_atom (a := .dot) rfl trivial) h
      simp [opensNumber, hdot, hdigit]
  refine ite_eq_ok_elim h (fun hc h => inAction_of_number ?_ h) fun _ h => ?_
  · simp [opensNumber, hc]
  refine ite_eq_ok_elim h (fun hc h => ?_) fun _ h => by cases h
  obtain ⟨token, htoken, h⟩ := bind_eq_ok_iff.mp h
  refine inAction_of_found (wordToken_inAction ?_ htoken) h
  rw [String.toList_ofList, isWord, hc, all_takeWhile, Bool.true_and]

theorem prefix_of_splitAtOpening {cs text : List Char} {rest : Option (List Char)}
    (h : splitAtOpening cs = (text, rest)) : text <+: cs := by
  fun_induction splitAtOpening cs generalizing text rest with
  | case1 =>
    obtain ⟨rfl, -⟩ := Prod.mk.inj h
    exact List.prefix_rfl
  | case2 =>
    obtain ⟨rfl, -⟩ := Prod.mk.inj h
    exact List.nil_prefix
  | case3 c cs _ text' rest' heq ih =>
    obtain ⟨rfl, -⟩ := Prod.mk.inj h
    exact (List.cons_prefix_cons).mpr ⟨rfl, ih heq⟩

theorem splitAtOpening_undelimited {cs text : List Char} {rest : Option (List Char)}
    (h : splitAtOpening cs = (text, rest)) : Undelimited text := by
  fun_induction splitAtOpening cs generalizing text rest with
  | case1 =>
    obtain ⟨rfl, -⟩ := Prod.mk.inj h
    simp [Undelimited]
  | case2 =>
    obtain ⟨rfl, -⟩ := Prod.mk.inj h
    simp [Undelimited]
  | case3 c cs hfront text' rest' heq ih =>
    obtain ⟨rfl, -⟩ := Prod.mk.inj h
    intro hin
    rcases List.infix_cons_iff.mp hin with hprefix | hin
    · -- A delimiter in front of the text would stand in front of the source.
      rw [List.cons_prefix_cons] at hprefix
      obtain ⟨rfl, hprefix⟩ := hprefix
      obtain ⟨after, hcs⟩ := hprefix.trans (prefix_of_splitAtOpening heq)
      exact hfront after rfl hcs.symm
    · exact ih heq hin

theorem infix_of_trimStart (text : List Char) : trimStart text <:+: text :=
  (List.dropWhile_suffix _).isInfix

theorem infix_of_trimEnd (text : List Char) : trimEnd text <:+: text := by
  have h : text.reverse.dropWhile Text.isBlank <:+ text.reverse := List.dropWhile_suffix _
  rw [trimEnd]
  exact (List.reverse_suffix.mp (by rwa [List.reverse_reverse])).isInfix

theorem textToken_forall {p : TokenKind → Prop} {text : List Char}
    (htext : text ≠ [] → p (.text (.ofList text))) (start : List Char) :
    ∀ token ∈ textToken text start, p token.kind := by
  cases text with
  | nil => exact List.forall_mem_nil _
  | cons c cs => exact List.forall_mem_singleton.mpr (htext (List.cons_ne_nil c cs))

section Forall

variable {p : TokenKind → Prop} (haction : ∀ kind : TokenKind, kind.InAction → p kind)
include haction

theorem actionTokens_forall {opened cs : List Char} {tokens : List Token} {trims : Bool}
    {rest : Rest cs} (h : actionTokens opened cs = .ok (tokens, trims, rest)) :
    ∀ token ∈ tokens, p token.kind := by
  induction hn : cs.length using Nat.strongRecOn generalizing cs tokens trims rest with | _ n ih
  unfold actionTokens at h
  split at h
  · obtain ⟨rfl, -⟩ := Prod.mk.inj (Except.ok.inj h)
    exact List.forall_mem_singleton.mpr (haction _ (TokenKind.inAction_of_not_atom (by simp) rfl))
  · cases cs with
    | nil => cases h
    | cons c cs =>
      obtain ⟨⟨kind?, ⟨rest₁, h₁⟩⟩, hlexeme, h⟩ := bind_eq_ok_iff.mp h
      obtain ⟨⟨more, trims', ⟨rest₂, h₂⟩⟩, hmore, h⟩ := bind_eq_ok_iff.mp h
      obtain ⟨rfl, -⟩ := Prod.mk.inj (Except.ok.inj h)
      have hkind := lexeme_inAction hlexeme
      have htokens := ih rest₁.length (by rw [← hn, List.length_cons]; omega) hmore rfl
      refine List.forall_mem_append.mpr ⟨?_, htokens⟩
      cases kind? with
      | none => exact List.forall_mem_nil _
      | some kind => exact List.forall_mem_singleton.mpr (haction kind (hkind kind rfl))

theorem tokensFrom_forall
    (htext : ∀ text : List Char, text ≠ [] → Undelimited text → p (.text (.ofList text)))
    {trim : Bool} {cs : List Char} {tokens : List Token} (h : tokensFrom trim cs = .ok tokens) :
    ∀ token ∈ tokens, p token.kind := by
  induction hn : cs.length using Nat.strongRecOn generalizing trim cs tokens with | _ n ih
  have trimmed {text : List Char} (htext : Undelimited text) :
      Undelimited (if trim then trimStart text else text) := by
    split
    · exact htext.of_infix (infix_of_trimStart text)
    · exact htext
  unfold tokensFrom at h
  split at h
  · next hsplit =>
    obtain rfl := Except.ok.inj h
    exact textToken_forall (htext _ · (trimmed (splitAtOpening_undelimited hsplit))) _
  · next text inner hsplit =>
    have hin := length_of_splitAtOpening hsplit
    have hfront := trimmed (splitAtOpening_undelimited hsplit)
    extract_lets opened text₁ text₂ inside hinside at h
    have hundelimited : Undelimited text₂ := by
      simp only [text₂]
      split
      · exact hfront.of_infix (infix_of_trimEnd text₁)
      · exact hfront
    clear_value hinside inside
    split at h
    · split at h
      · cases h
      · next rest hafter =>
        split at h
        · cases h
        · next trims rest' hclosing =>
          obtain ⟨tokens', htokens, h⟩ := bind_eq_ok_iff.mp h
          obtain rfl := Except.ok.inj h
          have hlt : rest'.length < n := by
            have := length_of_afterComment? hafter
            have := length_of_closing? hclosing
            simp only [List.length_cons] at hinside
            omega
          exact List.forall_mem_append.mpr
            ⟨textToken_forall (htext _ · hundelimited) _, ih _ hlt htokens rfl⟩
    · obtain ⟨⟨tokens₁, trims, ⟨rest, hr⟩⟩, htokens₁, h⟩ := bind_eq_ok_iff.mp h
      obtain ⟨tokens₂, htokens, h⟩ := bind_eq_ok_iff.mp h
      obtain rfl := Except.ok.inj h
      have hopening := haction .opening (TokenKind.inAction_of_not_atom (by simp) rfl)
      rw [List.forall_mem_append, List.forall_mem_append, List.forall_mem_cons]
      exact ⟨⟨textToken_forall (htext _ · hundelimited) _, hopening,
        actionTokens_forall haction htokens₁⟩, ih _ (by omega) htokens rfl⟩

end Forall

theorem tokensFrom_legible {trim : Bool} {cs : List Char} {tokens : List Token}
    (h : tokensFrom trim cs = .ok tokens) : LegibleTokens tokens := by
  refine tokensFrom_forall (fun _ hkind => hkind.1) (fun text hne _ => ⟨fun hempty => ?_, nofun⟩) h
  have hnil := congrArg String.toList (TokenKind.text.inj hempty)
  rw [String.toList_ofList] at hnil
  exact hne hnil

end Lexer

end FlatTemplate

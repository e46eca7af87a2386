import FlatTemplate.Proofs.Parser.Tokens
import FlatTemplate.Template.Printer

/-!
A legible operand is printed as one lexeme, which the lexer cuts off at its end: behind it stands a
space, a comma, a closing parenthesis or a closing delimiter.
-/

namespace FlatTemplate

def Atom.kind : Atom → TokenKind
  | .var path => .var path
  | .field path => .field path
  | .dot => .dot
  | .identifier name => .identifier name
  | .str text => .str text
  | .number spelling => .number spelling
  | .bool value => .bool value

namespace Lexer

open Text

def apart {α : Type} {cs : List Char} (r : α × Rest cs) : α × List Char := (r.1, r.2.1)

theorem apart_eq_ok {α : Type} {cs rest : List Char} {x : Except Failure (α × Rest cs)} {a : α}
    (h : apart <$> x = .ok (a, rest)) : ∃ h, x = .ok (a, ⟨rest, h⟩) := by
  cases x with
  | error e => cases h
  | ok r =>
    obtain ⟨b, rest', h'⟩ := r
    obtain ⟨rfl, rfl⟩ := Prod.mk.inj (Except.ok.inj h)
    exact ⟨h', rfl⟩

def Lexes (cs : List Char) (kind : TokenKind) (rest : List Char) : Prop :=
  ∃ c tail, cs = c :: tail ∧
    apart <$> lexeme c tail = .ok (some kind, rest)

def Stops (cs : List Char) : Prop := ∃ c rest, cs = c :: rest ∧ c ∈ [' ', ')', ',', '}']

theorem lexes_bar (cs : List Char) : Lexes ('|' :: cs) .bar cs := ⟨_, _, rfl, rfl⟩

theorem lexes_leftParen (cs : List Char) : Lexes ('(' :: cs) .leftParen cs := ⟨_, _, rfl, rfl⟩

theorem lexes_comma (cs : List Char) : Lexes (',' :: cs) .comma cs := ⟨_, _, rfl, rfl⟩

theorem lexes_declare (cs : List Char) : Lexes (':' :: '=' :: cs) .declare cs := ⟨_, _, rfl, rfl⟩

theorem lexes_rightParen {cs : List Char} (h : Stops cs) :
    Lexes (')' :: cs) (.rightParen false) cs := by
  have hfield : startsField cs = false := by
    obtain ⟨c, rest, rfl, hc⟩ := h
    unfold startsField
    split
    · next heq =>
      rw [(List.cons.inj heq).1] at hc
      exact absurd hc (by decide)
    · rfl
  exact ⟨_, _, rfl, by rw [← hfield]; rfl⟩

def EndsWord (cs : List Char) : Prop := ∀ c ∈ cs.head?, isWordChar c = false

theorem Stops.endsWord {cs : List Char} (h : Stops cs) : EndsWord cs := by
  obtain ⟨c, rest, rfl, hc⟩ := h
  have hnone : [' ', ')', ',', '}'].any isWordChar = false := by decide
  rintro d ⟨⟩
  exact Bool.eq_false_iff.mpr (List.any_eq_false.mp hnone c hc)

section Word

variable {name rest : List Char} (hname : name.all isWordChar = true) (hrest : EndsWord rest)
include hname hrest

theorem takeWhile_word : (name ++ rest).takeWhile isWordChar = name := by
  rw [List.takeWhile_append_of_pos (List.all_eq_true.mp hname)]
  cases rest with
  | nil => rw [List.takeWhile_nil, List.append_nil]
  | cons c rest =>
    rw [List.takeWhile_cons_of_neg (by simp [hrest c rfl]), List.append_nil]

theorem dropWhile_word : (name ++ rest).dropWhile isWordChar = rest := by
  rw [List.dropWhile_append_of_pos (List.all_eq_true.mp hname)]
  cases rest with
  | nil => rfl
  | cons c rest => rw [List.dropWhile_cons_of_neg (by simp [hrest c rfl])]

theorem word_eq : word (name ++ rest) = String.ofList name := by
  rw [word, takeWhile_word hname hrest]

theorem afterWord_eq : (afterWord (name ++ rest)).1 = rest := dropWhile_word hname hrest

end Word

theorem endsWord_printFields (path : List String) {rest : List Char} (h : EndsWord rest) :
    EndsWord (printFields path ++ rest) := by
  cases path with
  | nil => exact h
  | cons segment path =>
    rintro c ⟨⟩
    decide

theorem fields_dot {c : Char} {rest : List Char} (hc : isWordStart c = true) :
    apart (fields ('.' :: c :: rest)) =
      (String.ofList (c :: rest.takeWhile isWordChar) :: (fields (afterWord rest).1).1,
        (fields (afterWord rest).1).2.1) := by
  rw [fields, if_pos hc]
  rfl

theorem isWord_iff {cs : List Char} :
    isWord cs = true ↔ ∃ c tail, cs = c :: tail ∧ isWordStart c = true ∧
      tail.all isWordChar = true := by
  cases cs with
  | nil => simp [isWord]
  | cons c tail =>
    rw [isWord, Bool.and_eq_true]
    constructor
    · exact fun h => ⟨c, tail, rfl, h⟩
    · rintro ⟨_, _, heq, h⟩
      obtain ⟨rfl, rfl⟩ := List.cons.inj heq
      exact h

theorem printFields_cons (segment : String) (path : List String) :
    printFields (segment :: path) = '.' :: (segment.toList ++ printFields path) := rfl

theorem fields_print {path : List String} {rest : List Char}
    (hpath : ∀ segment ∈ path, isWord segment.toList) (hrest : Stops rest) :
    apart (fields (printFields path ++ rest)) = (path, rest) := by
  induction path with
  | nil =>
    obtain ⟨c, rest, rfl, hc⟩ := hrest
    have hdot : c ≠ '.' := by
      rintro rfl
      exact absurd hc (by decide)
    rw [printFields, List.flatMap_nil, List.nil_append, fields]
    · rfl
    · exact fun _ _ h => hdot (List.cons.inj h).1
  | cons segment path ih =>
    obtain ⟨hsegment, hpath⟩ := List.forall_mem_cons.mp hpath
    obtain ⟨c, tail, hcs, hc, htail⟩ := isWord_iff.mp hsegment
    have hends := endsWord_printFields path hrest.endsWord
    obtain ⟨hfields, hafter⟩ := Prod.mk.inj (ih hpath)
    rw [printFields_cons, hcs, List.cons_append, List.append_assoc, List.cons_append, fields_dot hc,
      takeWhile_word htail hends, afterWord_eq htail hends, hfields, hafter, ← hcs,
      String.ofList_toList]

theorem path_print {name rest : List Char} {path : List String}
    (hname : name.all isWordChar = true) (hpath : ∀ segment ∈ path, isWord segment.toList)
    (hrest : Stops rest) :
    word (name ++ (printFields path ++ rest)) = String.ofList name ∧
      apart (fields (afterWord (name ++ (printFields path ++ rest))).1) = (path, rest) := by
  have hends := endsWord_printFields path hrest.endsWord
  rw [word_eq hname hends, afterWord_eq hname hends]
  exact ⟨rfl, fields_print hpath hrest⟩

theorem lexeme_dollar (cs : List Char) : apart <$> lexeme '$' cs =
    .ok (some (.var (("$" ++ word cs) :: (apart (fields (afterWord cs).1)).1)),
      (apart (fields (afterWord cs).1)).2) := rfl

theorem lexes_var {first : String} {path : List String} {rest : List Char}
    (hfirst : isVariableName first.toList = true) (hpath : ∀ segment ∈ path, isWord segment.toList)
    (hrest : Stops rest) :
    Lexes (first.toList ++ (printFields path ++ rest)) (.var (first :: path)) rest := by
  unfold isVariableName at hfirst
  split at hfirst
  · next name heq =>
    obtain ⟨hword, hfields⟩ := path_print hfirst hpath hrest
    refine ⟨_, _, by rw [heq, List.cons_append], ?_⟩
    have hspelling : "$" ++ String.ofList name = first := by
      rw [← String.toList_inj, heq]
      simp
    rw [lexeme_dollar, hword, hfields, hspelling]
  · cases hfirst

theorem lexeme_dot (cs : List Char) : apart <$> lexeme '.' cs =
    if cs.head?.any isWordStart then
      .ok (some (.field (word cs :: (apart (fields (afterWord cs).1)).1)),
        (apart (fields (afterWord cs).1)).2)
    else if cs.head?.any Char.isDigit then
      (fun r => (some r.1, r.2)) <$> apart <$> number '.' cs
    else .ok (some .dot, cs) := by
  have hdot : lexeme '.' cs =
      if cs.head?.any isWordStart then _
      else if cs.head?.any Char.isDigit then _
      else _ := rfl
  rw [hdot]
  split
  · rfl
  · split
    · cases number '.' cs <;> rfl
    · rfl

theorem lexes_field {segment : String} {path : List String} {rest : List Char}
    (hsegment : isWord segment.toList = true) (hpath : ∀ segment ∈ path, isWord segment.toList)
    (hrest : Stops rest) :
    Lexes (printFields (segment :: path) ++ rest) (.field (segment :: path)) rest := by
  obtain ⟨c, tail, hcs, hc, htail⟩ := isWord_iff.mp hsegment
  have hall : segment.toList.all isWordChar = true := by
    rw [hcs, List.all_cons, isWordChar_of_isWordStart hc, htail, Bool.true_and]
  have hhead : (segment.toList ++ (printFields path ++ rest)).head?.any isWordStart = true := by
    rw [hcs]
    exact hc
  obtain ⟨hword, hfields⟩ := path_print hall hpath hrest
  refine ⟨_, _, by rw [printFields_cons, List.cons_append, List.append_assoc], ?_⟩
  rw [lexeme_dot, if_pos hhead, hword, hfields, String.ofList_toList]

theorem lexes_dot {rest : List Char} (hrest : Stops rest) : Lexes ('.' :: rest) .dot rest := by
  obtain ⟨c, rest, rfl, hc⟩ := hrest
  have hword : [' ', ')', ',', '}'].any isWordStart = false := by decide
  have hdigit : [' ', ')', ',', '}'].any Char.isDigit = false := by decide
  refine ⟨_, _, rfl, ?_⟩
  rw [lexeme_dot, List.head?_cons, Option.any_some, Option.any_some,
    if_neg (List.any_eq_false.mp hword c hc), if_neg (List.any_eq_false.mp hdigit c hc)]

theorem numberTail_append {afterMark : Bool} {cs rest : List Char}
    (h : numberTail afterMark cs = cs) (hrest : Stops rest) :
    numberTail afterMark (cs ++ rest) = cs := by
  induction cs generalizing afterMark with
  | nil =>
    obtain ⟨c, rest, rfl, hc⟩ := hrest
    have hnone : [' ', ')', ',', '}'].any (fun d => d.isAlphanum || d = '.' || d = '_' ||
        (afterMark && (d = '+' || d = '-'))) = false := by cases afterMark <;> decide
    rw [List.nil_append, numberTail, if_neg (List.any_eq_false.mp hnone c hc)]
  | cons c cs ih =>
    rw [numberTail] at h
    split at h
    · next hc => rw [List.cons_append, numberTail, if_pos hc, ih (List.cons.inj h).2]
    · cases h

theorem number_print {c : Char} {cs rest : List Char} (h : isNumberSpelling (c :: cs) = true)
    (hrest : Stops rest) :
    apart <$> number c (cs ++ rest) = .ok (.number (String.ofList (c :: cs)), rest) := by
  simp only [isNumberSpelling, Bool.and_eq_true, decide_eq_true_eq] at h
  have htail := numberTail_append h.1.2 hrest
  have hdrop : (cs ++ rest).drop cs.length = rest := List.drop_left
  unfold number
  simp only [htail, if_pos h.2, apart, map_ok, pure_eq_ok, hdrop]

theorem lexeme_number {c : Char} {cs : List Char} (h : opensNumber c cs = true) :
    apart <$> lexeme c cs = (fun r => (some r.1, r.2)) <$> apart <$> number c cs := by
  by_cases hdot : c = '.'
  · subst hdot
    have hdigit : cs.head?.any Char.isDigit = true := by simpa [opensNumber] using h
    have hword : cs.head?.any isWordStart = false := by
      cases cs with
      | nil => rfl
      | cons d cs =>
        exact Bool.eq_false_iff.mpr fun hd =>
          Bool.false_ne_true ((isDigit_eq_false_of_isWordStart hd).symm.trans hdigit)
    rw [lexeme_dot, if_neg (by simp [hword]), if_pos hdigit]
  have hc : (c = '-' || c = '+' || c.isDigit) = true := by simpa [opensNumber, hdot] using h
  have hmarks : ∀ d ∈ ['|', '(', ')', ',', ':', '"', rawQuote, '$'], c ≠ d := by
    have hnone : ['|', '(', ')', ',', ':', '"', rawQuote, '$'].any
        (fun d => d = '-' || d = '+' || d.isDigit) = false := by decide
    rintro d hd rfl
    exact List.any_eq_false.mp hnone c hd hc
  have hblank : isBlank c = false := by
    simp only [Bool.or_eq_true, decide_eq_true_eq] at hc
    rcases hc with (rfl | rfl) | hdigit
    · rfl
    · rfl
    · exact isBlank_eq_false_of_isDigit hdigit
  have heq : lexeme c cs = number c cs >>= fun r => .ok (some r.1, r.2) := by
    simp only [List.forall_mem_cons] at hmarks
    simp [lexeme, hblank, hmarks, hdot, hc]
  rw [heq]
  cases number c cs <;> rfl

theorem opensNumber_append {c : Char} {cs : List Char} (h : opensNumber c cs = true)
    (rest : List Char) : opensNumber c (cs ++ rest) = true := by
  cases cs with
  | nil =>
    unfold opensNumber at h ⊢
    rw [show ([] : List Char).head?.any Char.isDigit = false from rfl, Bool.and_false,
      Bool.or_false] at h
    rw [h, Bool.true_or]
  | cons d cs => exact h

theorem lexes_number {spelling : String} {rest : List Char}
    (h : isNumberSpelling spelling.toList = true) (hrest : Stops rest) :
    Lexes (spelling.toList ++ rest) (.number spelling) rest := by
  cases hcs : spelling.toList with
  | nil =>
    rw [hcs] at h
    cases h
  | cons c cs =>
    rw [hcs] at h
    have hopens : opensNumber c cs = true := by
      simp only [isNumberSpelling, Bool.and_eq_true] at h
      exact h.1.1
    refine ⟨c, cs ++ rest, rfl, ?_⟩
    rw [lexeme_number (opensNumber_append hopens rest), number_print h hrest, map_ok, ← hcs,
      String.ofList_toList]

theorem lexeme_of_isWordStart {c : Char} {cs : List Char} (h : isWordStart c = true) :
    lexeme c cs = (do
      let token ← wordToken (c :: cs) (String.ofList (c :: cs.takeWhile isWordChar))
      return (some token, afterWord cs)) := by
  have hmarks : ∀ d ∈ ['|', '(', ')', ',', ':', '"', rawQuote, '$', '.', '-', '+'], c ≠ d := by
    have hnone : ['|', '(', ')', ',', ':', '"', rawQuote, '$', '.', '-', '+'].any isWordStart =
        false := by decide
    rintro d hd rfl
    exact List.any_eq_false.mp hnone c hd h
  simp only [List.forall_mem_cons] at hmarks
  simp [lexeme, isBlank_eq_false_of_isWordStart h, isDigit_eq_false_of_isWordStart h, hmarks, h]

theorem lexes_word {name : String} {kind : TokenKind} {rest : List Char}
    (hname : isWord name.toList = true) (hkind : ∀ start, wordToken start name = .ok kind)
    (hrest : Stops rest) : Lexes (name.toList ++ rest) kind rest := by
  obtain ⟨c, tail, hcs, hc, htail⟩ := isWord_iff.mp hname
  refine ⟨c, tail ++ rest, by rw [hcs, List.cons_append], ?_⟩
  rw [lexeme_of_isWordStart hc, takeWhile_word htail hrest.endsWord, ← hcs, String.ofList_toList,
    hkind, ok_bind, pure_eq_ok, map_ok, apart, afterWord_eq htail hrest.endsWord]

theorem wordToken_identifier {name : String} (h : isReserved name = false) (start : List Char) :
    wordToken start name = .ok (.identifier name) := by
  simp only [isReserved, Bool.or_eq_false_iff, decide_eq_false_iff_not, List.mem_cons,
    List.not_mem_nil, or_false, not_or, Option.isSome_eq_false_iff, Option.isNone_iff_eq_none] at h
  obtain ⟨⟨htrue, hfalse, hnil⟩, hkeyword⟩ := h
  rw [wordToken, if_neg htrue, if_neg hfalse, if_neg hnil, hkeyword]
  rfl

theorem lexes_keyword {word : Keyword} {rest : List Char} (hrest : Stops rest) :
    Lexes (word.text.toList ++ rest) (.keyword word) rest := by
  refine lexes_word ?_ (fun start => ?_) hrest
  · cases word with
    | branch kind => cases kind <;> decide
    | _ => decide
  · cases word with
    | branch kind => cases kind <;> rfl
    | _ => rfl

section Quoted

variable {start cs rest rest' text : List Char} {c : Char}

theorem quoted_quote (start rest : List Char) :
    apart <$> quoted start ('"' :: rest) = .ok ([], rest) := by
  rw [quoted]
  rfl

theorem quoted_plain (hc : c ≠ '"' ∧ c ≠ '\n' ∧ c ≠ '\\')
    (h : apart <$> quoted start cs = .ok (text, rest)) :
    apart <$> quoted start (c :: cs) = .ok (c :: text, rest) := by
  obtain ⟨h', hquoted⟩ := apart_eq_ok h
  rw [quoted]
  · rw [hquoted]
    rfl
  · exact hc.1
  · exact hc.2.1
  · exact hc.2.2

theorem quoted_escape (hc : apart <$> escape cs = .ok (c, rest))
    (h : apart <$> quoted start rest = .ok (text, rest')) :
    apart <$> quoted start ('\\' :: cs) = .ok (c :: text, rest') := by
  obtain ⟨h', hescape⟩ := apart_eq_ok hc
  obtain ⟨h'', hquoted⟩ := apart_eq_ok h
  rw [quoted, hescape, ok_bind]
  simp only
  rw [hquoted]
  rfl

end Quoted

theorem hexValue?_digitChar : ∀ k < 16, hexValue? (Nat.digitChar k) = some k := by decide

theorem digitChar_ne_plus : ∀ k < 16, Nat.digitChar k ≠ '+' := by decide

theorem hexNumber?_digits {n : Nat} (hn : n < 0x100) :
    hexNumber? 2 [Nat.digitChar (n / 16), Nat.digitChar (n % 16)] = some n := by
  have hhigh : n / 16 < 16 := Nat.div_lt_of_lt_mul hn
  have hlow : n % 16 < 16 := Nat.mod_lt _ (by decide)
  have hdigits : hexDigits? [Nat.digitChar (n / 16), Nat.digitChar (n % 16)] = some n := by
    simp [hexDigits?, hexValue?_digitChar _ hhigh, hexValue?_digitChar _ hlow, Nat.div_add_mod']
  rw [← hdigits, hexNumber?]
  simp [digitChar_ne_plus _ hhigh]

theorem escape_hex {d e : Char} {n : Nat} (h : hexNumber? 2 [d, e] = some n)
    (hn : n.isValidChar) (rest : List Char) :
    apart <$> escape ('x' :: d :: e :: rest) = .ok (Char.ofNat n, rest) := by
  have hnumber : ((escapeWidth? 'x').bind fun width =>
      (hexNumber? width (d :: e :: rest)).map (width, ·)) = some (2, n) := by
    change (hexNumber? 2 [d, e]).map (2, ·) = some (2, n)
    rw [h]
    rfl
  unfold escape
  simp only [show simpleEscape? 'x' = none from rfl, hnumber, if_pos hn]
  rfl

theorem escape_control {c : Char} (hc : isControl c = true) (rest : List Char) :
    apart <$> escape ('x' :: Nat.digitChar (c.toNat / 16) :: Nat.digitChar (c.toNat % 16) :: rest) =
      .ok (c, rest) := by
  have hlt : c.toNat < 0x100 := by
    simp only [isControl, Bool.or_eq_true, Bool.and_eq_true, decide_eq_true_eq] at hc
    omega
  have hnumber := hexNumber?_digits hlt
  rw [escape_hex hnumber c.valid, Char.ofNat_toNat]

theorem quoted_literalChar {start rest rest' text : List Char} (c : Char)
    (h : apart <$> quoted start rest = .ok (text, rest')) :
    apart <$> quoted start (literalChar c ++ rest) = .ok (c :: text, rest') := by
  by_cases hquote : c = '"'
  · subst hquote
    exact quoted_escape rfl h
  by_cases hslash : c = '\\'
  · subst hslash
    exact quoted_escape rfl h
  by_cases hnewline : c = '\n'
  · subst hnewline
    exact quoted_escape rfl h
  by_cases htab : c = '\t'
  · subst htab
    exact quoted_escape rfl h
  by_cases hreturn : c = '\r'
  · subst hreturn
    exact quoted_escape rfl h
  rw [literalChar, if_neg hquote, if_neg hslash, if_neg hnewline, if_neg htab, if_neg hreturn]
  by_cases hcontrol : isControl c = true
  · rw [if_pos hcontrol]
    exact quoted_escape (escape_control hcontrol rest) h
  · rw [if_neg hcontrol]
    exact quoted_plain ⟨hquote, hnewline, hslash⟩ h

theorem quoted_literal (start text rest : List Char) :
    apart <$> quoted start (text.flatMap literalChar ++ '"' :: rest) = .ok (text, rest) := by
  induction text with
  | nil => exact quoted_quote start rest
  | cons c text ih =>
    rw [List.flatMap_cons, List.append_assoc]
    exact quoted_literalChar c ih

theorem lexeme_quote (cs : List Char) : lexeme '"' cs = do
    let (text, rest) ← quoted ('"' :: cs) cs
    return (some (.str (String.ofList text)), rest) := rfl

theorem lexes_literal (text : String) (rest : List Char) :
    Lexes (literal text ++ rest) (.str text) rest := by
  refine ⟨'"', text.toList.flatMap literalChar ++ '"' :: rest, by simp [literal], ?_⟩
  obtain ⟨h, hquoted⟩ := apart_eq_ok (quoted_literal ('"' :: _) text.toList rest)
  rw [lexeme_quote, hquoted, ok_bind]
  simp only [pure_eq_ok, map_ok, apart, String.ofList_toList]

theorem lexes_atom {a : Atom} (ha : a.Legible) {rest : List Char} (hrest : Stops rest) :
    Lexes (a.print ++ rest) a.kind rest := by
  match a with
  | .var (first :: path) =>
    have hprint : (Atom.var (first :: path)).print = first.toList ++ printFields path := rfl
    rw [hprint, List.append_assoc]
    exact lexes_var ha.1 ha.2 hrest
  | .field [] => exact absurd rfl ha.1
  | .field (segment :: path) =>
    obtain ⟨hsegment, hpath⟩ := List.forall_mem_cons.mp ha.2
    exact lexes_field hsegment hpath hrest
  | .dot => exact lexes_dot hrest
  | .identifier name => exact lexes_word ha.1 (wordToken_identifier ha.2) hrest
  | .str text => exact lexes_literal text rest
  | .number spelling => exact lexes_number ha hrest
  | .bool true => exact lexes_word (by decide : isWord "true".toList = true) (fun _ => rfl) hrest
  | .bool false => exact lexes_word (by decide : isWord "false".toList = true) (fun _ => rfl) hrest

end Lexer

end FlatTemplate

import FlatTemplate.Proofs.Cursor.Positions
import FlatTemplate.Proofs.Printing.Lexemes
import FlatTemplate.Proofs.Parser.Texts

namespace FlatTemplate.Cursor

open Text Lexer

structure Placed where
  kind : Option TokenKind
  offset : Nat

section Definitions

variable (source : List Char)

def closing (n : Nat) : Read (Option (Nat × Bool)) := do
  let rest ← sliceFrom n source
  if ['}', '}'].isPrefixOf rest then return some (2, false)
  else match rest.head? with
    | none => return none
    | some c =>
      if isMarkerSpace c then
        let inner ← sliceFrom 1 rest
        return if ['-', '}', '}'].isPrefixOf inner then some (4, true) else none
      else return none

def word (n : Nat) : Read (String × Nat) := do
  let rest ← sliceFrom n source
  let length := (find? (fun rest => rest.head?.any fun c => !isWordChar c) rest).getD
    (byteLength rest)
  return (String.ofList (← slice 0 length rest), n + length)

def fields : (steps : Nat) → Nat → Read (List String × Nat)
  | 0, _ => throw .endless
  | steps + 1, n => do
    if startsField (← sliceFrom n source) then
      let (segment, n) ← word source (n + 1)
      let (path, n) ← fields steps n
      return (segment :: path, n)
    else return ([], n)

def number (n : Nat) : Read (TokenKind × Nat) := do
  let length := byteLength (numberTail true (← sliceFrom n source))
  let spelling ← slice n (n + length) source
  if isNumber spelling then return (.number (String.ofList spelling), n + length)
  else throw (.failure (.badNumber (String.ofList spelling)) n)

def hexText? : List Char → Option Nat
  | '+' :: digits => hexDigits? digits
  | digits => hexDigits? digits

def hexEscape (width n : Nat) : Read (Option Char × Nat) := do
  match (prefixTo? width (← sliceFrom n source)).bind hexText? with
  | none => return (none, n)
  | some value => return (if value.isValidChar then some (Char.ofNat value) else none, n + width)

def escape (n : Nat) : Read (Char × Nat) := do
  match (← sliceFrom n source).head? with
  | none => throw (.failure .unterminatedString (n - 1))
  | some c =>
    let behind := n + c.utf8Size
    let (decoded, m) ← match simpleEscape? c, escapeWidth? c with
      | some d, _ => pure (some d, behind)
      | none, some width => hexEscape source width behind
      | none, none => pure (none, behind)
    match decoded with
    | some d => return (d, m)
    | none =>
      throw (.failure (.invalidEscape (String.ofList (← slice (n - 1) m source))) (n - 1))

def quoted (start : Nat) : (steps : Nat) → Nat → Read (List Char × Nat)
  | 0, _ => throw .endless
  | steps + 1, n => do
    match (← sliceFrom n source).head? with
    | none => throw (.failure .unterminatedString start)
    | some c =>
      let n := n + c.utf8Size
      if c = '"' then return ([], n)
      else if c = '\n' then throw (.failure .unterminatedString start)
      else if c = '\\' then
        let (d, n) ← escape source n
        let (text, n) ← quoted start steps n
        return (d :: text, n)
      else
        let (text, n) ← quoted start steps n
        return (c :: text, n)

def raw (start : Nat) : Read (List Char × Nat) := do
  match find? (·.head? = some rawQuote) (← sliceFrom (start + 1) source) with
  | none => throw (.failure .unterminatedString start)
  | some length =>
    return (← slice (start + 1) (start + 1 + length) source, start + 1 + length + 1)

def wordKind (n : Nat) (word : String) : Read TokenKind :=
  if word = "true" then return .bool true
  else if word = "false" then return .bool false
  else if word = "nil" then throw (.failure (.unsupported .nil) n)
  else match Keyword.ofWord? word with
  | some keyword => return .keyword keyword
  | none => return .identifier word

def lexeme (steps n : Nat) (c : Char) : Read (Option TokenKind × Nat) := do
  let second := (← sliceFrom n source)[1]?
  if isBlank c then return (none, n + c.utf8Size)
  else if c = '|' then return (some .bar, n + 1)
  else if c = '(' then return (some .leftParen, n + 1)
  else if c = ')' then
    return (some (.rightParen (startsField (← sliceFrom (n + 1) source))), n + 1)
  else if c = ',' then return (some .comma, n + 1)
  else if c = ':' && second = some '=' then return (some .declare, n + 2)
  else if c = '"' then
    let (text, m) ← quoted source n steps (n + 1)
    return (some (.str (String.ofList text)), m)
  else if c = rawQuote then
    let (text, m) ← raw source n
    return (some (.str (String.ofList text)), m)
  else if c = '$' then
    let (name, m) ← word source (n + 1)
    let (path, m) ← fields source steps m
    return (some (.var (("$" ++ name) :: path)), m)
  else if c = '.' then
    if second.any isWordStart then
      let (path, m) ← fields source steps n
      return (some (.field path), m)
    else if second.any Char.isDigit then
      let (token, m) ← number source n
      return (some token, m)
    else return (some .dot, n + 1)
  else if c = '-' || c = '+' || c.isDigit then
    let (token, m) ← number source n
    return (some token, m)
  else if isWordStart c then
    let (name, m) ← word source n
    return (some (← wordKind n name), m)
  else throw (.failure (.unexpectedChar c) n)

def action (opened : Nat) : (steps : Nat) → Nat → Read (List Placed × Nat × Bool)
  | 0, _ => throw .endless
  | steps + 1, n => do
    match ← closing source n with
    | some (length, trims) => return ([⟨some .closing, n⟩], n + length, trims)
    | none =>
      match (← sliceFrom n source).head? with
      | none => throw (.failure .unclosedAction opened)
      | some c =>
        let (kind?, m) ← lexeme source steps n c
        let (tokens, m, trims) ← action opened steps m
        return ((kind?.map fun kind => ⟨some kind, n⟩).toList ++ tokens, m, trims)

def comment (opened n : Nat) : Read (Nat × Bool) := do
  match find? ['*', '/'].isPrefixOf (← sliceFrom (n + 2) source) with
  | none => throw (.failure .unclosedComment opened)
  | some length =>
    let n := n + 2 + length + 2
    match ← closing source n with
    | none => throw (.failure .unclosedComment opened)
    | some (length, trims) => return (n + length, trims)

def textToken (text : List Char) (n : Nat) : List Placed :=
  if text.isEmpty then [] else [⟨some (.text (String.ofList text)), n⟩]

def tokensFrom : (steps : Nat) → (trim : Bool) → Nat → Read (List Placed)
  | 0, _, _ => throw .endless
  | steps + 1, trim, n => do
    if n < byteLength source then
      let rest ← sliceFrom n source
      let opened? := (find? ['{', '{'].isPrefixOf rest).map (n + ·)
      let text ← slice n (opened?.getD (byteLength source)) source
      let text := if trim then trimStart text else text
      match opened? with
      | none => return textToken text n ++ [⟨none, byteLength source⟩]
      | some opened =>
        let trims := opensTrimming (← sliceFrom (opened + 2) source)
        let text := if trims then trimEnd text else text
        let inner := if trims then opened + 2 + 2 else opened + 2
        if ['/', '*'].isPrefixOf (← sliceFrom inner source) then
          let (m, trim) ← comment source opened inner
          return textToken text n ++ (← tokensFrom steps trim m)
        else
          let (tokens, m, trim) ← action source opened steps inner
          return textToken text n ++ ⟨some .opening, opened⟩ :: tokens ++
            (← tokensFrom steps trim m)
    else return [⟨none, byteLength source⟩]

def tokens : Read (List Placed) := tokensFrom source (byteLength source + 1) false 0

end Definitions

def Onward (source : List Char) {α : Type} {cs : List Char} (x : α × Nat) (y : α × Rest cs) :
    Prop := x.1 = y.1 ∧ At source x.2 y.2.1

section Agreement

variable {source cs rest : List Char} {n start steps : Nat} {c : Char}

theorem isMarkerSpace_utf8Size (h : isMarkerSpace c = true) : c.utf8Size = 1 := by
  simp only [isMarkerSpace, Bool.or_eq_true, decide_eq_true_eq] at h
  rcases h with (((rfl | rfl) | rfl) | rfl) | rfl <;> rfl

theorem closing_eq_some {trims : Bool} (h : At source n cs)
    (hclosing : closing? cs = some (trims, rest)) :
    ∃ length, closing source n = .ok (some (length, trims)) ∧ At source (n + length) rest := by
  rw [closing, sliceFrom_eq_ok h, ok_bind]
  unfold closing? at hclosing
  split at hclosing
  · obtain ⟨rfl, rfl⟩ := Prod.mk.inj (Option.some.inj hclosing)
    exact ⟨2, rfl, (h.next rfl).next rfl⟩
  · next c rest =>
    split at hclosing
    · next hspace =>
      obtain ⟨rfl, rfl⟩ := Prod.mk.inj (Option.some.inj hclosing)
      have hone := isMarkerSpace_utf8Size hspace
      have htail := (At.zero (c :: '-' :: '}' :: '}' :: rest)).next hone
      have hplain : ['}', '}'].isPrefixOf (c :: '-' :: '}' :: '}' :: rest) = false := by
        simp [List.isPrefixOf]
      refine ⟨4, ?_, (((h.next hone).next rfl).next rfl).next rfl⟩
      rw [hplain, if_neg Bool.false_ne_true, List.head?_cons]
      simp only [if_pos hspace]
      rw [sliceFrom_eq_ok htail]
      rfl
    · cases hclosing
  · cases hclosing

theorem closing_eq_none (h : At source n cs) (hclosing : closing? cs = none) :
    closing source n = .ok none := by
  have hplain : ['}', '}'].isPrefixOf cs = false := by
    rw [Bool.eq_false_iff]
    intro hfront
    obtain ⟨rest, rfl⟩ := List.isPrefixOf_iff_prefix.mp hfront
    cases hclosing
  rw [closing, sliceFrom_eq_ok h, ok_bind, hplain, if_neg Bool.false_ne_true]
  cases cs with
  | nil => rfl
  | cons c cs =>
    rw [List.head?_cons]
    by_cases hspace : isMarkerSpace c
    · have htail := (At.zero (c :: cs)).next (isMarkerSpace_utf8Size hspace)
      have hmarker : ['-', '}', '}'].isPrefixOf cs = false := by
        rw [Bool.eq_false_iff]
        intro hfront
        obtain ⟨rest, rfl⟩ := List.isPrefixOf_iff_prefix.mp hfront
        simp [closing?, hspace] at hclosing
      simp only [if_pos hspace, sliceFrom_eq_ok htail, ok_bind, hmarker]
      rfl
    · simp only [if_neg hspace]
      rfl

theorem word_eq (h : At source n cs) : ∃ m, Cursor.word source n = .ok (Lexer.word cs, m) ∧
    At source m (afterWord cs).1 := by
  have hsplit : cs.takeWhile isWordChar ++ cs.dropWhile isWordChar = cs :=
    List.takeWhile_append_dropWhile
  have hslice : slice 0 (byteLength (cs.takeWhile isWordChar)) cs =
      .ok (cs.takeWhile isWordChar) := by
    have hzero := slice_eq_ok (At.zero (cs.takeWhile isWordChar ++ cs.dropWhile isWordChar))
    rwa [Nat.zero_add, hsplit] at hzero
  refine ⟨n + byteLength (cs.takeWhile isWordChar), ?_, At.skip (hsplit.symm ▸ h)⟩
  simp only [Cursor.word, sliceFrom_eq_ok h, ok_bind, find?_not, hslice]
  rfl

theorem startsField_iff : startsField cs = true ↔
    ∃ c rest, cs = '.' :: c :: rest ∧ isWordStart c = true := by
  unfold startsField
  split
  · simp
  · next hno => simpa using fun c rest heq => absurd heq (hno c rest)

theorem word_cons (hc : isWordStart c = true) (cs : List Char) :
    Lexer.word (c :: cs) = String.ofList (c :: cs.takeWhile isWordChar) := by
  rw [Lexer.word, List.takeWhile_cons, if_pos (isWordChar_of_isWordStart hc)]

theorem afterWord_cons (hc : isWordStart c = true) (cs : List Char) :
    (afterWord (c :: cs)).1 = (afterWord cs).1 :=
  List.dropWhile_cons_of_pos (isWordChar_of_isWordStart hc)

theorem fields_of_not_startsField (h : startsField cs = false) :
    Lexer.fields cs = ([], ⟨cs, Nat.le_refl _⟩) := by
  unfold Lexer.fields
  split
  · next c rest =>
    have hc : isWordStart c = false := h
    rw [if_neg (Bool.eq_false_iff.mp hc)]
  · rfl

theorem fields_eq (hsteps : cs.length < steps) (h : At source n cs) :
    ∃ m, Cursor.fields source steps n = .ok ((Lexer.fields cs).1, m) ∧
      At source m (Lexer.fields cs).2.1 := by
  induction steps generalizing n cs with
  | zero => exact absurd hsteps (Nat.not_lt_zero _)
  | succ steps ih =>
    rw [Cursor.fields, sliceFrom_eq_ok h, ok_bind]
    cases hfield : startsField cs with
    | false =>
      rw [fields_of_not_startsField hfield]
      exact ⟨n, rfl, h⟩
    | true =>
      obtain ⟨c, rest, rfl, hc⟩ := startsField_iff.mp hfield
      obtain ⟨m, hword, hm⟩ := word_eq (h.next rfl)
      rw [word_cons hc] at hword
      rw [afterWord_cons hc] at hm
      have hle := (afterWord rest).2
      simp only [List.length_cons] at hsteps
      obtain ⟨k, hfields, hk⟩ := ih (by omega) hm
      obtain ⟨hpath, hrest⟩ := Prod.mk.inj (@fields_dot c rest hc)
      refine ⟨k, ?_, hrest ▸ hk⟩
      simp only [if_true, hword, ok_bind, hfields, hpath]
      rfl

theorem numberTail_prefix (signed : Bool) (cs : List Char) : numberTail signed cs <+: cs := by
  induction cs generalizing signed with
  | nil => exact List.prefix_rfl
  | cons c cs ih =>
    rw [numberTail]
    split
    · exact List.cons_prefix_cons.mpr ⟨rfl, ih _⟩
    · exact List.nil_prefix

def beginsNumber (c : Char) : Bool := c = '.' || c = '-' || c = '+' || c.isDigit

theorem numberTail_cons (hc : beginsNumber c = true) (cs : List Char) :
    numberTail true (c :: cs) = c :: numberTail false cs := by
  have hmark : (c = 'e' || c = 'E' || c = 'p' || c = 'P' : Bool) = false := by
    rw [Bool.eq_false_iff]
    intro hmark
    simp only [Bool.or_eq_true, decide_eq_true_eq] at hmark
    rcases hmark with ((rfl | rfl) | rfl) | rfl <;> cases hc
  rw [numberTail, if_pos, hmark]
  simp only [beginsNumber, Bool.or_eq_true] at hc
  rcases hc with ((hc | hc) | hc) | hc <;> simp [hc, Char.isAlphanum]

theorem number_agrees (h : At source n (c :: cs)) (hc : beginsNumber c = true) :
    Agrees source (Onward source) (Cursor.number source n) (Lexer.number c cs) := by
  obtain ⟨rest, hrest⟩ := numberTail_prefix true (c :: cs)
  have hspelling := numberTail_cons hc cs
  have hslice := slice_eq_ok (hrest.symm ▸ h)
  have hskip := At.skip (hrest.symm ▸ h)
  rw [hspelling] at hslice hskip hrest
  have hdrop : cs.drop (numberTail false cs).length = rest :=
    (congrArg _ (List.cons.inj hrest).2).symm.trans List.drop_left
  simp only [Cursor.number, sliceFrom_eq_ok h, ok_bind, hspelling, hslice, Lexer.number]
  split
  · exact .ok ⟨rfl, hdrop ▸ hskip⟩
  · exact .failure h

theorem hexValue?_utf8Size {v : Nat} (h : hexValue? c = some v) : c.utf8Size = 1 := by
  have hle : c.toNat ≤ 0x66 := by
    unfold hexValue? at h
    extract_lets n at h
    by_contra hlt
    have hdigit : ¬(0x30 ≤ n && n ≤ 0x39) = true := by simp [n]; omega
    have hupper : ¬(0x41 ≤ n && n ≤ 0x46) = true := by simp [n]; omega
    have hlower : ¬(0x61 ≤ n && n ≤ 0x66) = true := by simp [n]; omega
    rw [if_neg hdigit, if_neg hupper, if_neg hlower] at h
    cases h
  exact Char.utf8Size_eq_one_iff.mpr (Nat.le_trans hle (by decide))

theorem byteLength_of_hexDigits? {v : Nat} (h : hexDigits? cs = some v) :
    byteLength cs = cs.length := by
  have hfold {k : Nat} (h : cs.foldlM (fun n c => (hexValue? c).map (n * 16 + ·)) k = some v) :
      byteLength cs = cs.length := by
    clear * - h
    induction cs generalizing k with
    | nil => rfl
    | cons c cs ih =>
      rw [List.foldlM_cons] at h
      obtain ⟨k', hk, h⟩ := Option.bind_eq_some_iff.mp h
      obtain ⟨v', hv, -⟩ := Option.map_eq_some_iff.mp hk
      rw [byteLength, hexValue?_utf8Size hv, ih h, List.length_cons, Nat.add_comm]
  cases cs with
  | nil => cases h
  | cons c cs => exact hfold h

theorem byteLength_of_hexText? {v : Nat} (h : hexText? cs = some v) :
    byteLength cs = cs.length := by
  unfold hexText? at h
  split at h
  · rw [byteLength, List.length_cons, byteLength_of_hexDigits? h, Nat.add_comm]
    rfl
  · exact byteLength_of_hexDigits? h

theorem hexNumber?_eq (width : Nat) (cs : List Char) :
    hexNumber? width cs = (prefixTo? width cs).bind hexText? := by
  have hnumber : hexNumber? width cs =
      if (cs.take width).length < width then none else hexText? (cs.take width) := rfl
  ext v
  rw [hnumber]
  constructor
  · intro h
    split at h
    · cases h
    · next hlength =>
      have hbytes := byteLength_of_hexText? h
      have hwidth : (cs.take width).length = width := by
        have := List.length_take_le width cs
        omega
      rw [hwidth] at hbytes
      have hfront := prefixTo?_append (cs.take width) (cs.drop width)
      rw [hbytes, List.take_append_drop] at hfront
      rw [hfront]
      exact h
  · intro h
    obtain ⟨digits, hfront, hdigits⟩ := Option.bind_eq_some_iff.mp h
    obtain ⟨rest, rfl, hbytes⟩ := prefixTo?_eq_some hfront
    rw [byteLength_of_hexText? hdigits] at hbytes
    rw [← hbytes, List.take_left, if_neg (Nat.lt_irrefl _)]
    exact hdigits

theorem escape_agrees (h : At source n ('\\' :: cs)) :
    Agrees source (Onward source) (Cursor.escape source (n + 1)) (Lexer.escape cs) := by
  have hbehind := h.next rfl
  rw [Cursor.escape, sliceFrom_eq_ok hbehind, ok_bind, Lexer.escape.eq_def]
  cases cs with
  | nil => exact .failure h
  | cons c rest =>
    have hrest := hbehind.tail
    -- What an error quotes is the slice from the backslash to the end of the digits.
    have hcut {digits rest' : List Char} (hdigits : rest = digits ++ rest') :
        slice n (n + 1 + c.utf8Size + byteLength digits) source = .ok ('\\' :: c :: digits) := by
      rw [hdigits] at h
      have hslice := slice_eq_ok (show At source n (('\\' :: c :: digits) ++ rest') from h)
      rwa [byteLength, byteLength, show '\\'.utf8Size = 1 from rfl, ← Nat.add_assoc,
        ← Nat.add_assoc] at hslice
    have hplain := hcut (List.nil_append rest).symm
    rw [byteLength, Nat.add_zero] at hplain
    simp only [List.head?_cons, Nat.add_sub_cancel]
    cases simpleEscape? c with
    | some d => exact .ok ⟨rfl, hrest⟩
    | none =>
      cases escapeWidth? c with
      | none =>
        simp only [pure_eq_ok, ok_bind, Option.bind_none, hplain]
        exact .failure h
      | some width =>
        simp only [Option.bind_some, hexEscape, sliceFrom_eq_ok hrest, ok_bind, hexNumber?_eq]
        cases hvalue : (prefixTo? width rest).bind hexText? with
        | none =>
          simp only [pure_eq_ok, ok_bind, Option.map_none, hplain]
          exact .failure h
        | some v =>
          obtain ⟨digits, hfront, hdigits⟩ := Option.bind_eq_some_iff.mp hvalue
          obtain ⟨rest', rfl, hbytes⟩ := prefixTo?_eq_some hfront
          have hlength := (byteLength_of_hexText? hdigits).symm.trans hbytes
          simp only [pure_eq_ok, ok_bind, Option.map_some]
          by_cases hvalid : v.isValidChar
          · have hskip := hrest.skip
            have hdrop : (digits ++ rest').drop width = rest' := hlength ▸ List.drop_left
            rw [hbytes, ← hdrop] at hskip
            simp only [if_pos hvalid]
            exact .ok ⟨rfl, hskip⟩
          · have htake : (digits ++ rest').take width = digits := hlength ▸ List.take_left
            have hslice := hcut rfl
            rw [hbytes] at hslice
            simp only [if_neg hvalid, hslice, ok_bind, htake]
            exact .failure h

theorem quoted_agrees {scs : List Char} (hsteps : cs.length < steps) (hstart : At source start scs)
    (h : At source n cs) :
    Agrees source (Onward source) (Cursor.quoted source start steps n) (Lexer.quoted scs cs) := by
  -- Each turn takes at least one character, so the steps outlast what is left.
  induction steps generalizing n cs with
  | zero => exact absurd hsteps (Nat.not_lt_zero _)
  | succ steps ih =>
    rw [Cursor.quoted, sliceFrom_eq_ok h, ok_bind]
    cases cs with
    | nil =>
      rw [Lexer.quoted]
      exact .failure hstart
    | cons c rest =>
      simp only [List.head?_cons, List.length_cons] at hsteps ⊢
      by_cases hquote : c = '"'
      · subst hquote
        rw [if_pos rfl, Lexer.quoted]
        exact .ok ⟨rfl, h.next rfl⟩
      by_cases hnewline : c = '\n'
      · subst hnewline
        rw [if_neg hquote, if_pos rfl, Lexer.quoted]
        exact .failure hstart
      rw [if_neg hquote, if_neg hnewline]
      by_cases hslash : c = '\\'
      · subst hslash
        rw [if_pos rfl, Lexer.quoted]
        refine (escape_agrees h).bind ?_
        rintro ⟨d, m⟩ ⟨_, rest', h'⟩ ⟨rfl, hm⟩
        have hlt : rest'.length < steps := by omega
        refine (ih hlt hm).bind ?_
        rintro ⟨text, k⟩ ⟨_, rest'', h''⟩ ⟨rfl, hk⟩
        exact .ok ⟨rfl, hk⟩
      · rw [if_neg hslash, Lexer.quoted]
        · refine (ih (by omega) h.tail).bind ?_
          rintro ⟨text, k⟩ ⟨_, rest', h'⟩ ⟨rfl, hk⟩
          exact .ok ⟨rfl, hk⟩
        · exact hquote
        · exact hnewline
        · exact hslash

theorem find?_rawQuote (cs : List Char) : find? (·.head? = some rawQuote) cs =
    if cs.dropWhile (· ≠ rawQuote) = [] then none
    else some (byteLength (cs.takeWhile (· ≠ rawQuote))) := by
  induction cs with
  | nil => rfl
  | cons c cs ih =>
    by_cases hc : c = rawQuote
    · subst hc
      rfl
    · have hne : decide (c ≠ rawQuote) = true := decide_eq_true hc
      rw [find?, List.head?_cons, if_neg (by simpa using hc), ih, List.dropWhile_cons, if_pos hne,
        List.takeWhile_cons, if_pos hne, byteLength]
      split <;> rfl

theorem raw_agrees (h : At source n (rawQuote :: cs)) :
    Agrees source (Onward source) (Cursor.raw source n) (Lexer.raw (rawQuote :: cs) cs) := by
  have hbody := h.next rfl
  rw [Cursor.raw, sliceFrom_eq_ok hbody, ok_bind, find?_rawQuote]
  have hsplit : cs.takeWhile (· ≠ rawQuote) ++ cs.dropWhile (· ≠ rawQuote) = cs :=
    List.takeWhile_append_dropWhile
  cases hdrop : cs.dropWhile (· ≠ rawQuote) with
  | nil =>
    rw [if_pos rfl]
    unfold Lexer.raw
    simp only
    split
    · exact .failure h
    · next heq => cases hdrop.symm.trans heq
  | cons q rest =>
    have hq : q = rawQuote := by
      have hhead := List.head?_dropWhile_not (· ≠ rawQuote) cs
      rw [hdrop] at hhead
      simpa using hhead
    rw [hdrop, hq] at hsplit
    have hslice := slice_eq_ok (hsplit.symm ▸ hbody)
    have hend := (At.skip (hsplit.symm ▸ hbody)).next rfl
    rw [if_neg (List.cons_ne_nil _ _)]
    unfold Lexer.raw
    simp only [hslice, ok_bind]
    split
    · next heq => cases hdrop.symm.trans heq
    · next heq =>
      obtain ⟨-, rfl⟩ := List.cons.inj (hdrop.symm.trans heq)
      exact .ok ⟨rfl, hend⟩

theorem wordKind_agrees (h : At source n cs) (word : String) :
    Agrees source Eq (wordKind n word) (wordToken cs word) := by
  unfold wordKind wordToken
  split
  · exact .ok rfl
  split
  · exact .ok rfl
  split
  · exact .failure h
  cases Keyword.ofWord? word <;> exact .ok rfl

theorem lexeme_agrees (hsteps : cs.length + 1 < steps) (h : At source n (c :: cs)) :
    Agrees source (Onward source) (Cursor.lexeme source steps n c) (Lexer.lexeme c cs) := by
  have hword : isWordStart c = true → ∃ m, Cursor.word source n =
      .ok (String.ofList (c :: cs.takeWhile isWordChar), m) ∧ At source m (afterWord cs).1 := by
    intro hc
    obtain ⟨m, hword, hm⟩ := word_eq h
    rw [word_cons hc] at hword
    exact ⟨m, hword, afterWord_cons hc cs ▸ hm⟩
  have hsecond : (c :: cs)[1]? = cs.head? := by cases cs <;> rfl
  unfold Cursor.lexeme Lexer.lexeme
  rw [sliceFrom_eq_ok h, ok_bind, hsecond]
  extract_lets second stay
  -- The marks are one byte long, so the position behind them is the next one.
  have mark {d : Char} (kind : TokenKind) (hc : c = d) (hd : d.utf8Size = 1) :
      Agrees source (Onward source) (.ok (some kind, n + 1)) (.ok (some kind, stay)) :=
    .ok ⟨rfl, h.next (hc ▸ hd)⟩
  refine .ite (fun _ => .ok ⟨rfl, h.tail⟩) fun _ => ?_
  refine .ite (fun hc => mark .bar hc rfl) fun _ => ?_
  refine .ite (fun hc => mark .leftParen hc rfl) fun _ => ?_
  refine .ite (fun hc => ?_) fun _ => ?_
  · rw [sliceFrom_eq_ok (h.next (hc ▸ rfl))]
    exact mark _ hc rfl
  refine .ite (fun hc => mark .comma hc rfl) fun _ => ?_
  refine .ite (fun hc => ?_) fun _ => ?_
  · rw [Bool.and_eq_true, decide_eq_true_eq, decide_eq_true_eq] at hc
    obtain ⟨rfl, hequals⟩ := hc
    replace hequals : cs.head? = some '=' := hequals
    cases cs with
    | nil => cases hequals
    | cons d rest =>
      obtain rfl : d = '=' := Option.some.inj hequals
      exact .ok ⟨rfl, (h.next rfl).next rfl⟩
  refine .ite (fun hc => ?_) fun _ => ?_
  · refine (quoted_agrees (by omega) h (h.next (hc ▸ rfl))).bind ?_
    rintro ⟨text, m⟩ ⟨_, rest⟩ ⟨rfl, hm⟩
    exact .ok ⟨rfl, hm⟩
  refine .ite (fun hc => ?_) fun _ => ?_
  · subst hc
    refine (raw_agrees h).bind ?_
    rintro ⟨text, m⟩ ⟨_, rest⟩ ⟨rfl, hm⟩
    exact .ok ⟨rfl, hm⟩
  refine .ite (fun hc => ?_) fun _ => ?_
  · obtain ⟨m, hword, hm⟩ := word_eq (h.next (hc ▸ rfl))
    have hle := (afterWord cs).2
    have hlt : (afterWord cs).1.length < steps := by omega
    obtain ⟨k, hfields, hk⟩ := fields_eq hlt hm
    simp only [hword, ok_bind, hfields]
    exact .ok ⟨rfl, hk⟩
  refine .ite (fun hc => ?_) fun _ => ?_
  · subst hc
    refine .ite (fun hword => ?_) fun _ => .ite (fun hdigit => ?_) fun _ => mark .dot rfl rfl
    · obtain ⟨d, rest, rfl, hd⟩ : ∃ d rest, cs = d :: rest ∧ isWordStart d := by
        cases cs with
        | nil => cases hword
        | cons d rest => exact ⟨d, rest, rfl, hword⟩
      obtain ⟨m, hfields, hm⟩ := fields_eq hsteps h
      obtain ⟨hpath, hrest⟩ := Prod.mk.inj (@fields_dot d rest hd)
      rw [hrest, ← afterWord_cons hd] at hm
      rw [hpath, ← word_cons hd, ← afterWord_cons hd] at hfields
      rw [hfields]
      exact .ok ⟨rfl, hm⟩
    · refine (number_agrees h rfl).bind ?_
      rintro ⟨token, m⟩ ⟨_, rest⟩ ⟨rfl, hm⟩
      exact .ok ⟨rfl, hm⟩
  refine .ite (fun hc => ?_) fun _ => ?_
  · refine (number_agrees h ?_).bind ?_
    · simp only [beginsNumber, Bool.or_eq_true] at hc ⊢
      tauto
    · rintro ⟨token, m⟩ ⟨_, rest⟩ ⟨rfl, hm⟩
      exact .ok ⟨rfl, hm⟩
  refine .ite (fun hc => ?_) fun _ => .failure h
  obtain ⟨m, hword, hm⟩ := hword hc
  simp only [hword, ok_bind]
  refine (wordKind_agrees h _).bind ?_
  rintro kind _ rfl
  exact .ok ⟨rfl, hm⟩

def Marks (source : List Char) (p : Placed) (t : Token) : Prop :=
  p.kind = some t.kind ∧ At source p.offset t.start

theorem action_agrees {opened : Nat} {ocs : List Char} (hopened : At source opened ocs)
    (hsteps : cs.length + 1 < steps) (h : At source n cs) :
    Agrees source (fun x y => List.Forall₂ (Marks source) x.1 y.1 ∧ x.2.2 = y.2.1 ∧
      At source x.2.1 y.2.2.1) (action source opened steps n) (actionTokens ocs cs) := by
  induction steps generalizing n cs with
  | zero => exact absurd hsteps (Nat.not_lt_zero _)
  | succ steps ih =>
    rw [action, actionTokens.eq_def]
    split
    · next trims rest hclosing =>
      obtain ⟨length, heq, hrest⟩ := closing_eq_some h hclosing
      rw [heq, ok_bind]
      exact .ok ⟨.cons ⟨rfl, h⟩ .nil, rfl, hrest⟩
    · next hclosing =>
      rw [closing_eq_none h hclosing, ok_bind]
      simp only [sliceFrom_eq_ok h, ok_bind]
      cases cs with
      | nil => exact .failure hopened
      | cons c rest =>
        simp only [List.head?_cons, List.length_cons] at hsteps ⊢
        refine (lexeme_agrees (by omega) h).bind ?_
        rintro ⟨kind?, m⟩ ⟨_, rest', h'⟩ ⟨rfl, hm⟩
        have hlt : rest'.length + 1 < steps := by omega
        refine (ih hlt hm).bind ?_
        rintro ⟨ps, k, trims⟩ ⟨ts, _, rest'', h''⟩ ⟨hts, rfl, hk⟩
        refine .ok ⟨?_, rfl, hk⟩
        cases kind? with
        | none => exact hts
        | some kind => exact .cons ⟨rfl, h⟩ hts

theorem isPrefixOf_pair {a b : Char} (hno : ∀ rest, c = a → cs = b :: rest → False) :
    [a, b].isPrefixOf (c :: cs) = false := by
  rw [Bool.eq_false_iff]
  intro hfront
  obtain ⟨rest, heq⟩ := List.isPrefixOf_iff_prefix.mp hfront
  obtain ⟨rfl, rfl⟩ := List.cons.inj heq
  exact hno rest rfl rfl

theorem find?_comment (cs : List Char) :
    (afterComment? cs = none ∧ find? ['*', '/'].isPrefixOf cs = none) ∨
    ∃ body rest, cs = body ++ '*' :: '/' :: rest ∧ afterComment? cs = some rest ∧
      find? ['*', '/'].isPrefixOf cs = some (byteLength body) := by
  fun_induction afterComment? cs with
  | case1 => exact .inl ⟨rfl, rfl⟩
  | case2 rest => exact .inr ⟨[], rest, rfl, rfl, rfl⟩
  | case3 c cs hno ih =>
    rw [find?, isPrefixOf_pair hno, if_neg Bool.false_ne_true]
    rcases ih with ⟨hnone, hfind⟩ | ⟨body, rest, hcs, hsome, hfind⟩
    · exact .inl ⟨hnone, by rw [hfind]; rfl⟩
    · exact .inr ⟨c :: body, rest, by rw [hcs]; rfl, hsome, by rw [hfind]; rfl⟩

theorem find?_opening (cs : List Char) :
    (splitAtOpening cs = (cs, none) ∧ find? ['{', '{'].isPrefixOf cs = none) ∨
    ∃ text rest, cs = text ++ '{' :: '{' :: rest ∧ splitAtOpening cs = (text, some rest) ∧
      find? ['{', '{'].isPrefixOf cs = some (byteLength text) := by
  induction cs with
  | nil => exact .inl ⟨rfl, rfl⟩
  | cons c cs ih =>
    by_cases hopening : ∃ rest, c = '{' ∧ cs = '{' :: rest
    · obtain ⟨rest, rfl, rfl⟩ := hopening
      exact .inr ⟨[], rest, rfl, rfl, rfl⟩
    · have hno : ∀ rest, c = '{' → cs = '{' :: rest → False :=
        fun rest hc hcs => hopening ⟨rest, hc, hcs⟩
      rw [find?, isPrefixOf_pair hno, if_neg Bool.false_ne_true, splitAtOpening]
      · rcases ih with ⟨hsplit, hfind⟩ | ⟨text, rest, hcs, hsplit, hfind⟩
        · exact .inl ⟨by rw [hsplit], by rw [hfind]; rfl⟩
        · exact .inr ⟨c :: text, rest, by rw [hcs]; rfl, by rw [hsplit], by rw [hfind]; rfl⟩
      · exact hno

theorem textToken_marks (h : At source n cs) (text : List Char) :
    List.Forall₂ (Marks source) (Cursor.textToken text n) (Lexer.textToken text cs) := by
  unfold Cursor.textToken Lexer.textToken
  split
  · exact .nil
  · exact .cons ⟨rfl, h⟩ .nil

def Ended (source : List Char) (ps : List Placed) (ts : List Token) : Prop :=
  ∃ qs, ps = qs ++ [⟨none, byteLength source⟩] ∧ List.Forall₂ (Marks source) qs ts

theorem Ended.append {ps qs : List Placed} {ts us : List Token}
    (hts : List.Forall₂ (Marks source) ps ts) (hus : Ended source qs us) :
    Ended source (ps ++ qs) (ts ++ us) := by
  obtain ⟨qs, rfl, hus⟩ := hus
  exact ⟨ps ++ qs, (List.append_assoc ..).symm, List.rel_append hts hus⟩

theorem comment_eq_error {opened : Nat} {body : List Char} (h : At source n ('/' :: '*' :: body))
    (hopen : (afterComment? body).bind closing? = none) :
    comment source opened n = .error (.failure .unclosedComment opened) := by
  have hbody := (h.next rfl).next rfl
  simp only [comment, sliceFrom_eq_ok hbody, ok_bind]
  rcases find?_comment body with ⟨-, hfind⟩ | ⟨inside, rest, rfl, hafter, hfind⟩
  · rw [hfind]
    rfl
  · rw [hafter] at hopen
    have hrest := (hbody.skip.next rfl).next rfl
    simp only [hfind, closing_eq_none hrest hopen, ok_bind]
    rfl

theorem comment_eq_ok {opened : Nat} {body : List Char} {trims : Bool}
    (h : At source n ('/' :: '*' :: body))
    (hclosed : (afterComment? body).bind closing? = some (trims, rest)) :
    ∃ m, comment source opened n = .ok (m, trims) ∧ At source m rest := by
  have hbody := (h.next rfl).next rfl
  simp only [comment, sliceFrom_eq_ok hbody, ok_bind]
  rcases find?_comment body with ⟨hafter, -⟩ | ⟨inside, rest, rfl, hafter, hfind⟩
  · rw [hafter] at hclosed
    cases hclosed
  · rw [hafter] at hclosed
    have hrest := (hbody.skip.next rfl).next rfl
    obtain ⟨length, hclosing, hm⟩ := closing_eq_some hrest hclosed
    refine ⟨_, ?_, hm⟩
    simp only [hfind, hclosing, ok_bind]
    rfl

theorem at_inside (h : At source n cs) :
    At source (if opensTrimming cs then n + 2 else n)
      (if opensTrimming cs then cs.drop 2 else cs) := by
  split
  · next htrims =>
    unfold opensTrimming at htrims
    split at htrims
    · exact (h.next rfl).next (isMarkerSpace_utf8Size htrims)
    · cases htrims
  · exact h

theorem tokensFrom_agrees {trim : Bool} (hsteps : cs.length < steps) (h : At source n cs) :
    Agrees source (Ended source) (Cursor.tokensFrom source steps trim n)
      (Lexer.tokensFrom trim cs) := by
  induction steps generalizing n cs trim with
  | zero => exact absurd hsteps (Nat.not_lt_zero _)
  | succ steps ih =>
    have hlength := h.add_byteLength
    -- At the end of the source both readers stop; before it, both look for the next delimiter.
    by_cases hlt : n < byteLength source
    · rw [Lexer.tokensFrom.eq_def]
      split
      · next text hsplit =>
        rw [Cursor.tokensFrom, if_pos hlt, sliceFrom_eq_ok h, ok_bind]
        rcases find?_opening cs with ⟨heq, hfind⟩ | ⟨text, inner, hcs, heq, hfind⟩
        · obtain ⟨rfl, -⟩ := Prod.mk.inj (heq.symm.trans hsplit)
          have hslice := slice_eq_ok ((List.append_nil cs).symm ▸ h)
          rw [hlength] at hslice
          simp only [hfind, Option.map_none, Option.getD_none, hslice, ok_bind]
          exact .ok ⟨_, rfl, textToken_marks h _⟩
        · cases (Prod.mk.inj (heq.symm.trans hsplit)).2
      · next text inner hsplit =>
        rcases find?_opening cs with ⟨heq, -⟩ | ⟨text', inner', hcs, heq, hfind⟩
        · cases (Prod.mk.inj (heq.symm.trans hsplit)).2
        rw [hsplit, Prod.mk.injEq, Option.some.injEq] at heq
        obtain ⟨rfl, rfl⟩ := heq
        have hslice := slice_eq_ok (hcs ▸ h)
        have hopened := (hcs ▸ h).skip
        have hinner := (hopened.next rfl).next rfl
        have hinside := at_inside hinner
        simp only [Cursor.tokensFrom, if_pos hlt, sliceFrom_eq_ok h, ok_bind, hfind,
          Option.map_some, Option.getD_some, hslice, sliceFrom_eq_ok hinner]
        -- What is left inside the delimiter is shorter, whether a trim marker is taken or not.
        have hle :
            (if opensTrimming inner then inner.drop 2 else inner).length + 2 ≤ cs.length := by
          have := length_of_splitAtOpening hsplit
          split <;> (try rw [List.length_drop]) <;> omega
        -- The rest does not look into how the trim marker and the kept text came about.
        generalize (if opensTrimming inner then inner.drop 2 else inner) = inside at *
        generalize (if opensTrimming inner then n + byteLength text + 2 + 2
          else n + byteLength text + 2) = m at *
        generalize (if opensTrimming inner then trimEnd (if trim then trimStart text else text)
          else if trim then trimStart text else text) = kept at *
        rw [sliceFrom_eq_ok hinside, ok_bind]
        split
        · next hcomment =>
          obtain ⟨body, rfl⟩ := List.isPrefixOf_iff_prefix.mp hcomment
          simp only [List.cons_append, List.nil_append, List.length_cons] at hinside hle ⊢
          split
          · next hafter =>
            rw [comment_eq_error hinside (by rw [hafter]; rfl)]
            exact .failure hopened
          · next rest hafter =>
            split
            · next hclosing =>
              rw [comment_eq_error hinside (by rw [hafter, Option.bind_some, hclosing])]
              exact .failure hopened
            · next trims rest' hclosing =>
              have hafter_lt := length_of_afterComment? hafter
              have hclosing_lt := length_of_closing? hclosing
              obtain ⟨k, heq, hk⟩ :=
                comment_eq_ok hinside (by rw [hafter, Option.bind_some, hclosing])
              rw [heq, ok_bind]
              refine (ih (by omega) hk).bind ?_
              intro ps ts hts
              exact .ok (.append (textToken_marks h _) hts)
        · next hcomment =>
          split
          · exact absurd rfl hcomment
          · refine (action_agrees hopened (by omega) hinside).bind ?_
            rintro ⟨ps, k, trims⟩ ⟨ts, _, rest, hrest⟩ ⟨hts, rfl, hk⟩
            have hlt : rest.length < steps := by omega
            refine (ih hlt hk).bind ?_
            intro ps' ts' hts'
            have hopens : Marks source ⟨some .opening, n + byteLength text⟩
                ⟨.opening, '{' :: '{' :: inner⟩ := ⟨rfl, hopened⟩
            have hmarks := List.rel_append (textToken_marks h kept) (.cons hopens hts)
            exact .ok (Ended.append hmarks hts')
    · rw [Cursor.tokensFrom, if_neg hlt]
      obtain rfl : cs = [] := by
        cases cs with
        | nil => rfl
        | cons c cs =>
          have := c.utf8Size_pos
          rw [byteLength] at hlength
          omega
      rw [Lexer.tokensFrom.eq_def]
      cases trim <;> exact .ok ⟨[], rfl, .nil⟩

theorem length_le_byteLength (cs : List Char) : cs.length ≤ byteLength cs := by
  induction cs with
  | nil => exact Nat.le_refl _
  | cons c cs ih =>
    have := c.utf8Size_pos
    rw [List.length_cons, byteLength]
    omega

theorem tokens_agrees (source : List Char) :
    Agrees source (Ended source) (Cursor.tokens source) (Lexer.tokens source) :=
  tokensFrom_agrees (Nat.lt_succ_of_le (length_le_byteLength source)) (.zero source)

end Agreement

end FlatTemplate.Cursor

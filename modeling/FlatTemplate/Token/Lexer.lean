import FlatTemplate.ParseError
import FlatTemplate.Text.Blank
import FlatTemplate.Text.Word

/-!
Cutting source into tokens. Text stands outside the actions; inside them blank space separates
tokens and means nothing else. Comments leave no token, and neither do the trim markers, which take
the blank space next to them out of the text.
-/

namespace FlatTemplate.Lexer

open Text

abbrev Rest (cs : List Char) := { rest : List Char // rest.length ≤ cs.length }

theorem length_dropWhile_le (p : Char → Bool) (cs : List Char) :
    (cs.dropWhile p).length ≤ cs.length :=
  (List.dropWhile_sublist p).length_le

def word (cs : List Char) : String := String.ofList (cs.takeWhile isWordChar)

def afterWord (cs : List Char) : Rest cs :=
  ⟨cs.dropWhile isWordChar, length_dropWhile_le _ _⟩

def startsField : List Char → Bool
  | '.' :: c :: _ => isWordStart c
  | _ => false

def fields (cs : List Char) : List String × Rest cs :=
  match cs with
  | '.' :: c :: rest =>
    if isWordStart c then
      let ⟨rest', h⟩ := afterWord rest
      let (path, ⟨rest'', h'⟩) := fields rest'
      (String.ofList (c :: rest.takeWhile isWordChar) :: path,
        ⟨rest'', by simp only [List.length_cons]; omega⟩)
    else ([], ⟨_, Nat.le_refl _⟩)
  | cs => ([], ⟨cs, Nat.le_refl _⟩)
termination_by cs.length
decreasing_by simp only [List.length_cons]; omega

def numberTail : (afterMark : Bool) → List Char → List Char
  | _, [] => []
  | afterMark, c :: cs =>
    if c.isAlphanum || c = '.' || c = '_' || (afterMark && (c = '+' || c = '-')) then
      c :: numberTail (c = 'e' || c = 'E' || c = 'p' || c = 'P') cs
    else []

def isNumber (cs : List Char) : Bool :=
  let digits := cs.dropWhile fun c => c = '+' || c = '-'
  (digits.head?.any fun c => c.isDigit || c = '.') && digits.any Char.isDigit

def number (c : Char) (cs : List Char) : Except Failure (TokenKind × Rest cs) :=
  let tail := numberTail false cs
  let spelling := String.ofList (c :: tail)
  if isNumber (c :: tail) then
    return (.number spelling, ⟨cs.drop tail.length, by simp⟩)
  else throw ⟨.badNumber spelling, c :: cs⟩

def hexValue? (c : Char) : Option Nat :=
  let n := c.toNat
  if 0x30 ≤ n && n ≤ 0x39 then some (n - 0x30)
  else if 0x41 ≤ n && n ≤ 0x46 then some (n - 0x41 + 10)
  else if 0x61 ≤ n && n ≤ 0x66 then some (n - 0x61 + 10)
  else none

def hexDigits? : List Char → Option Nat
  | [] => none
  | cs => cs.foldlM (fun n c => (hexValue? c).map (n * 16 + ·)) 0

def hexNumber? (width : Nat) (cs : List Char) : Option Nat :=
  let digits := cs.take width
  if digits.length < width then none
  else match digits with
  | '+' :: digits => hexDigits? digits
  | digits => hexDigits? digits

def simpleEscape? : Char → Option Char
  | 'n' => some '\n'
  | 't' => some '\t'
  | 'r' => some '\r'
  | 'a' => some '\x07'
  | 'b' => some '\x08'
  | 'f' => some '\x0c'
  | 'v' => some '\x0b'
  | '0' => some '\x00'
  | '\\' => some '\\'
  | '"' => some '"'
  | '\'' => some '\''
  | _ => none

def escapeWidth? : Char → Option Nat
  | 'x' => some 2
  | 'u' => some 4
  | 'U' => some 8
  | _ => none

def escape (cs : List Char) : Except Failure (Char × Rest cs) :=
  match cs with
  | [] => throw ⟨.unterminatedString, '\\' :: cs⟩
  | c :: rest =>
    match simpleEscape? c with
    | some d => return (d, ⟨rest, by simp⟩)
    | none =>
      match (escapeWidth? c).bind fun width => (hexNumber? width rest).map (width, ·) with
      | some (width, n) =>
        if n.isValidChar then return (Char.ofNat n, ⟨rest.drop width, by simp; omega⟩)
        else
          throw ⟨.invalidEscape (String.ofList ('\\' :: c :: rest.take width)), '\\' :: c :: rest⟩
      | none => throw ⟨.invalidEscape (String.ofList ['\\', c]), '\\' :: c :: rest⟩

def quoted (start cs : List Char) : Except Failure (List Char × Rest cs) :=
  match cs with
  | [] => throw ⟨.unterminatedString, start⟩
  | '"' :: rest => return ([], ⟨rest, by simp⟩)
  | '\n' :: _ => throw ⟨.unterminatedString, start⟩
  | '\\' :: rest => do
    let (c, ⟨rest', h⟩) ← escape rest
    let (text, ⟨rest'', h'⟩) ← quoted start rest'
    return (c :: text, ⟨rest'', by simp only [List.length_cons]; omega⟩)
  | c :: rest => do
    let (text, ⟨rest', h⟩) ← quoted start rest
    return (c :: text, ⟨rest', by simp only [List.length_cons]; omega⟩)
termination_by cs.length
decreasing_by all_goals (simp only [List.length_cons]; omega)

def rawQuote : Char := '\x60'

def raw (start cs : List Char) : Except Failure (List Char × Rest cs) :=
  match h : cs.dropWhile (· ≠ rawQuote) with
  | [] => throw ⟨.unterminatedString, start⟩
  | _ :: rest =>
    return (cs.takeWhile (· ≠ rawQuote), ⟨rest, by
      have := length_dropWhile_le (· ≠ rawQuote) cs
      rw [h] at this
      simp only [List.length_cons] at this
      omega⟩)

def isMarkerSpace (c : Char) : Bool :=
  c = ' ' || c = '\t' || c = '\n' || c = '\x0c' || c = '\r'

/-- What follows the closing delimiter at the front of `cs`, and whether it trims. -/
def closing? : List Char → Option (Bool × List Char)
  | '}' :: '}' :: rest => some (false, rest)
  | c :: '-' :: '}' :: '}' :: rest => if isMarkerSpace c then some (true, rest) else none
  | _ => none

theorem length_of_closing? {cs rest : List Char} {trims : Bool}
    (h : closing? cs = some (trims, rest)) : rest.length + 2 ≤ cs.length := by
  unfold closing? at h
  split at h
  · simp_all
  · split at h <;> simp_all
  · simp at h

def wordToken (start : List Char) (word : String) : Except Failure TokenKind :=
  if word = "true" then return .bool true
  else if word = "false" then return .bool false
  else if word = "nil" then throw ⟨.unsupported .nil, start⟩
  else match Keyword.ofWord? word with
  | some keyword => return .keyword keyword
  | none => return .identifier word

def lexeme (c : Char) (cs : List Char) : Except Failure (Option TokenKind × Rest cs) :=
  let stay : Rest cs := ⟨cs, Nat.le_refl _⟩
  if isBlank c then return (none, stay)
  else if c = '|' then return (some .bar, stay)
  else if c = '(' then return (some .leftParen, stay)
  else if c = ')' then return (some (.rightParen (startsField cs)), stay)
  else if c = ',' then return (some .comma, stay)
  else if c = ':' && cs.head? = some '=' then return (some .declare, ⟨cs.drop 1, by simp⟩)
  else if c = '"' then do
    let (text, rest) ← quoted (c :: cs) cs
    return (some (.str (String.ofList text)), rest)
  else if c = rawQuote then do
    let (text, rest) ← raw (c :: cs) cs
    return (some (.str (String.ofList text)), rest)
  else if c = '$' then
    let ⟨rest, h⟩ := afterWord cs
    let (path, ⟨rest', h'⟩) := fields rest
    return (some (.var (("$" ++ word cs) :: path)), ⟨rest', by omega⟩)
  else if c = '.' then
    if cs.head?.any isWordStart then
      let ⟨rest, h⟩ := afterWord cs
      let (path, ⟨rest', h'⟩) := fields rest
      return (some (.field (word cs :: path)), ⟨rest', by omega⟩)
    else if cs.head?.any Char.isDigit then do
      let (token, rest) ← number c cs
      return (some token, rest)
    else return (some .dot, stay)
  else if c = '-' || c = '+' || c.isDigit then do
    let (token, rest) ← number c cs
    return (some token, rest)
  else if isWordStart c then do
    let token ← wordToken (c :: cs) (String.ofList (c :: cs.takeWhile isWordChar))
    return (some token, afterWord cs)
  else throw ⟨.unexpectedChar c, c :: cs⟩

def actionTokens (opened cs : List Char) : Except Failure (List Token × Bool × Rest cs) :=
  match h : closing? cs with
  | some (trims, rest) =>
    return ([⟨.closing, cs⟩], trims, ⟨rest, by have := length_of_closing? h; omega⟩)
  | none =>
    match cs with
    | [] => throw ⟨.unclosedAction, opened⟩
    | c :: cs => do
      let (kind?, ⟨rest, h⟩) ← lexeme c cs
      let (tokens, trims, ⟨rest', h'⟩) ← actionTokens opened rest
      return ((kind?.map (⟨·, c :: cs⟩)).toList ++ tokens, trims,
        ⟨rest', by simp only [List.length_cons]; omega⟩)
termination_by cs.length
decreasing_by simp only [List.length_cons]; omega

def splitAtOpening : List Char → List Char × Option (List Char)
  | [] => ([], none)
  | '{' :: '{' :: rest => ([], some rest)
  | c :: cs =>
    let (text, rest) := splitAtOpening cs
    (c :: text, rest)

theorem length_of_splitAtOpening {cs text rest : List Char}
    (h : splitAtOpening cs = (text, some rest)) : rest.length + 2 ≤ cs.length := by
  fun_induction splitAtOpening cs generalizing text with
  | case1 => simp at h
  | case2 => simp_all
  | case3 c cs _ text' rest' heq ih =>
    obtain ⟨rfl, rfl⟩ := Prod.mk.injEq .. ▸ h
    have := ih heq
    simp only [List.length_cons]
    omega

def afterComment? : List Char → Option (List Char)
  | [] => none
  | '*' :: '/' :: rest => some rest
  | _ :: cs => afterComment? cs

theorem length_of_afterComment? {cs rest : List Char} (h : afterComment? cs = some rest) :
    rest.length + 2 ≤ cs.length := by
  fun_induction afterComment? cs with
  | case1 => simp at h
  | case2 => simp_all
  | case3 c cs _ ih =>
    have := ih h
    simp only [List.length_cons]
    omega

def trimStart (text : List Char) : List Char := text.dropWhile isBlank

def trimEnd (text : List Char) : List Char := (text.reverse.dropWhile isBlank).reverse

def opensTrimming : List Char → Bool
  | '-' :: c :: _ => isMarkerSpace c
  | _ => false

def textToken (text start : List Char) : List Token :=
  if text.isEmpty then [] else [⟨.text (String.ofList text), start⟩]

def tokensFrom (trim : Bool) (cs : List Char) : Except Failure (List Token) :=
  match h : splitAtOpening cs with
  | (text, none) => return textToken (if trim then trimStart text else text) cs
  | (text, some inner) => do
    let opened := '{' :: '{' :: inner
    let text := if trim then trimStart text else text
    let text := if opensTrimming inner then trimEnd text else text
    let inside := if opensTrimming inner then inner.drop 2 else inner
    have hin : inside.length + 2 ≤ cs.length := by
      have := length_of_splitAtOpening h
      simp only [inside]
      split <;> simp <;> omega
    match hb : inside with
    | '/' :: '*' :: body =>
      match ha : afterComment? body with
      | none => throw ⟨.unclosedComment, opened⟩
      | some rest =>
        match hc : closing? rest with
        | none => throw ⟨.unclosedComment, opened⟩
        | some (trims, rest') =>
          let tokens ← tokensFrom trims rest'
          return textToken text cs ++ tokens
    | _ =>
      let (tokens, trims, ⟨rest, hr⟩) ← actionTokens opened inside
      let tokens' ← tokensFrom trims rest
      return textToken text cs ++ ⟨.opening, opened⟩ :: tokens ++ tokens'
termination_by cs.length
decreasing_by
  · have := length_of_afterComment? ha
    have := length_of_closing? hc
    rw [hb] at hin
    simp only [List.length_cons] at hin
    omega
  · omega

def tokens (source : List Char) : Except Failure (List Token) := tokensFrom false source

end FlatTemplate.Lexer

import FlatTemplate.Template
import FlatTemplate.Token.Lexer

/-!
Reading templates from source. A reader takes tokens from the front and gives back what it read and
the tokens behind it. Where the tokens end, so does the source.
-/

namespace FlatTemplate

structure Definition where
  name : String
  body : Block Untagged

structure Source where
  main : Block Untagged
  definitions : List Definition

namespace Parser

abbrev Rest (ts : List Token) := { rest : List Token // rest.length ≤ ts.length }

abbrev Fewer (ts : List Token) := { rest : List Token // rest.length < ts.length }

def place : List Token → List Char
  | [] => []
  | token :: _ => token.start

def unexpected (ts : List Token) (context : Context) : Failure :=
  ⟨.unexpected (ts.head?.map Token.kind) context, place ts⟩

def close (context : Context) (ts : List Token) : Except Failure (Fewer ts) :=
  match ts with
  | ⟨.closing, _⟩ :: rest => return ⟨rest, by simp⟩
  | ts => throw (unexpected ts context)

inductive DeclLimit where
  | none
  | one
  | two
  deriving DecidableEq, Repr

/-- Reads the declared names, if the pipeline starts with any. -/
def declarations (limit : DeclLimit) (ts : List Token) :
    Except Failure (List String × Rest ts) :=
  match ts with
  | ⟨.var [name], start⟩ :: ⟨.declare, _⟩ :: rest =>
    match limit with
    | .none => throw ⟨.unsupported .invocationDecls, start⟩
    | _ => return ([name], ⟨rest, by simp only [List.length_cons]; omega⟩)
  | ⟨.var [first], start⟩ :: ⟨.comma, _⟩ :: rest =>
    match limit, rest with
    | .none, _ => throw ⟨.unsupported .invocationDecls, start⟩
    | .one, rest => throw ⟨.tooManyDecls .pipeline, place rest⟩
    | .two, ⟨.var [_], _⟩ :: ⟨.comma, start⟩ :: _ => throw ⟨.tooManyDecls .range, start⟩
    | .two, ⟨.var [second], _⟩ :: ⟨.declare, _⟩ :: rest =>
      return ([first, second], ⟨rest, by simp only [List.length_cons]; omega⟩)
    | .two, ⟨.var [_], _⟩ :: rest => throw (unexpected rest .declaration)
    | .two, rest => throw (unexpected rest .declaration)
  | ts => return ([], ⟨ts, Nat.le_refl _⟩)

def atom? : TokenKind → Option Atom
  | .dot => some .dot
  | .field path => some (.field path)
  | .var path => some (.var path)
  | .identifier name => some (.identifier name)
  | .str s => some (.str s)
  | .number spelling => some (.number spelling)
  | .bool value => some (.bool value)
  | _ => none

def endsCommand : TokenKind → Bool
  | .closing | .rightParen _ | .bar => true
  | _ => false

mutual

def pipeline (limit : DeclLimit) (ts : List Token) :
    Except Failure (Pipe Untagged × Rest ts) := do
  let (decls, ⟨rest₁, h₁⟩) ← declarations limit ts
  let (first, ⟨rest₂, h₂⟩) ← command rest₁
  let (more, ⟨rest₃, h₃⟩) ← stages rest₂
  return (.mk () decls (first :: more), ⟨rest₃, by omega⟩)
termination_by 4 * ts.length + 3

def stages (ts : List Token) : Except Failure (List (Command Untagged) × Rest ts) :=
  match ts with
  | ⟨.bar, _⟩ :: rest => do
    let (first, ⟨rest₁, h₁⟩) ← command rest
    let (more, ⟨rest₂, h₂⟩) ← stages rest₁
    return (first :: more, ⟨rest₂, by simp only [List.length_cons]; omega⟩)
  | ts => return ([], ⟨ts, Nat.le_refl _⟩)
termination_by 4 * ts.length + 2
decreasing_by all_goals (simp only [List.length_cons]; omega)

def command (ts : List Token) : Except Failure (Command Untagged × Rest ts) := do
  let (exprs, rest) ← operands ts
  match exprs with
  | [] => throw ⟨.missingCommand, place ts⟩
  | head :: args => return (.mk () head args, rest)
termination_by 4 * ts.length + 2

def operands (ts : List Token) : Except Failure (List (Expr Untagged) × Rest ts) :=
  match ts with
  | [] => return ([], ⟨[], Nat.le_refl _⟩)
  | token :: rest =>
    if endsCommand token.kind then return ([], ⟨token :: rest, Nat.le_refl _⟩)
    else do
      let (first, ⟨rest₁, h₁⟩) ← operand token rest
      let (more, ⟨rest₂, h₂⟩) ← operands rest₁
      return (first :: more, ⟨rest₂, by simp only [List.length_cons]; omega⟩)
termination_by 4 * ts.length + 1
decreasing_by all_goals (simp only [List.length_cons]; omega)

def operand (token : Token) (ts : List Token) : Except Failure (Expr Untagged × Rest ts) :=
  match atom? token.kind with
  | some a => return (.atom () a, ⟨ts, Nat.le_refl _⟩)
  | none =>
    match token.kind with
    | .leftParen => do
      let (inner, ⟨rest, h⟩) ← pipeline .one ts
      match rest, h with
      | ⟨.rightParen fieldFollows, _⟩ :: rest, h =>
        if fieldFollows then throw ⟨.unsupported .fieldOfParens, place rest⟩
        else return (.paren () inner, ⟨rest, by simp only [List.length_cons] at h; omega⟩)
      | rest, _ => throw (unexpected rest .parentheses)
    | _ => throw (unexpected (token :: ts) .command)
termination_by 4 * ts.length + 4

end

inductive Stop where
  | finish
  | otherwise (start : List Char)
  | exhausted
  deriving DecidableEq, Repr

def invocation (ts : List Token) : Except Failure (Stmt Untagged × Rest ts) :=
  match ts with
  | ⟨.str name, _⟩ :: ⟨.closing, _⟩ :: rest =>
    return (.invoke () name none, ⟨rest, by simp only [List.length_cons]; omega⟩)
  | ⟨.str name, _⟩ :: rest => do
    let (pipe, ⟨rest₁, h₁⟩) ← pipeline .none rest
    let ⟨rest₂, h₂⟩ ← close .invocation rest₁
    return (.invoke () name (some pipe), ⟨rest₂, by simp only [List.length_cons]; omega⟩)
  | ts => throw (unexpected ts .invocation)

def declLimit : BranchKind → DeclLimit
  | .range => .two
  | _ => .one

mutual

def statement (opened : List Char) (ts : List Token) :
    Except Failure (Stmt Untagged × Rest ts) :=
  match ts with
  | ⟨.keyword (.branch kind), _⟩ :: rest => do
    let (s, ⟨rest', h⟩) ← branch kind opened rest
    return (s, ⟨rest', by simp only [List.length_cons]; omega⟩)
  | ⟨.keyword .template, _⟩ :: rest => do
    let (s, ⟨rest', h⟩) ← invocation rest
    return (s, ⟨rest', by simp only [List.length_cons]; omega⟩)
  | ts => do
    let (pipe, ⟨rest₁, h₁⟩) ← pipeline .one ts
    let ⟨rest₂, h₂⟩ ← close .action rest₁
    return (.action () pipe, ⟨rest₂, by omega⟩)
termination_by ts.length
decreasing_by simp only [List.length_cons]; omega

def branch (kind : BranchKind) (opened : List Char) (ts : List Token) :
    Except Failure (Stmt Untagged × Rest ts) := do
  let (pipe, ⟨rest₁, h₁⟩) ← pipeline (declLimit kind) ts
  let ⟨rest₂, h₂⟩ ← close (.branch kind) rest₁
  let (body, stop, ⟨rest₃, h₃⟩) ← block rest₂
  match stop with
  | .finish => return (.branch () kind pipe body [], ⟨rest₃, by omega⟩)
  | .exhausted => throw ⟨.missingEnd (.branch kind), opened⟩
  | .otherwise start =>
    match rest₃, h₃ with
    | ⟨.keyword (.branch kind'), s⟩ :: rest₄, h₃ =>
      if kind' = kind ∧ kind ≠ .range then
        let (chained, ⟨rest₅, h₅⟩) ← branch kind start rest₄
        return (.branch () kind pipe body [chained],
          ⟨rest₅, by simp only [List.length_cons] at h₃; omega⟩)
      else throw (unexpected (⟨.keyword (.branch kind'), s⟩ :: rest₄) .otherwise)
    | rest₃, h₃ =>
      let ⟨rest₄, h₄⟩ ← close .otherwise rest₃
      let (elseBody, stop, ⟨rest₅, h₅⟩) ← block rest₄
      match stop with
      | .finish => return (.branch () kind pipe body elseBody, ⟨rest₅, by omega⟩)
      | .otherwise start => throw ⟨.unexpectedElse, start⟩
      | .exhausted => throw ⟨.missingEnd (.branch kind), opened⟩
termination_by ts.length
decreasing_by
  · omega
  · simp only [List.length_cons] at h₃; omega
  · omega

def block (ts : List Token) : Except Failure (Block Untagged × Stop × Rest ts) :=
  match ts with
  | [] => return ([], .exhausted, ⟨[], Nat.le_refl _⟩)
  | ⟨.text text, _⟩ :: rest => do
    let (more, stop, ⟨rest', h⟩) ← block rest
    return (.text () text :: more, stop, ⟨rest', by simp only [List.length_cons]; omega⟩)
  | ⟨.opening, opened⟩ :: rest =>
    match rest with
    | ⟨.keyword .finish, _⟩ :: rest => do
      let ⟨rest', h⟩ ← close .finish rest
      return ([], .finish, ⟨rest', by simp only [List.length_cons]; omega⟩)
    | ⟨.keyword .otherwise, _⟩ :: rest =>
      return ([], .otherwise opened, ⟨rest, by simp only [List.length_cons]; omega⟩)
    | ⟨.keyword .define, _⟩ :: _ => throw ⟨.nestedDefine, opened⟩
    | rest => do
      let (first, ⟨rest₁, h₁⟩) ← statement opened rest
      let (more, stop, ⟨rest₂, h₂⟩) ← block rest₁
      return (first :: more, stop, ⟨rest₂, by simp only [List.length_cons]; omega⟩)
  | ts => throw (unexpected ts .template)
termination_by ts.length
decreasing_by all_goals (simp only [List.length_cons]; omega)

end

def definition (opened : List Char) (ts : List Token) :
    Except Failure (Definition × Rest ts) :=
  match ts with
  | ⟨.str name, _⟩ :: rest => do
    let ⟨rest₁, h₁⟩ ← close .definition rest
    let (body, stop, ⟨rest₂, h₂⟩) ← block rest₁
    match stop with
    | .finish => return (⟨name, body⟩, ⟨rest₂, by simp only [List.length_cons]; omega⟩)
    | .otherwise start => throw ⟨.unexpectedElse, start⟩
    | .exhausted => throw ⟨.missingEnd .define, opened⟩
  | ts => throw (unexpected ts .definition)

def source (ts : List Token) : Except Failure Source :=
  match ts with
  | [] => return ⟨[], []⟩
  | ⟨.text text, _⟩ :: rest => do
    let ⟨main, definitions⟩ ← source rest
    return ⟨.text () text :: main, definitions⟩
  | ⟨.opening, opened⟩ :: rest =>
    match rest with
    | ⟨.keyword .finish, _⟩ :: rest => do
      let _ ← close .finish rest
      throw ⟨.unexpectedEnd, opened⟩
    | ⟨.keyword .otherwise, _⟩ :: _ => throw ⟨.unexpectedElse, opened⟩
    | ⟨.keyword .define, _⟩ :: rest => do
      let (first, ⟨rest', _⟩) ← definition opened rest
      let ⟨main, definitions⟩ ← source rest'
      return ⟨main, first :: definitions⟩
    | rest => do
      let (first, ⟨rest', _⟩) ← statement opened rest
      let ⟨main, definitions⟩ ← source rest'
      return ⟨first :: main, definitions⟩
  | ts => throw (unexpected ts .template)
termination_by ts.length
decreasing_by all_goals (simp only [List.length_cons]; omega)

end Parser

def Source.parse (source : String) : Except ParseError Source :=
  let cs := source.toList
  match Lexer.tokens cs >>= Parser.source with
  | .ok s => .ok s
  | .error failure => .error (.ofFailure cs failure)

end FlatTemplate

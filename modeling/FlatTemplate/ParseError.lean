import FlatTemplate.Token

namespace FlatTemplate

inductive Context where
  | template
  | finish
  | action
  | branch (kind : BranchKind)
  | otherwise
  | invocation
  | definition
  | declaration
  | parentheses
  | command
  deriving DecidableEq, Repr

def Context.text : Context → String
  | .template => "template"
  | .finish => "end"
  | .action => "action"
  | .branch kind => kind.keyword
  | .otherwise => "else"
  | .invocation => "template invocation"
  | .definition => "define"
  | .declaration => "declaration"
  | .parentheses => "parenthesized pipeline"
  | .command => "command"

inductive Declarer where
  | pipeline
  | range
  deriving DecidableEq, Repr

def Declarer.text : Declarer → String
  | .pipeline => "this pipeline"
  | .range => "range"

inductive Opener where
  | branch (kind : BranchKind)
  | define
  deriving DecidableEq, Repr

def Opener.text : Opener → String
  | .branch kind => kind.keyword
  | .define => "define"

inductive Feature where
  | nil
  | fieldOfParens
  | invocationDecls
  deriving DecidableEq, Repr

def Feature.text : Feature → String
  | .nil => "nil"
  | .fieldOfParens => "field access on a parenthesized pipeline"
  | .invocationDecls => "declaration in a template invocation"

inductive ParseCause where
  | unclosedAction
  | unclosedComment
  | unexpectedChar (c : Char)
  | unterminatedString
  | invalidEscape (text : String)
  | badNumber (text : String)
  | unexpected (found : Option TokenKind) (context : Context)
  | missingCommand
  | tooManyDecls (declarer : Declarer)
  | unexpectedEnd
  | unexpectedElse
  | missingEnd (opener : Opener)
  | nestedDefine
  | unsupported (feature : Feature)
  deriving DecidableEq, Repr

def ParseCause.text : ParseCause → String
  | .unclosedAction => "unclosed action"
  | .unclosedComment => "unclosed comment"
  | .unexpectedChar c => "unexpected " ++ Text.shownSingle c ++ " in action"
  | .unterminatedString => "unterminated string literal"
  | .invalidEscape text => "invalid escape sequence " ++ Text.shown text ++ " in string literal"
  | .badNumber text => "malformed number " ++ Text.shown text
  | .unexpected found context =>
    "unexpected " ++ (found.elim "end of input" TokenKind.description) ++ " in " ++ context.text
  | .missingCommand => "missing command in pipeline"
  | .tooManyDecls declarer => "too many declarations in " ++ declarer.text
  | .unexpectedEnd => "unexpected \x7b\x7bend\x7d\x7d"
  | .unexpectedElse => "unexpected \x7b\x7belse\x7d\x7d"
  | .missingEnd opener => "unexpected EOF: missing \x7b\x7bend\x7d\x7d for " ++ opener.text
  | .nestedDefine => "\x7b\x7bdefine\x7d\x7d is only allowed at the top level"
  | .unsupported feature => feature.text ++ " is not supported"

structure Failure where
  cause : ParseCause
  start : List Char
  deriving DecidableEq, Repr

structure ParseError where
  cause : ParseCause
  offset : Nat
  line : Nat
  column : Nat
  deriving DecidableEq, Repr

def byteLength : List Char → Nat
  | [] => 0
  | c :: cs => c.utf8Size + byteLength cs

namespace ParseError

def ofFailure (source : List Char) (failure : Failure) : ParseError :=
  let before := source.take (source.length - failure.start.length)
  { cause := failure.cause
    offset := byteLength before
    line := before.count '\n' + 1
    column := (before.reverse.takeWhile (· ≠ '\n')).length + 1 }

def message (e : ParseError) : String :=
  toString e.line ++ ":" ++ toString e.column ++ ": " ++ e.cause.text

end ParseError

end FlatTemplate

import FlatTemplate.Node
import FlatTemplate.Text.Quoted

namespace FlatTemplate

inductive Keyword where
  | branch (kind : BranchKind)
  | otherwise
  | finish
  | template
  | define
  deriving DecidableEq, Repr

namespace Keyword

def text : Keyword → String
  | .branch kind => kind.keyword
  | .otherwise => "else"
  | .finish => "end"
  | .template => "template"
  | .define => "define"

def ofWord? (word : String) : Option Keyword :=
  if word = "if" then some (.branch .cond)
  else if word = "else" then some .otherwise
  else if word = "end" then some .finish
  else if word = "range" then some (.branch .range)
  else if word = "with" then some (.branch .within)
  else if word = "template" then some .template
  else if word = "define" then some .define
  else none

end Keyword

inductive TokenKind where
  | text (text : String)
  | opening
  | closing
  | bar
  | leftParen
  | rightParen (fieldFollows : Bool)
  | comma
  | declare
  | dot
  | field (path : List String)
  | var (path : List String)
  | identifier (name : String)
  | keyword (word : Keyword)
  | str (text : String)
  | number (spelling : String)
  | bool (value : Bool)
  deriving DecidableEq, Repr

def TokenKind.description : TokenKind → String
  | .text _ => "text"
  | .opening => "\"\x7b\x7b\""
  | .closing => "\"\x7d\x7d\""
  | .bar => "\"|\""
  | .leftParen => "\"(\""
  | .rightParen _ => "\")\""
  | .comma => "\",\""
  | .declare => "\":=\""
  | .dot => "\".\""
  | .field path => "field ." ++ ".".intercalate path
  | .var path => "variable " ++ ".".intercalate path
  | .identifier name => "identifier " ++ Text.shown name
  | .keyword word => "keyword " ++ Text.shown word.text
  | .str s => "string " ++ Text.shown s
  | .number spelling => "number " ++ spelling
  | .bool true => "boolean true"
  | .bool false => "boolean false"

structure Token where
  kind : TokenKind
  start : List Char
  deriving DecidableEq, Repr

end FlatTemplate

import FlatTemplate.Template
import FlatTemplate.Text.Quoted

namespace FlatTemplate

variable {ι : NodeKind → Type}

def printFields (path : List String) : List Char :=
  path.flatMap fun segment => '.' :: segment.toList

def printPath : List String → List Char
  | [] => []
  | first :: path => first.toList ++ printFields path

def Atom.print : Atom → List Char
  | .var path => printPath path
  | .field path => printFields path
  | .dot => ['.']
  | .identifier name => name.toList
  | .str text => Text.literal text
  | .number spelling => spelling.toList
  | .bool true => "true".toList
  | .bool false => "false".toList

def printNames : List String → List Char
  | [] => []
  | [name] => name.toList
  | name :: names => name.toList ++ ',' :: ' ' :: printNames names

def printDecls : List String → List Char
  | [] => []
  | names => printNames names ++ [' ', ':', '=', ' ']

mutual

def Expr.print : Expr ι → List Char
  | .atom _ a => a.print
  | .paren _ inner => '(' :: (inner.print ++ [')'])

def printArgs : List (Expr ι) → List Char
  | [] => []
  | e :: es => ' ' :: (e.print ++ printArgs es)

def Command.print : Command ι → List Char
  | .mk _ head args => head.print ++ printArgs args

def printStages : List (Command ι) → List Char
  | [] => []
  | c :: cs => ' ' :: '|' :: ' ' :: (c.print ++ printStages cs)

def printCommands : List (Command ι) → List Char
  | [] => []
  | c :: cs => c.print ++ printStages cs

def Pipe.print : Pipe ι → List Char
  | .mk _ decls commands => printDecls decls ++ printCommands commands

end

def printAction (inside : List Char) : List Char :=
  '{' :: '{' :: (inside ++ ['}', '}'])

mutual

def Stmt.print : Stmt ι → List Char
  | .text _ s => s.toList
  | .action _ pipe => printAction pipe.print
  | .branch _ kind pipe body elseBody =>
    printAction (kind.keyword.toList ++ ' ' :: pipe.print) ++ printBlock body ++
      printElse elseBody ++ printAction "end".toList
  | .invoke _ name none => printAction ("template ".toList ++ Text.literal name)
  | .invoke _ name (some pipe) =>
    printAction ("template ".toList ++ Text.literal name ++ ' ' :: pipe.print)

def printBlock : Block ι → List Char
  | [] => []
  | s :: rest => s.print ++ printBlock rest

def printElse : Block ι → List Char
  | [] => []
  | s :: rest => printAction "else".toList ++ s.print ++ printBlock rest

end

end FlatTemplate

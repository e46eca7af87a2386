import FlatTemplate.Proofs.Template.Entries

/-!
What a template renders to, given what its parts mean.
-/

namespace FlatTemplate

/-- The meaning of the parts of a template: values, and what is done with them. -/
structure Interpretation (V : Type*) where
  str : String → V
  number : String → V
  bool : Bool → V
  call : String → List V → V
  identifier : String → V
  path : V → List String → V
  method : V → List String → List V → V
  apply : V → List V → V
  truth : V → Bool
  entries : V → List (V × V)
  render : V → String
  template : String → Option V → String
  unbound : V

structure Frame (V : Type*) where
  dot : V
  vars : String → V

namespace Frame

variable {V : Type*}

def bind (s : Frame V) (pairs : List (String × V)) : Frame V :=
  { s with vars := pairs.foldl (fun vars pair => Function.update vars pair.1 pair.2) s.vars }

def declare (s : Frame V) (names : List String) (v : V) : Frame V :=
  s.bind (names.map fun name => (name, v))

end Frame

def turn {V : Type*} (names : List String) (key value : V) : List (String × V) :=
  match names with
  | [name] => [(name, value)]
  | [first, second] => [(first, key), (second, value)]
  | _ => []

namespace Interpretation

variable {ι : NodeKind → Type} {V : Type*} (I : Interpretation V)

def start (root : V) : Frame V := ⟨root, Function.update (fun _ => I.unbound) rootVariable root⟩

def atom (s : Frame V) : Atom → V
  | .var [] => I.unbound
  | .var [name] => s.vars name
  | .var (name :: path) => I.path (s.vars name) path
  | .field path => I.path s.dot path
  | .dot => s.dot
  | .identifier name => I.identifier name
  | .str text => I.str text
  | .number spelling => I.number spelling
  | .bool value => I.bool value

def applied (v : V) : List V → V
  | [] => v
  | args => I.apply v args

def command (s : Frame V) : Atom → List V → V
  | .identifier name, args => I.call name args
  | a, [] => I.atom s a
  | .var (name :: segment :: path), args => I.method (s.vars name) (segment :: path) args
  | .field path, args => I.method s.dot path args
  | .dot, args => I.method s.dot [] args
  | a, args => I.apply (I.atom s a) args

end Interpretation

section Values

variable {ι : NodeKind → Type} {V : Type*} (I : Interpretation V) (s : Frame V)

mutual

def Expr.value : Expr ι → V
  | .atom _ a => I.atom s a
  | .paren _ inner => inner.value

def argValues : List (Expr ι) → List V
  | [] => []
  | e :: es => e.value :: argValues es

/-- The value of a head in front of arguments. -/
def Expr.applied (args : List V) : Expr ι → V
  | .atom _ a => I.command s a args
  | .paren _ inner => I.applied inner.value args

def Command.value (piped : Option V) : Command ι → V
  | .mk _ head args => head.applied (argValues args ++ piped.toList)

def commandsValue (piped : Option V) : List (Command ι) → Option V
  | [] => piped
  | c :: cs => commandsValue (some (c.value piped)) cs

def Pipe.value : Pipe ι → V
  | .mk _ _ commands => (commandsValue none commands).getD I.unbound

end

end Values

namespace Stmt

variable {ι : NodeKind → Type} {V : Type*} (I : Interpretation V)

def after (s : Frame V) : Stmt ι → Frame V
  | .action _ p => s.declare p.decls (p.value I s)
  | _ => s

end Stmt

section Texts

variable {ι : NodeKind → Type} {V : Type*} (I : Interpretation V)

mutual

def Stmt.output (s : Frame V) : Stmt ι → String
  | .text _ text => text
  | .action _ p => if p.decls.isEmpty then I.render (p.value I s) else ""
  | .branch _ .cond p body elseBody =>
    let v := p.value I s
    if I.truth v then blockOutput (s.declare p.decls v) body
    else blockOutput (s.declare p.decls v) elseBody
  | .branch _ .within p body elseBody =>
    let v := p.value I s
    if I.truth v then blockOutput { s.declare p.decls v with dot := v } body
    else blockOutput (s.declare p.decls v) elseBody
  | .branch _ .range p body elseBody =>
    let v := p.value I s
    if (I.entries v).isEmpty then blockOutput (s.declare p.decls v) elseBody
    else String.join ((I.entries v).map fun (key, value) =>
      blockOutput { s.bind (turn p.decls key value) with dot := value } body)
  | .invoke _ name none => I.template name none
  | .invoke _ name (some p) => I.template name (some (p.value I s))

def blockOutput (s : Frame V) : Block ι → String
  | [] => ""
  | stmt :: rest => stmt.output s ++ blockOutput (stmt.after I s) rest

end

def renderBlock (root : V) (b : Block ι) : String := blockOutput I (I.start root) b

end Texts

end FlatTemplate

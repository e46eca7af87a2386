namespace FlatTemplate

inductive Datum where
  | null
  | bool (value : Bool)
  | nat (value : Nat)
  | str (value : String)
  | list (items : List Datum)
  | record (fields : List (String × Datum))
  deriving Inhabited

namespace Datum

def field? (name : String) : Datum → Option Datum
  | .record fields => fields.lookup name
  | _ => none

def nat? : Datum → Option Nat
  | .nat n => some n
  | _ => none

def bool? : Datum → Option Bool
  | .bool b => some b
  | _ => none

def str? : Datum → Option String
  | .str s => some s
  | _ => none

def list? : Datum → Option (List Datum)
  | .list items => some items
  | _ => none

def listOf? {α : Type} (read : Datum → Option α) (d : Datum) : Option (List α) := do
  (← d.list?).mapM read

def fieldAs? {α : Type} (read : Datum → Option α) (name : String) (d : Datum) : Option α := do
  read (← d.field? name)

def tagged? : Datum → Option (String × Datum)
  | .record [entry] => some entry
  | _ => none

def tag (name : String) (d : Datum) : Datum := .record [(name, d)]

def strings (names : List String) : Datum := .list (names.map .str)

def strings? : Datum → Option (List String) := listOf? str?

end Datum

end FlatTemplate

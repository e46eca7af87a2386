import FlatTemplate.Node

namespace FlatTemplate

def temporary (stem : String) (k : Nat) : String := "$" ++ stem ++ toString k

/-- The temporaries of a session: the first `taken` of them are in use. -/
structure Supply where
  stem : String
  taken : Nat := 0
  deriving DecidableEq, Repr

namespace Supply

def next (s : Supply) : String := temporary s.stem s.taken

def rest (s : Supply) : Supply := { s with taken := s.taken + 1 }

end Supply

def isTemporary (stem name : String) : Bool :=
  match name.toList with
  | '$' :: rest =>
    match stem.toList.isPrefixOf? rest with
    | some digits => !digits.isEmpty && digits.all Char.isDigit
    | none => false
  | _ => false

def respell (tag name : String) : String :=
  if name = rootVariable then name
  else
    match name.toList with
    | '$' :: bare => "$" ++ tag ++ String.ofList bare
    | _ => "$" ++ tag ++ name

end FlatTemplate

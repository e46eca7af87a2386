import FlatTemplate.Text.Quoted
import FlatTemplate.Text.Word

namespace FlatTemplate

/-- A temporary is a dollar sign, `tempStem` and a number. A variable of the template is respelled
with `userTag` behind its dollar sign. A session gives up after `maxPasses` passes, if set. -/
structure Config where
  tempStem : String := "var"
  userTag : String := "tpl_"
  maxPasses : Option Nat := none
  deriving DecidableEq, Repr

inductive CanonError where
  | emptyStem
  | emptyTag
  | invalidFragment (fragment : String)
  | overlap (stem tag : String)
  | passLimit (template : String) (limit : Nat)
  deriving DecidableEq, Repr

def CanonError.message : CanonError → String
  | .emptyStem => "temporary prefix must not be empty"
  | .emptyTag => "hygiene tag must not be empty"
  | .invalidFragment fragment =>
    Text.shown fragment ++ " contains characters not allowed in a variable name"
  | .overlap stem tag =>
    "temporary prefix " ++ Text.shown stem ++ " and hygiene tag " ++ Text.shown tag ++
      " overlap, so renamed bindings could collide with temporaries"
  | .passLimit template limit =>
    "template " ++ Text.shown template ++ " did not reach canonical form within " ++
      toString limit ++ " passes"

namespace Config

def isFragment (s : String) : Bool := s.toList.all Text.isWordChar

def validate (c : Config) : Except CanonError Unit :=
  if c.tempStem.isEmpty then throw .emptyStem
  else if c.userTag.isEmpty then throw .emptyTag
  else if !isFragment c.tempStem then throw (.invalidFragment c.tempStem)
  else if !isFragment c.userTag then throw (.invalidFragment c.userTag)
  else if c.userTag.toList.isPrefixOf c.tempStem.toList ||
      c.tempStem.toList.isPrefixOf c.userTag.toList then
    throw (.overlap c.tempStem c.userTag)
  else return ()

end Config

end FlatTemplate

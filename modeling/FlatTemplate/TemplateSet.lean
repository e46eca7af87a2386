import FlatTemplate.Template.Parser
import FlatTemplate.Tree.Build

namespace FlatTemplate

structure TemplateSet where
  main : Tree
  defined : List Tree := []
  deriving DecidableEq

def defineIn (t : Tree) : List Tree → List Tree
  | [] => [t]
  | u :: us => if u.name = t.name then t :: us else u :: defineIn t us

namespace TemplateSet

/-- Adds a definition; it takes the place of an earlier one of its name. -/
def define (s : TemplateSet) (t : Tree) : TemplateSet :=
  { s with defined := defineIn t s.defined }

def lookup? (s : TemplateSet) (name : String) : Option Tree :=
  s.defined.find? fun t => t.name = name

def trees (s : TemplateSet) : List Tree := s.main :: s.defined

def size (s : TemplateSet) : Nat := s.trees.length

def ofSource (name : String) (source : Source) : TemplateSet :=
  source.definitions.foldl (fun s d => s.define (.ofBlock d.name d.body))
    { main := .ofBlock name source.main }

def parse (name : String) (source : String) : Except ParseError TemplateSet := do
  return ofSource name (← Source.parse source)

end TemplateSet

def Tree.parse (source : String) : Except ParseError Tree := do
  return (← TemplateSet.parse "" source).main

end FlatTemplate

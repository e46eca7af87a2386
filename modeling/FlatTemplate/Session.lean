import FlatTemplate.Config
import FlatTemplate.Hygiene
import FlatTemplate.Rewrite.Apply
import FlatTemplate.Rewrite.Next
import FlatTemplate.Template.Size
import FlatTemplate.TemplateSet

/-!
Bringing templates into canonical form. A session respells the variables once. Then each pass looks
for the first rewrite and makes it, until a pass finds none.
-/

namespace FlatTemplate

structure Stats where
  passes : Nat := 0
  rewrites : Nat := 0
  temporaries : Nat := 0
  renamed : Nat := 0
  byRule : List (Rule × Nat) := []
  deriving DecidableEq, Repr

def tally (rule : Rule) : List (Rule × Nat) → List (Rule × Nat)
  | [] => [(rule, 1)]
  | (r, n) :: counts => if r = rule then (r, n + 1) :: counts else (r, n) :: tally rule counts

structure Session where
  tree : Tree
  names : Supply
  stats : Stats := {}
  deriving DecidableEq

namespace Session

def start (config : Config) (t : Tree) : Except Fault Session := do
  let (tree, renamed) ← t.respellVariables config.userTag
  return { tree, names := { stem := config.tempStem }, stats := { renamed } }

def rewrite (s : Session) (plan : Plan) : Except Fault Session := do
  let (tree, names) ← plan.apply s.names s.tree
  let stats := { s.stats with
    rewrites := s.stats.rewrites + 1
    byRule := tally plan.rule s.stats.byRule }
  return { tree, names, stats }

def pass (s : Session) : Except Fault (Session × Bool) := do
  let s := { s with stats := { s.stats with passes := s.stats.passes + 1 } }
  match ← s.tree.plan? with
  | none => return (s, false)
  | some plan => return (← s.rewrite plan, true)

def run : (limit : Nat) → Session → Except Fault (Session × Bool)
  | 0, s => return (s, false)
  | limit + 1, s => do
    let (s, rewrote) ← s.pass
    if rewrote then run limit s else return (s, true)

/-- Far more passes than it takes until one finds nothing. -/
def passBound (s : Session) : Except Fault Nat := do
  let size := blockSize (← s.tree.read) + 1
  return 3 * size * size

def complete (limit : Option Nat) (s : Session) : Except Fault (Session × Bool) := do
  match limit with
  | some limit => s.run (max limit 1)
  | none =>
    let (s, finished) ← s.run (← s.passBound)
    if finished then return (s, true) else throw .endless

def summary (s : Session) : Stats := { s.stats with temporaries := s.names.taken }

end Session

structure Outcome where
  tree : Tree
  result : Except CanonError Stats

/-- Brings a template into canonical form. Where `config` is refused the template stays as it is;
where the passes do not suffice it holds the rewrites made so far. -/
def Tree.canonicalize (config : Config) (t : Tree) : Except Fault Outcome := do
  match config.validate with
  | .error e => return ⟨t, .error e⟩
  | .ok _ =>
    let (s, finished) ← (← Session.start config t).complete config.maxPasses
    if finished then return ⟨s.tree, .ok s.summary⟩
    else return ⟨s.tree, .error (.passLimit t.name (config.maxPasses.getD 0))⟩

def TemplateSet.canonicalize (config : Config) (s : TemplateSet) :
    Except Fault (TemplateSet × Except CanonError (List Stats)) := do
  let main ← s.main.canonicalize config
  let defined ← s.defined.mapM (·.canonicalize config)
  return ({ main := main.tree, defined := defined.map Outcome.tree },
    (main :: defined).mapM Outcome.result)

end FlatTemplate

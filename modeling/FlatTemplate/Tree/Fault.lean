import FlatTemplate.Text.Quoted
import FlatTemplate.Tree.Node

namespace FlatTemplate

inductive Fault where
  | dangling
  | missingCommand
  | missingOperand
  | namelessVariable
  | endless
  | ownsNoBlock (owner : StmtId) (node : StmtNode)
  | notABlock (block : BlockRef) (owner : StmtId) (node : StmtNode)
  | hostVanished (dump template : String)
  | splitNonAction (dump : String)
  | splitVanished (dump : String)
  deriving DecidableEq, Repr

def Fault.message? : Fault → Option String
  | .dangling | .missingCommand | .missingOperand | .namelessVariable | .endless => none
  | .ownsNoBlock owner node =>
    some (owner.text ++ " owns no block: it is a " ++ node.kindName ++ " statement")
  | .notABlock block owner node =>
    some (block.text ++ " names a block of " ++ owner.text ++ ", which is a " ++ node.kindName ++
      " statement")
  | .hostVanished dump template =>
    some ("hoist target vanished: " ++ dump ++ " is not reachable from the root of " ++
      Text.shown template)
  | .splitNonAction dump => some ("print split planned on a non-action: " ++ dump)
  | .splitVanished dump => some ("print split lost its action: " ++ dump ++ " is not reachable")

end FlatTemplate

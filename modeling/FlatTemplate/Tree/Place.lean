import FlatTemplate.Tree

namespace FlatTemplate.Tree

def locateAmong (within : StmtId → Except Fault (Option Slot)) (target : StmtId)
    (block : BlockRef) (index : Nat) : List StmtId → Except Fault (Option Slot)
  | [] => return none
  | id :: rest =>
    if id = target then return some ⟨block, index⟩
    else do
      match ← within id with
      | some slot => return some slot
      | none => locateAmong within target block (index + 1) rest

def locateWithin (t : Tree) (target : StmtId) :
    Nat → BlockRef → Except Fault (Option Slot)
  | 0, _ => throw .endless
  | depth + 1, block => do
    let inside (id : StmtId) : Except Fault (Option Slot) := do
      if (← t.stmts.get id).isBranch then
        match ← t.locateWithin target depth (.body id) with
        | some slot => return some slot
        | none => t.locateWithin target depth (.elseBody id)
      else return none
    locateAmong inside target block 0 (← t.block block)

def locate (t : Tree) (target : StmtId) : Except Fault (Option Slot) :=
  t.locateWithin target (t.stmts.size + 1) .root

def insertAt (t : Tree) (anchor new : StmtId) (offset : Nat) : Except Fault (Option Tree) := do
  match ← t.locate anchor with
  | none => return none
  | some slot =>
    return some (← t.modifyBlock slot.block fun ids => ids.insertIdx (slot.index + offset) new)

def insertBefore (t : Tree) (anchor new : StmtId) : Except Fault (Option Tree) :=
  t.insertAt anchor new 0

def insertAfter (t : Tree) (anchor new : StmtId) : Except Fault (Option Tree) :=
  t.insertAt anchor new 1

end FlatTemplate.Tree

import FlatTemplate.Proofs.Template.Legible
import FlatTemplate.Template.Printer

namespace FlatTemplate

variable {ι : NodeKind → Type}

def joinText : Stmt ι → Block ι → Block ι
  | .text id s, .text _ s' :: b => .text id (s ++ s') :: b
  | s, b => s :: b

mutual

def Stmt.mergeTexts : Stmt ι → Stmt ι
  | .branch id kind pipe body elseBody =>
    .branch id kind pipe (blockMergeTexts body) (blockMergeTexts elseBody)
  | s => s

def blockMergeTexts : Block ι → Block ι
  | [] => []
  | s :: rest => joinText s.mergeTexts (blockMergeTexts rest)

end

def opensIn : List Char → List Char → Bool
  | [], _ => false
  | c :: text, after => (c = '{' && (text ++ after).head? = some '{') || opensIn text after

mutual

/-- No opening delimiter begins in a text of the statement when `after` is printed behind it. -/
def Stmt.separated : Stmt ι → List Char → Bool
  | .text _ s, after => !opensIn s.toList after
  | .branch _ _ _ body elseBody, after =>
    blockSeparated body (printElse elseBody ++ (printAction "end".toList ++ after)) &&
      blockSeparated elseBody (printAction "end".toList ++ after)
  | _, _ => true

def blockSeparated : Block ι → List Char → Bool
  | [], _ => true
  | s :: rest, after => s.separated (printBlock rest ++ after) && blockSeparated rest after

end

theorem joinText_ne_nil (s : Stmt ι) (b : Block ι) : joinText s b ≠ [] := by
  unfold joinText
  split <;> exact List.cons_ne_nil _ _

theorem mergeTexts_ne_text {s : Stmt ι} (h : ∀ id t, s ≠ .text id t) (id : ι .stmt) (t : String) :
    s.mergeTexts ≠ .text id t := by
  match s with
  | .text id t => exact absurd rfl (h id t)
  | .action .. | .branch .. | .invoke .. => nofun

theorem legible_joinText {s : Stmt ι} {b : Block ι} (hs : s.Legible) (hb : BlockLegible b) :
    BlockLegible (joinText s b) := by
  unfold joinText
  split
  · next s s' b =>
    refine ⟨fun h => hs ?_, hb.2⟩
    exact (String.append_eq_empty_iff.mp h).1
  · exact ⟨hs, hb⟩

mutual

theorem Stmt.Legible.mergeTexts {s : Stmt ι} (h : s.Legible) : s.mergeTexts.Legible := by
  match s with
  | .text .. | .action .. | .invoke .. => exact h
  | .branch _ kind pipe body elseBody => exact ⟨h.1, h.2.1.mergeTexts, h.2.2.mergeTexts⟩

theorem BlockLegible.mergeTexts {b : Block ι} (h : BlockLegible b) :
    BlockLegible (blockMergeTexts b) := by
  cases b with
  | nil => trivial
  | cons s b => exact legible_joinText h.1.mergeTexts h.2.mergeTexts

end

theorem length_joinText_le (s : Stmt ι) (b : Block ι) : (joinText s b).length ≤ b.length + 1 := by
  unfold joinText
  split <;> simp

theorem length_blockMergeTexts_le (b : Block ι) : (blockMergeTexts b).length ≤ b.length := by
  induction b with
  | nil => exact Nat.le_refl _
  | cons s b ih =>
    have := length_joinText_le s.mergeTexts (blockMergeTexts b)
    rw [blockMergeTexts, List.length_cons]
    omega

theorem joinText_eq_cons {id id' : ι .stmt} {s s' : String} {b : Block ι}
    (h : joinText (.text id s) (blockMergeTexts b) = .text id s :: b) :
    joinText (.text id' s') (blockMergeTexts b) = .text id' s' :: b := by
  have hlength := length_blockMergeTexts_le b
  match hb : blockMergeTexts b with
  | [] =>
    rw [hb] at h
    exact congrArg (List.cons (.text id' s')) (List.cons.inj h).2
  | .text _ t :: rest =>
    rw [hb] at h hlength
    rw [← (List.cons.inj h).2, List.length_cons] at hlength
    omega
  | .action _ _ :: _ | .branch _ _ _ _ _ :: _ | .invoke _ _ _ :: _ =>
    rw [hb] at h
    exact congrArg (List.cons (.text id' s')) (List.cons.inj h).2

mutual

theorem Stmt.mergeTexts_mergeTexts (s : Stmt ι) : s.mergeTexts.mergeTexts = s.mergeTexts := by
  match s with
  | .text .. | .action .. | .invoke .. => rfl
  | .branch _ kind pipe body elseBody =>
    rw [Stmt.mergeTexts, Stmt.mergeTexts, blockMergeTexts_blockMergeTexts body,
      blockMergeTexts_blockMergeTexts elseBody]

theorem blockMergeTexts_blockMergeTexts (b : Block ι) :
    blockMergeTexts (blockMergeTexts b) = blockMergeTexts b := by
  cases b with
  | nil => rfl
  | cons s b =>
    have hb := blockMergeTexts_blockMergeTexts b
    have hs := s.mergeTexts_mergeTexts
    rw [blockMergeTexts]
    generalize s.mergeTexts = s at hs ⊢
    generalize blockMergeTexts b = b at hb ⊢
    unfold joinText
    split
    · exact joinText_eq_cons hb
    · next hmeet =>
      rw [blockMergeTexts, hs, hb, joinText]
      exact hmeet

end

end FlatTemplate

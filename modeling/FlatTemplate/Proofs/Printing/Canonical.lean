import FlatTemplate.Proofs.Parser.Texts
import FlatTemplate.Proofs.Printing.Exact
import FlatTemplate.Proofs.Template.Appending
import FlatTemplate.Proofs.Template.Listing
import FlatTemplate.Proofs.Tree.Searching

namespace FlatTemplate

variable {ι : NodeKind → Type}

def OpensNothing (text : String) : Prop :=
  Undelimited text.toList ∧ text.toList.getLast? ≠ some '{'

mutual

theorem Stmt.separated_of_texts {s : Stmt ι} (h : ∀ text ∈ blockTexts [s], OpensNothing text)
    (after : List Char) : s.separated after = true := by
  match s with
  | .text _ text =>
    obtain ⟨hinside, hlast⟩ := h text (by simp)
    rw [Stmt.separated, opensIn_eq_false hinside hlast]
    rfl
  | .branch _ _ _ body elseBody =>
    rw [blockTexts_branch, List.forall_mem_append] at h
    rw [Stmt.separated, separated_of_texts h.1, separated_of_texts h.2]
    rfl
  | .action .. | .invoke .. => rfl

theorem separated_of_texts {b : Block ι} (h : ∀ text ∈ blockTexts b, OpensNothing text)
    (after : List Char) : blockSeparated b after = true := by
  cases b with
  | nil => rfl
  | cons s b =>
    rw [blockTexts_cons, List.forall_mem_append] at h
    rw [blockSeparated, s.separated_of_texts h.1, separated_of_texts h.2]
    rfl

end

theorem joinText_erase (s : Stmt ι) (b : Block ι) :
    joinText s.erase (blockErase b) = blockErase (joinText s b) := by
  match s, b with
  | .text .., .text .. :: b | .text .., .action .. :: b | .text .., .branch .. :: b
  | .text .., .invoke _ _ none :: b | .text .., .invoke _ _ (some _) :: b | .text .., []
  | .action .., b | .branch .., b | .invoke _ _ none, b | .invoke _ _ (some _), b => rfl

mutual

theorem Stmt.mergeTexts_erase (s : Stmt ι) : s.erase.mergeTexts = s.mergeTexts.erase := by
  match s with
  | .text .. | .action .. | .invoke _ _ none | .invoke _ _ (some _) => rfl
  | .branch _ kind p body elseBody =>
    rw [Stmt.erase, Stmt.mergeTexts, blockMergeTexts_erase body, blockMergeTexts_erase elseBody]
    rfl

theorem blockMergeTexts_erase (b : Block ι) :
    blockMergeTexts (blockErase b) = blockErase (blockMergeTexts b) := by
  cases b with
  | nil => rfl
  | cons s b =>
    rw [blockErase, blockMergeTexts, s.mergeTexts_erase, blockMergeTexts_erase b, joinText_erase]
    rfl

end

variable {f : Fresh}

theorem blockRewrite?_cons_eq_none {s : Stmt Handle} {b : Block Handle} :
    blockRewrite? f (s :: b) = none ↔ s.rewrite? f = none ∧ blockRewrite? f b = none := by
  rw [blockRewrite?]
  cases s.rewrite? f <;> simp

theorem Stmt.rewrite?_branch_eq_none {id : StmtId} {kind : BranchKind} {p : Pipe Handle}
    {body elseBody : Block Handle} :
    (Stmt.branch id kind p body elseBody).rewrite? f = none ↔ p.rewrite? f .subject = none ∧
      blockRewrite? f body = none ∧ blockRewrite? f elseBody = none := by
  rw [Stmt.rewrite?, Stmt.rewriteOwn?]
  cases p.rewrite? f .subject <;> cases blockRewrite? f body <;> simp

theorem blockRewrite?_joinText_eq_none (s : Stmt Handle) (b : Block Handle) :
    blockRewrite? f (joinText s b) = none ↔ s.rewrite? f = none ∧ blockRewrite? f b = none := by
  unfold joinText
  split
  · simp only [blockRewrite?_cons_eq_none, Stmt.rewrite?, Stmt.rewriteOwn?, true_and]
  · exact blockRewrite?_cons_eq_none

mutual

theorem Stmt.rewrite?_mergeTexts_eq_none (s : Stmt Handle) :
    s.mergeTexts.rewrite? f = none ↔ s.rewrite? f = none := by
  match s with
  | .text .. | .action .. | .invoke .. => rfl
  | .branch _ _ _ body elseBody =>
    rw [Stmt.mergeTexts, Stmt.rewrite?_branch_eq_none, Stmt.rewrite?_branch_eq_none,
      blockRewrite?_mergeTexts_eq_none body, blockRewrite?_mergeTexts_eq_none elseBody]

theorem blockRewrite?_mergeTexts_eq_none (b : Block Handle) :
    blockRewrite? f (blockMergeTexts b) = none ↔ blockRewrite? f b = none := by
  cases b with
  | nil => rfl
  | cons s b =>
    rw [blockMergeTexts, blockRewrite?_joinText_eq_none, s.rewrite?_mergeTexts_eq_none,
      blockRewrite?_mergeTexts_eq_none b, blockRewrite?_cons_eq_none]

end

namespace Tree

variable {t t' : Tree} {b b' : Block Handle}

theorem Holds.isCanonical (h : t.Holds b) (f : Fresh) :
    t.isCanonical = .ok (blockRewrite? f b).isNone := by
  rw [Tree.isCanonical, h.plan? f]
  cases blockRewrite? f b <;> rfl

theorem Holds.isCanonical_eq (h : t.Holds b) (h' : t'.Holds b')
    (herase : blockErase b' = blockMergeTexts (blockErase b)) : t'.isCanonical = t.isCanonical := by
  let f : Fresh := ⟨⟨0⟩, ⟨0⟩, ⟨0⟩, ⟨0⟩, ""⟩
  have hmerged : blockErase b' = blockErase (blockRename id (blockMergeTexts b)) := by
    rw [herase, blockMergeTexts_erase, blockRename_id]
  have hnone : blockRewrite? f b' = none ↔ blockRewrite? f b = none :=
    (blockRewrite?_eq_none_of_erase_eq hmerged).trans (blockRewrite?_mergeTexts_eq_none b)
  rw [h.isCanonical f, h'.isCanonical f, Except.ok.injEq, Bool.eq_iff_iff,
    Option.isNone_iff_eq_none, Option.isNone_iff_eq_none, hnone]

theorem Holds.reread (h : t.Holds b) (hb : BlockLegible b) (hseparated : blockSeparated b [] = true) :
    ∃ text, t.text = .ok text ∧ ∀ name, ∃ set b', TemplateSet.parse name text = .ok set ∧
      set.defined = [] ∧ set.main.Holds b' ∧ blockErase b' = blockMergeTexts (blockErase b) := by
  have hlegible := (blockLegible_erase b).mpr hb
  rw [← blockSeparated_erase] at hseparated
  have hparse := Source.parse_print hlegible hseparated
  rw [printBlock_erase] at hparse
  refine ⟨String.ofList (printBlock b), ?_, fun name => ?_⟩
  · rw [Tree.text, h.read]
    rfl
  · obtain ⟨b', herase, -, hholds⟩ := holds_ofBlock name hlegible.mergeTexts.pipes
    rw [blockErase_untagged] at herase
    refine ⟨{ main := .ofBlock name (blockMergeTexts (blockErase b)) }, b', ?_, rfl, hholds, herase⟩
    rw [TemplateSet.parse, hparse]
    rfl

end Tree

end FlatTemplate

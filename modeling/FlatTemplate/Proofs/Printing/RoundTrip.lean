import FlatTemplate.Proofs.Parser.Parsed
import FlatTemplate.Proofs.Printing.Rereading

namespace FlatTemplate

variable {ι : NodeKind → Type}

theorem Source.parse_print {b : Block Untagged} (hb : BlockLegible b)
    (hseparated : blockSeparated b [] = true) :
    Source.parse (String.ofList (printBlock b)) = .ok ⟨blockMergeTexts b, []⟩ := by
  obtain ⟨ts, htokens, hkinds⟩ := Lexer.tokens_print hb hseparated
  rw [← pieceKinds_blockPieces] at hkinds
  have hsource := Parser.source_spelled (Parser.spelled_main (spelled_pieces (blockMergeTexts b)))
    hb.mergeTexts (List.forall_mem_nil _) hkinds
  rw [Source.parse, String.toList_ofList, htokens, ok_bind, hsource]

mutual

theorem Expr.print_erase (e : Expr ι) : e.erase.print = e.print := by
  cases e with
  | atom => rfl
  | paren _ inner => rw [Expr.erase, Expr.print, Expr.print, inner.print_erase]

theorem printArgs_erase (es : List (Expr ι)) : printArgs (argErase es) = printArgs es := by
  cases es with
  | nil => rfl
  | cons e es => rw [argErase, printArgs, printArgs, e.print_erase, printArgs_erase es]

theorem Command.print_erase (c : Command ι) : c.erase.print = c.print := by
  obtain ⟨_, head, args⟩ := c
  rw [Command.erase, Command.print, Command.print, head.print_erase, printArgs_erase args]

theorem printStages_erase (cs : List (Command ι)) :
    printStages (commandErase cs) = printStages cs := by
  cases cs with
  | nil => rfl
  | cons c cs => rw [commandErase, printStages, printStages, c.print_erase, printStages_erase cs]

theorem printCommands_erase (cs : List (Command ι)) :
    printCommands (commandErase cs) = printCommands cs := by
  cases cs with
  | nil => rfl
  | cons c cs =>
    rw [commandErase, printCommands, printCommands, c.print_erase, printStages_erase cs]

theorem Pipe.print_erase (p : Pipe ι) : p.erase.print = p.print := by
  obtain ⟨_, decls, commands⟩ := p
  rw [Pipe.erase, Pipe.print, Pipe.print, printCommands_erase commands]

end

mutual

theorem Stmt.print_erase (s : Stmt ι) : s.erase.print = s.print := by
  match s with
  | .text .. | .invoke _ _ none => rfl
  | .action _ p => rw [Stmt.erase, Stmt.print, Stmt.print, p.print_erase]
  | .invoke _ name (some p) => rw [Stmt.erase, Stmt.print, Stmt.print, p.print_erase]
  | .branch _ kind p body elseBody =>
    rw [Stmt.erase, Stmt.print, Stmt.print, p.print_erase, printBlock_erase body,
      printElse_erase elseBody]

theorem printBlock_erase (b : Block ι) : printBlock (blockErase b) = printBlock b := by
  cases b with
  | nil => rfl
  | cons s b => rw [blockErase, printBlock, printBlock, s.print_erase, printBlock_erase b]

theorem printElse_erase (b : Block ι) : printElse (blockErase b) = printElse b := by
  cases b with
  | nil => rfl
  | cons s b => rw [blockErase, printElse, printElse, s.print_erase, printBlock_erase b]

end

mutual

theorem Stmt.separated_erase (s : Stmt ι) (after : List Char) :
    s.erase.separated after = s.separated after := by
  match s with
  | .text .. | .action .. | .invoke _ _ none | .invoke _ _ (some _) => rfl
  | .branch _ kind p body elseBody =>
    rw [Stmt.erase, Stmt.separated, Stmt.separated, printElse_erase elseBody,
      blockSeparated_erase body, blockSeparated_erase elseBody]

theorem blockSeparated_erase (b : Block ι) (after : List Char) :
    blockSeparated (blockErase b) after = blockSeparated b after := by
  cases b with
  | nil => rfl
  | cons s b =>
    rw [blockErase, blockSeparated, blockSeparated, printBlock_erase b, s.separated_erase,
      blockSeparated_erase b]

end

mutual

theorem Expr.erase_untagged (e : Expr Untagged) : e.erase = e := by
  cases e with
  | atom => rfl
  | paren _ inner => rw [Expr.erase, inner.erase_untagged]

theorem argErase_untagged (es : List (Expr Untagged)) : argErase es = es := by
  cases es with
  | nil => rfl
  | cons e es => rw [argErase, e.erase_untagged, argErase_untagged es]

theorem Command.erase_untagged (c : Command Untagged) : c.erase = c := by
  obtain ⟨_, head, args⟩ := c
  rw [Command.erase, head.erase_untagged, argErase_untagged args]

theorem commandErase_untagged (cs : List (Command Untagged)) : commandErase cs = cs := by
  cases cs with
  | nil => rfl
  | cons c cs => rw [commandErase, c.erase_untagged, commandErase_untagged cs]

theorem Pipe.erase_untagged (p : Pipe Untagged) : p.erase = p := by
  obtain ⟨_, decls, commands⟩ := p
  rw [Pipe.erase, commandErase_untagged commands]

end

mutual

theorem Stmt.erase_untagged (s : Stmt Untagged) : s.erase = s := by
  match s with
  | .text .. | .invoke _ _ none => rfl
  | .action _ p => rw [Stmt.erase, p.erase_untagged]
  | .invoke _ name (some p) => rw [Stmt.erase, p.erase_untagged]
  | .branch _ kind p body elseBody =>
    rw [Stmt.erase, p.erase_untagged, blockErase_untagged body, blockErase_untagged elseBody]

theorem blockErase_untagged (b : Block Untagged) : blockErase b = b := by
  cases b with
  | nil => rfl
  | cons s b => rw [blockErase, s.erase_untagged, blockErase_untagged b]

end

namespace Tree

/-- The text of a tree that was read from source can be read again unless an opening delimiter
begins in one of its texts; it defines no template, and its main template is the tree's, up to
texts that stand side by side. -/
theorem parse_text {t : Tree} (h : t.Parsed) :
    ∃ b text, t.read = .ok b ∧ t.text = .ok text ∧
      (blockSeparated b [] = true → ∀ name, ∃ set b', TemplateSet.parse name text = .ok set ∧
        set.defined = [] ∧ set.main.read = .ok b' ∧
          blockMergeTexts (blockErase b') = blockMergeTexts (blockErase b)) := by
  obtain ⟨name, source, hsource, rfl⟩ := h.made
  obtain ⟨b, hb, -, hholds⟩ := holds_ofBlock name hsource.pipes
  rw [blockErase_untagged] at hb
  have htext : (ofBlock name source).text = .ok (String.ofList (printBlock b)) := by
    rw [Tree.text, hholds.read]
    rfl
  refine ⟨b, _, hholds.read, htext, fun hseparated name' => ?_⟩
  rw [← blockSeparated_erase, hb] at hseparated
  have hparse := Source.parse_print hsource hseparated
  obtain ⟨b', hb', -, hholds'⟩ := holds_ofBlock name' hsource.mergeTexts.pipes
  refine ⟨{ main := .ofBlock name' (blockMergeTexts source) }, b', ?_, rfl, hholds'.read, ?_⟩
  · rw [TemplateSet.parse, ← printBlock_erase, hb, hparse, ok_bind]
    rfl
  · rw [hb', hb, blockErase_untagged, blockMergeTexts_blockMergeTexts]

def braceAction : Tree :=
  let block : Block Untagged :=
    [.text () "\x7b", .action () (.mk () [] [.mk () (.atom () .dot) []])]
  .ofBlock "" block

theorem parse_braceAction : Tree.parse ("\x7b " ++ delimited "- .") = .ok braceAction := by cbv

theorem text_braceAction :
    braceAction.Parsed ∧ ∃ b text error, braceAction.read = .ok b ∧ braceAction.text = .ok text ∧
      ∀ name, TemplateSet.parse name text = .error error := by
  have hparsed := parsed_of_parse parse_braceAction
  obtain ⟨b, -, hb⟩ := hparsed.holds
  have htext : braceAction.text = .ok "\x7b\x7b\x7b.\x7d\x7d" := by cbv
  have hfailure : Source.parse "\x7b\x7b\x7b.\x7d\x7d" =
      .error ⟨.unexpectedChar '{', 2, 1, 3⟩ := by cbv
  refine ⟨hparsed, b, _, ⟨.unexpectedChar '{', 2, 1, 3⟩, hb.read, htext, fun name => ?_⟩
  rw [TemplateSet.parse, hfailure]
  rfl

def textsBranch : Tree :=
  let block : Block Untagged := [.text () "a\x7b", .text () " b", .branch () .cond
    (.mk () ["$x"] [.mk () (.atom () (.field ["A"])) []]) [.text () "c"] []]
  .ofBlock "" block

theorem parse_textsBranch : Tree.parse ("a\x7b " ++ delimited "- /* */" ++ " b" ++
    delimited "if $x := .A" ++ "c" ++ delimited "end") = .ok textsBranch := by cbv

theorem parse_text_textsBranch :
    ∃ b text, textsBranch.read = .ok b ∧ textsBranch.text = .ok text ∧
      ∀ name, ∃ set b', TemplateSet.parse name text = .ok set ∧ set.defined = [] ∧
        set.main.read = .ok b' ∧
          blockMergeTexts (blockErase b') = blockMergeTexts (blockErase b) := by
  obtain ⟨b, text, hread, htext, h⟩ := parse_text (parsed_of_parse parse_textsBranch)
  have hseparated : textsBranch.read.map (fun b => blockSeparated b []) = .ok true := by cbv
  rw [hread] at hseparated
  exact ⟨b, text, hread, htext, h (Except.ok.inj hseparated)⟩

end Tree

end FlatTemplate

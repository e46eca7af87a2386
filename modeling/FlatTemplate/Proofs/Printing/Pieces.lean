import FlatTemplate.Proofs.Printing.Scanning
import FlatTemplate.Proofs.Template.Listing

namespace FlatTemplate

inductive Phrase where
  | word (word : Keyword)
  | name (name : String)
  | pipe (pipe : Pipe Untagged)

namespace Phrase

def print : Phrase → List Char
  | .word w => w.text.toList
  | .name s => Text.literal s
  | .pipe p => p.print

def kinds : Phrase → List TokenKind
  | .word w => [.keyword w]
  | .name s => [.str s]
  | .pipe p => p.kinds

end Phrase

def printPhrases : List Phrase → List Char
  | [] => []
  | [phrase] => phrase.print
  | phrase :: phrases => phrase.print ++ ' ' :: printPhrases phrases

def phraseKinds (phrases : List Phrase) : List TokenKind := phrases.flatMap Phrase.kinds

inductive Piece where
  | text (text : String)
  | action (phrases : List Phrase)

namespace Piece

def print : Piece → List Char
  | .text s => s.toList
  | .action phrases => printAction (printPhrases phrases)

def kinds : Piece → List TokenKind
  | .text s => [.text s]
  | .action phrases => actionKinds (phraseKinds phrases)

end Piece

def printPieces (pieces : List Piece) : List Char := pieces.flatMap Piece.print

def pieceKinds (pieces : List Piece) : List TokenKind := pieces.flatMap Piece.kinds

theorem phraseKinds_pipe (p : Pipe Untagged) : phraseKinds [.pipe p] = p.kinds :=
  List.append_nil _

@[simp] theorem printPieces_nil : printPieces [] = [] := rfl

@[simp] theorem printPieces_cons (piece : Piece) (pieces : List Piece) :
    printPieces (piece :: pieces) = piece.print ++ printPieces pieces := rfl

@[simp] theorem printPieces_append (pieces pieces' : List Piece) :
    printPieces (pieces ++ pieces') = printPieces pieces ++ printPieces pieces' :=
  List.flatMap_append

@[simp] theorem pieceKinds_nil : pieceKinds [] = [] := rfl

@[simp] theorem pieceKinds_cons (piece : Piece) (pieces : List Piece) :
    pieceKinds (piece :: pieces) = piece.kinds ++ pieceKinds pieces := rfl

@[simp] theorem pieceKinds_append (pieces pieces' : List Piece) :
    pieceKinds (pieces ++ pieces') = pieceKinds pieces ++ pieceKinds pieces' :=
  List.flatMap_append

mutual

inductive Stmt.Spelled : Stmt Untagged → List Piece → Prop
  | text (text : String) : Stmt.Spelled (.text () text) [.text text]
  | action (p : Pipe Untagged) : Stmt.Spelled (.action () p) [.action [.pipe p]]
  | invoke (name : String) :
    Stmt.Spelled (.invoke () name none) [.action [.word .template, .name name]]
  | invokeOn (name : String) (p : Pipe Untagged) :
    Stmt.Spelled (.invoke () name (some p)) [.action [.word .template, .name name, .pipe p]]
  | branch {kind : BranchKind} {body elseBody : Block Untagged} {inner tail : List Piece}
    (p : Pipe Untagged) : BlockSpelled body inner → TailSpelled kind elseBody tail →
    Stmt.Spelled (.branch () kind p body elseBody)
      (.action [.word (.branch kind), .pipe p] :: (inner ++ tail))

inductive TailSpelled : BranchKind → Block Untagged → List Piece → Prop
  | finish (kind : BranchKind) : TailSpelled kind [] [.action [.word .finish]]
  | otherwise {b : Block Untagged} {inner : List Piece} (kind : BranchKind) :
    BlockSpelled b inner →
    TailSpelled kind b (.action [.word .otherwise] :: (inner ++ [.action [.word .finish]]))
  | chained {kind : BranchKind} {body elseBody : Block Untagged} {inner tail : List Piece}
    (hkind : kind ≠ .range) (p : Pipe Untagged) :
    BlockSpelled body inner → TailSpelled kind elseBody tail →
    TailSpelled kind [.branch () kind p body elseBody]
      (.action [.word .otherwise, .word (.branch kind), .pipe p] :: (inner ++ tail))

inductive BlockSpelled : Block Untagged → List Piece → Prop
  | nil : BlockSpelled [] []
  | cons {s : Stmt Untagged} {b : Block Untagged} {pieces pieces' : List Piece} :
    Stmt.Spelled s pieces → BlockSpelled b pieces' → BlockSpelled (s :: b) (pieces ++ pieces')

end

inductive Source.Spelled : Source → List Piece → Prop
  | nil : Source.Spelled ⟨[], []⟩ []
  | stmt {s : Stmt Untagged} {main : Block Untagged} {definitions : List Definition}
    {pieces pieces' : List Piece} : s.Spelled pieces →
    Source.Spelled ⟨main, definitions⟩ pieces' →
    Source.Spelled ⟨s :: main, definitions⟩ (pieces ++ pieces')
  | define {d : Definition} {main : Block Untagged} {definitions : List Definition}
    {inner pieces : List Piece} : BlockSpelled d.body inner →
    Source.Spelled ⟨main, definitions⟩ pieces →
    Source.Spelled ⟨main, d :: definitions⟩
      (.action [.word .define, .name d.name] :: (inner ++ .action [.word .finish] :: pieces))

def Piece.text? : Piece → Option String
  | .text s => some s
  | .action _ => none

def pieceTexts (pieces : List Piece) : List String := pieces.filterMap Piece.text?

theorem pieceTexts_action (phrases : List Phrase) (pieces : List Piece) :
    pieceTexts (.action phrases :: pieces) = pieceTexts pieces := rfl

theorem pieceTexts_append (pieces pieces' : List Piece) :
    pieceTexts (pieces ++ pieces') = pieceTexts pieces ++ pieceTexts pieces' :=
  List.filterMap_append

theorem mem_pieceTexts {pieces : List Piece} {text : String} (h : .text text ∈ pieces) :
    text ∈ pieceTexts pieces :=
  List.mem_filterMap.mpr ⟨_, h, rfl⟩

theorem pieceTexts_branch {kind : BranchKind} {body elseBody : Block Untagged}
    {inner tail : List Piece} (phrases : List Phrase) (p : Pipe Untagged)
    (hbody : pieceTexts inner = blockTexts body) (htail : pieceTexts tail = blockTexts elseBody) :
    pieceTexts (.action phrases :: (inner ++ tail)) =
      blockTexts [.branch () kind p body elseBody] := by
  rw [pieceTexts_action, pieceTexts_append, hbody, htail, blockTexts_branch]

theorem pieceTexts_cons {s : Stmt Untagged} {b : Block Untagged} {pieces pieces' : List Piece}
    (hs : pieceTexts pieces = blockTexts [s]) (hb : pieceTexts pieces' = blockTexts b) :
    pieceTexts (pieces ++ pieces') = blockTexts (s :: b) := by
  rw [pieceTexts_append, hs, hb, ← blockTexts_cons]

theorem Stmt.Spelled.texts {s : Stmt Untagged} {pieces : List Piece} (h : s.Spelled pieces) :
    pieceTexts pieces = blockTexts [s] :=
  @Stmt.Spelled.rec (fun s pieces _ => pieceTexts pieces = blockTexts [s])
    (fun _ b pieces _ => pieceTexts pieces = blockTexts b)
    (fun b pieces _ => pieceTexts pieces = blockTexts b)
    (fun _ => rfl) (fun _ => rfl) (fun _ => rfl) (fun _ _ => rfl)
    (fun p _ _ => pieceTexts_branch _ p) (fun _ => rfl)
    (fun _ _ h => by rw [pieceTexts_action, pieceTexts_append, h]; exact List.append_nil _)
    (fun _ p _ _ => pieceTexts_branch _ p) rfl (fun _ _ => pieceTexts_cons) s pieces h

theorem BlockSpelled.texts {b : Block Untagged} {pieces : List Piece} (h : BlockSpelled b pieces) :
    pieceTexts pieces = blockTexts b := by
  induction b generalizing pieces with
  | nil =>
    cases h
    rfl
  | cons s b ih =>
    cases h with
    | cons hs hb => exact pieceTexts_cons hs.texts (ih hb)

theorem mem_pieceKinds_of_text {pieces : List Piece} {text : String}
    (h : text ∈ pieceTexts pieces) : .text text ∈ pieceKinds pieces := by
  obtain ⟨piece, hpiece, htext⟩ := List.mem_filterMap.mp h
  refine List.mem_flatMap.mpr ⟨piece, hpiece, ?_⟩
  match piece with
  | .text _ =>
    obtain rfl := Option.some.inj htext
    exact List.mem_singleton_self _

theorem Source.Spelled.texts {source : Source} {pieces : List Piece} (h : source.Spelled pieces) :
    blockTexts source.main ⊆ pieceTexts pieces ∧
      ∀ d ∈ source.definitions, blockTexts d.body ⊆ pieceTexts pieces := by
  induction h with
  | nil => exact ⟨List.nil_subset _, List.forall_mem_nil _⟩
  | stmt hs _ ih =>
    rw [pieceTexts_append, hs.texts]
    refine ⟨?_, fun d hd => List.subset_append_of_subset_right _ (ih.2 d hd)⟩
    rw [blockTexts_cons]
    exact List.append_subset.mpr
      ⟨List.subset_append_left _ _, List.subset_append_of_subset_right _ ih.1⟩
  | define hbody _ ih =>
    rw [pieceTexts_action, pieceTexts_append, hbody.texts, pieceTexts_action]
    exact ⟨List.subset_append_of_subset_right _ ih.1, List.forall_mem_cons.mpr
      ⟨List.subset_append_left _ _, fun d hd => List.subset_append_of_subset_right _ (ih.2 d hd)⟩⟩

mutual

def Stmt.pieces : Stmt Untagged → List Piece
  | .text _ text => [.text text]
  | .action _ p => [.action [.pipe p]]
  | .invoke _ name none => [.action [.word .template, .name name]]
  | .invoke _ name (some p) => [.action [.word .template, .name name, .pipe p]]
  | .branch _ kind p body elseBody =>
    .action [.word (.branch kind), .pipe p] ::
      (blockPieces body ++ (elsePieces elseBody ++ [.action [.word .finish]]))

def blockPieces : Block Untagged → List Piece
  | [] => []
  | s :: rest => s.pieces ++ blockPieces rest

def elsePieces : Block Untagged → List Piece
  | [] => []
  | s :: rest => .action [.word .otherwise] :: (s.pieces ++ blockPieces rest)

end

mutual

theorem Stmt.spelled_pieces (s : Stmt Untagged) : s.Spelled s.pieces := by
  match s with
  | .text _ text => exact .text text
  | .action _ p => exact .action p
  | .invoke _ name none => exact .invoke name
  | .invoke _ name (some p) => exact .invokeOn name p
  | .branch _ kind p body [] => exact .branch p (spelled_pieces body) (.finish kind)
  | .branch _ kind p body (s :: rest) =>
    exact .branch p (spelled_pieces body) (.otherwise kind (.cons s.spelled_pieces
      (spelled_pieces rest)))

theorem spelled_pieces (b : Block Untagged) : BlockSpelled b (blockPieces b) := by
  cases b with
  | nil => exact .nil
  | cons s b => exact .cons s.spelled_pieces (spelled_pieces b)

end

mutual

theorem Stmt.printPieces_pieces (s : Stmt Untagged) : printPieces s.pieces = s.print := by
  match s with
  | .text .. => exact List.append_nil _
  | .action .. | .invoke _ _ none | .invoke _ _ (some _) =>
    simp [Stmt.pieces, Piece.print, printPhrases, Phrase.print, Stmt.print, Keyword.text]
  | .branch _ kind p body elseBody =>
    rw [Stmt.pieces, printPieces_cons, printPieces_append, printPieces_append,
      printPieces_blockPieces body, printPieces_elsePieces elseBody]
    simp [Piece.print, printPhrases, Phrase.print, Stmt.print, Keyword.text]

theorem printPieces_blockPieces (b : Block Untagged) :
    printPieces (blockPieces b) = printBlock b := by
  cases b with
  | nil => rfl
  | cons s b =>
    rw [blockPieces, printPieces_append, s.printPieces_pieces, printPieces_blockPieces b, printBlock]

theorem printPieces_elsePieces (b : Block Untagged) : printPieces (elsePieces b) = printElse b := by
  cases b with
  | nil => rfl
  | cons s b =>
    rw [elsePieces, printPieces_cons, printPieces_append, s.printPieces_pieces,
      printPieces_blockPieces b, printElse, List.append_assoc]
    rfl

end

mutual

theorem Stmt.pieceKinds_pieces (s : Stmt Untagged) : pieceKinds s.pieces = s.kinds := by
  match s with
  | .text .. => rfl
  | .action .. | .invoke _ _ none | .invoke _ _ (some _) =>
    simp [Stmt.pieces, Piece.kinds, phraseKinds, Phrase.kinds, Stmt.kinds]
  | .branch _ kind p body elseBody =>
    rw [Stmt.pieces, pieceKinds_cons, pieceKinds_append, pieceKinds_append,
      pieceKinds_blockPieces body, pieceKinds_elsePieces elseBody]
    simp [Piece.kinds, phraseKinds, Phrase.kinds, Stmt.kinds]

theorem pieceKinds_blockPieces (b : Block Untagged) : pieceKinds (blockPieces b) = blockKinds b := by
  cases b with
  | nil => rfl
  | cons s b =>
    rw [blockPieces, pieceKinds_append, s.pieceKinds_pieces, pieceKinds_blockPieces b, blockKinds]

theorem pieceKinds_elsePieces (b : Block Untagged) : pieceKinds (elsePieces b) = elseKinds b := by
  cases b with
  | nil => rfl
  | cons s b =>
    rw [elsePieces, pieceKinds_cons, pieceKinds_append, s.pieceKinds_pieces,
      pieceKinds_blockPieces b, elseKinds, List.append_assoc]
    rfl

end

end FlatTemplate

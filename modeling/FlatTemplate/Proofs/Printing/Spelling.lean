import FlatTemplate.Proofs.Printing.Canonical

namespace FlatTemplate

def Phrase.Legible : Phrase → Prop
  | .pipe p => ∃ limit, p.Legible limit
  | _ => True

def Piece.Legible : Piece → Prop
  | .text s => s ≠ "" ∧ OpensNothing s
  | .action phrases => phrases ≠ [] ∧ ∀ phrase ∈ phrases, phrase.Legible

theorem Piece.legible_word (word : Keyword) : (Piece.action [.word word]).Legible :=
  ⟨List.cons_ne_nil _ _, by simp [Phrase.Legible]⟩

theorem Piece.legible_pipe {limit : Parser.DeclLimit} {p : Pipe Untagged} (h : p.Legible limit)
    (words : List Keyword) : (Piece.action (words.map .word ++ [.pipe p])).Legible := by
  refine ⟨List.append_ne_nil_of_right_ne_nil _ (List.cons_ne_nil _ _), ?_⟩
  rw [List.forall_mem_append, List.forall_mem_map, List.forall_mem_singleton]
  exact ⟨fun _ _ => trivial, limit, h⟩

def LegiblePieces (b : Block Untagged) (pieces : List Piece) : Prop :=
  BlockLegible b → (∀ text ∈ blockTexts b, OpensNothing text) → ∀ piece ∈ pieces, piece.Legible

section LegiblePieces

variable {kind : BranchKind} {s : Stmt Untagged} {b body elseBody : Block Untagged}
  {pieces pieces' inner tail : List Piece}

theorem LegiblePieces.branch (hbody : LegiblePieces body inner)
    (htail : LegiblePieces elseBody tail) (p : Pipe Untagged) (words : List Keyword) :
    LegiblePieces [.branch () kind p body elseBody]
      (.action (words.map .word ++ [.pipe p]) :: (inner ++ tail)) := by
  rintro ⟨⟨hp, hlegible, helse⟩, -⟩ htexts
  rw [blockTexts_branch, List.forall_mem_append] at htexts
  rw [List.forall_mem_cons, List.forall_mem_append]
  exact ⟨Piece.legible_pipe hp words, hbody hlegible htexts.1, htail helse htexts.2⟩

theorem LegiblePieces.otherwise (h : LegiblePieces b inner) :
    LegiblePieces b (.action [.word .otherwise] :: (inner ++ [.action [.word .finish]])) := by
  intro hb htexts
  rw [List.forall_mem_cons, List.forall_mem_append, List.forall_mem_singleton]
  exact ⟨Piece.legible_word _, h hb htexts, Piece.legible_word _⟩

theorem LegiblePieces.cons (hs : LegiblePieces [s] pieces) (hb : LegiblePieces b pieces') :
    LegiblePieces (s :: b) (pieces ++ pieces') := by
  intro hlegible htexts
  rw [blockTexts_cons, List.forall_mem_append] at htexts
  rw [List.forall_mem_append]
  exact ⟨hs ⟨hlegible.1, trivial⟩ htexts.1, hb hlegible.2 htexts.2⟩

theorem legiblePieces_text (text : String) : LegiblePieces [.text () text] [.text text] := by
  intro hlegible htexts
  rw [List.forall_mem_singleton]
  exact ⟨hlegible.1, htexts text (List.mem_singleton_self text)⟩

theorem legiblePieces_action (p : Pipe Untagged) :
    LegiblePieces [.action () p] [.action [.pipe p]] := by
  rintro ⟨hp, -⟩ _
  exact List.forall_mem_singleton.mpr (Piece.legible_pipe hp [])

theorem legiblePieces_invoke (name : String) :
    LegiblePieces [.invoke () name none] [.action [.word .template, .name name]] := by
  intro _ _
  rw [List.forall_mem_singleton]
  exact ⟨List.cons_ne_nil _ _, by simp [Phrase.Legible]⟩

theorem legiblePieces_invokeOn (name : String) (p : Pipe Untagged) :
    LegiblePieces [.invoke () name (some p)]
      [.action [.word .template, .name name, .pipe p]] := by
  rintro ⟨hp, -⟩ _
  rw [List.forall_mem_singleton]
  exact ⟨List.cons_ne_nil _ _, by simpa [Phrase.Legible] using ⟨_, hp⟩⟩

theorem Stmt.Spelled.legible (h : s.Spelled pieces) : LegiblePieces [s] pieces :=
  @Stmt.Spelled.rec (fun s pieces _ => LegiblePieces [s] pieces)
    (fun _ b pieces _ => LegiblePieces b pieces) (fun b pieces _ => LegiblePieces b pieces)
    legiblePieces_text legiblePieces_action legiblePieces_invoke legiblePieces_invokeOn
    (fun p _ _ hbody htail => hbody.branch htail p [.branch _])
    (fun _ _ _ => List.forall_mem_singleton.mpr (Piece.legible_word _))
    (fun _ _ h => h.otherwise)
    (fun _ p _ _ hbody htail => hbody.branch htail p [.otherwise, .branch _])
    (fun _ _ => List.forall_mem_nil _) (fun _ _ hs hb => hs.cons hb) s pieces h

theorem BlockSpelled.legible (h : BlockSpelled b pieces) : LegiblePieces b pieces := by
  induction b generalizing pieces with
  | nil =>
    cases h
    exact fun _ _ => List.forall_mem_nil _
  | cons s b ih =>
    cases h with
    | cons hs hb => exact hs.legible.cons (ih hb)

end LegiblePieces

def joinPiece : Piece → List Piece → List Piece
  | .text s, .text s' :: pieces => .text (s ++ s') :: pieces
  | piece, pieces => piece :: pieces

def mergePieces : List Piece → List Piece := List.foldr joinPiece []

def Piece.isText : Piece → Bool
  | .text _ => true
  | .action _ => false

theorem joinPiece_of_apart {piece : Piece} {pieces : List Piece}
    (h : ∀ next ∈ pieces.head?, next.isText = false) : joinPiece piece pieces = piece :: pieces := by
  unfold joinPiece
  split
  · next s s' pieces =>
    have : (Piece.text s').isText = false := h _ rfl
    cases this
  · rfl

theorem mergePieces_cons (piece : Piece) (pieces : List Piece) :
    mergePieces (piece :: pieces) = joinPiece piece (mergePieces pieces) := rfl

theorem mergePieces_action (phrases : List Phrase) (pieces : List Piece) :
    mergePieces (.action phrases :: pieces) = .action phrases :: mergePieces pieces := rfl

def MergesTo (P : List Piece → Prop) (pieces rest : List Piece) : Prop :=
  ∃ pieces', P pieces' ∧ mergePieces (pieces ++ rest) = pieces' ++ mergePieces rest

def MergesBlock (b : Block Untagged) (pieces : List Piece) : Prop :=
  ∀ rest, (∀ next ∈ (mergePieces rest).head?, next.isText = false) →
    MergesTo (BlockSpelled (blockMergeTexts b)) pieces rest

def MergesTail (kind : BranchKind) (b : Block Untagged) (pieces : List Piece) : Prop :=
  ∀ rest, (∀ next ∈ (mergePieces (pieces ++ rest)).head?, next.isText = false) ∧
    MergesTo (TailSpelled kind (blockMergeTexts b)) pieces rest

def MergesStmt (s : Stmt Untagged) (pieces : List Piece) : Prop :=
  (∀ id t, s ≠ .text id t) → ∀ rest, MergesTo s.mergeTexts.Spelled pieces rest

section Merging

variable {kind : BranchKind} {s : Stmt Untagged} {b body elseBody : Block Untagged}
  {pieces pieces' inner tail : List Piece}

theorem head?_action (phrases : List Phrase) (pieces : List Piece) :
    ∀ next ∈ (Piece.action phrases :: pieces).head?, next.isText = false := by
  simp [Piece.isText]

theorem MergesStmt.of_action {phrases : List Phrase} (h : s.mergeTexts.Spelled [.action phrases]) :
    MergesStmt s [.action phrases] := fun _ _ => ⟨_, h, rfl⟩

theorem MergesTail.branch (hbody : MergesBlock body inner) (htail : MergesTail kind elseBody tail)
    (phrases : List Phrase) (rest : List Piece) :
    ∃ inner' tail', BlockSpelled (blockMergeTexts body) inner' ∧
      TailSpelled kind (blockMergeTexts elseBody) tail' ∧
      mergePieces (.action phrases :: (inner ++ tail) ++ rest) =
        .action phrases :: (inner' ++ tail') ++ mergePieces rest := by
  obtain ⟨happart, tail', htail', hmerge'⟩ := htail rest
  obtain ⟨inner', hinner', hmerge⟩ := hbody (tail ++ rest) happart
  refine ⟨inner', tail', hinner', htail', ?_⟩
  rw [List.cons_append, List.append_assoc, mergePieces_action, hmerge, hmerge', List.cons_append,
    List.append_assoc]

theorem MergesStmt.branch (p : Pipe Untagged) (hbody : MergesBlock body inner)
    (htail : MergesTail kind elseBody tail) :
    MergesStmt (.branch () kind p body elseBody)
      (.action [.word (.branch kind), .pipe p] :: (inner ++ tail)) := by
  intro _ rest
  obtain ⟨inner', tail', hinner', htail', hmerge⟩ := htail.branch hbody _ rest
  exact ⟨_, .branch p hinner' htail', hmerge⟩

theorem MergesTail.finish (kind : BranchKind) : MergesTail kind [] [.action [.word .finish]] :=
  fun _ => ⟨head?_action _ _, _, .finish kind, rfl⟩

theorem MergesTail.otherwise (kind : BranchKind) (h : MergesBlock b inner) :
    MergesTail kind b (.action [.word .otherwise] :: (inner ++ [.action [.word .finish]])) := by
  intro rest
  refine ⟨head?_action _ _, ?_⟩
  obtain ⟨inner', hinner', hmerge⟩ := h (.action [.word .finish] :: rest) (head?_action _ _)
  refine ⟨_, .otherwise kind hinner', ?_⟩
  rw [List.cons_append, List.append_assoc, List.singleton_append, mergePieces_action, hmerge,
    mergePieces_action, List.cons_append, List.append_assoc, List.singleton_append]

theorem MergesTail.chained (hkind : kind ≠ .range) (p : Pipe Untagged)
    (hbody : MergesBlock body inner) (htail : MergesTail kind elseBody tail) :
    MergesTail kind [.branch () kind p body elseBody]
      (.action [.word .otherwise, .word (.branch kind), .pipe p] :: (inner ++ tail)) := by
  intro rest
  obtain ⟨inner', tail', hinner', htail', hmerge⟩ := htail.branch hbody _ rest
  exact ⟨head?_action _ _, _, .chained hkind p hinner' htail', hmerge⟩

theorem MergesBlock.nil : MergesBlock [] [] := fun _ _ => ⟨[], .nil, rfl⟩

theorem BlockSpelled.joinText (text : String) (h : BlockSpelled b pieces) {rest : List Piece}
    (hrest : ∀ next ∈ rest.head?, next.isText = false) :
    ∃ pieces', BlockSpelled (joinText (.text () text) b) pieces' ∧
      joinPiece (.text text) (pieces ++ rest) = pieces' ++ rest := by
  cases h with
  | nil => exact ⟨_, .cons (.text text) .nil, joinPiece_of_apart hrest⟩
  | @cons s b pieces pieces' hs hb =>
    cases hs with
    | text text' => exact ⟨_, .cons (.text (text ++ text')) hb, rfl⟩
    | action p => exact ⟨_, .cons (.text text) (.cons (.action p) hb), rfl⟩
    | invoke name => exact ⟨_, .cons (.text text) (.cons (.invoke name) hb), rfl⟩
    | invokeOn name p => exact ⟨_, .cons (.text text) (.cons (.invokeOn name p) hb), rfl⟩
    | branch p hbody htail => exact ⟨_, .cons (.text text) (.cons (.branch p hbody htail) hb), rfl⟩

theorem MergesBlock.cons (h : s.Spelled pieces) (hs : MergesStmt s pieces)
    (hb : MergesBlock b pieces') : MergesBlock (s :: b) (pieces ++ pieces') := by
  intro rest hrest
  obtain ⟨behind, hbehind, hmerge⟩ := hb rest hrest
  by_cases htext : ∃ id t, s = .text id t
  · obtain ⟨id, t, rfl⟩ := htext
    cases h
    obtain ⟨joined, hjoined, hjoin⟩ := hbehind.joinText t hrest
    refine ⟨joined, hjoined, ?_⟩
    rw [List.singleton_append, List.cons_append, mergePieces_cons, hmerge, hjoin]
  · have hother : ∀ id t, s ≠ .text id t := fun id t h => htext ⟨id, t, h⟩
    obtain ⟨front, hfront, hmerge'⟩ := hs hother (pieces' ++ rest)
    refine ⟨front ++ behind, ?_, ?_⟩
    · rw [blockMergeTexts, FlatTemplate.joinText]
      · exact .cons hfront hbehind
      · exact fun id t _ _ _ heq _ => mergeTexts_ne_text hother id t heq
    · rw [List.append_assoc, hmerge', hmerge, List.append_assoc]

theorem Stmt.Spelled.merges (h : s.Spelled pieces) : MergesStmt s pieces :=
  @Stmt.Spelled.rec (fun s pieces _ => MergesStmt s pieces)
    (fun kind b pieces _ => MergesTail kind b pieces) (fun b pieces _ => MergesBlock b pieces)
    (fun _ htext => absurd rfl (htext () _)) (fun p => .of_action (.action p))
    (fun name => .of_action (.invoke name)) (fun name p => .of_action (.invokeOn name p))
    (fun p _ _ => .branch p) .finish (fun kind _ => .otherwise kind)
    (fun hkind p _ _ => .chained hkind p) .nil (fun h _ => .cons h) s pieces h

theorem BlockSpelled.merges (h : BlockSpelled b pieces) : MergesBlock b pieces := by
  induction b generalizing pieces with
  | nil =>
    cases h
    exact .nil
  | cons s b ih =>
    cases h with
    | cons hs hb => exact .cons hs hs.merges (ih hb)

theorem BlockSpelled.mergeTexts (h : BlockSpelled b pieces) :
    BlockSpelled (blockMergeTexts b) (mergePieces pieces) := by
  obtain ⟨pieces', hpieces', hmerge⟩ := h.merges [] (by simp [mergePieces])
  rw [List.append_nil] at hmerge
  rw [hmerge]
  simpa [mergePieces] using hpieces'

end Merging

namespace Lexer

theorem kinds_phrase_ne_nil {phrase : Phrase} (h : phrase.Legible) : phrase.kinds ≠ [] := by
  match phrase, h with
  | .word _, _ | .name _, _ => exact List.cons_ne_nil _ _
  | .pipe p, ⟨_, hp⟩ => exact kinds_pipe_ne_nil hp

theorem cuts_phrase {phrase : Phrase} (h : phrase.Legible) {rest : List Char}
    (hrest : Stops rest) : Cuts (phrase.print ++ rest) phrase.kinds rest := by
  match phrase, h with
  | .word word, _ => exact .single (lexes_keyword hrest)
  | .name name, _ => exact .single (lexes_literal name rest)
  | .pipe p, ⟨_, hp⟩ => exact cuts_pipe hp hrest

theorem cuts_phrases {phrases : List Phrase} (hne : phrases ≠ [])
    (h : ∀ phrase ∈ phrases, phrase.Legible) {rest : List Char} (hrest : Stops rest) :
    Cuts (printPhrases phrases ++ rest) (phraseKinds phrases) rest ∧ phraseKinds phrases ≠ [] := by
  induction phrases with
  | nil => exact absurd rfl hne
  | cons phrase phrases ih =>
    obtain ⟨hphrase, hphrases⟩ := List.forall_mem_cons.mp h
    refine ⟨?_, List.append_ne_nil_of_left_ne_nil (kinds_phrase_ne_nil hphrase) _⟩
    cases phrases with
    | nil =>
      rw [phraseKinds, List.flatMap_singleton]
      exact cuts_phrase hphrase hrest
    | cons phrase' phrases =>
      obtain ⟨hcuts, hkinds⟩ := ih (List.cons_ne_nil _ _) hphrases
      have hfirst := cuts_phrase hphrase (stops_cons (c := ' ') (by decide)
        (printPhrases (phrase' :: phrases) ++ rest))
      rw [printPhrases, List.append_assoc]
      · exact hfirst.append (hcuts.spaced hkinds)
      · nofun

theorem withText_pieceKinds {s : String} (hs : s ≠ "") (pieces : List Piece) :
    withText s.toList (pieceKinds pieces) = pieceKinds (joinPiece (.text s) pieces) := by
  obtain ⟨c, cs, hcs⟩ := List.exists_cons_of_ne_nil (mt String.toList_eq_nil_iff.mp hs)
  have hspelling : String.ofList (c :: cs) = s := by rw [← hcs, String.ofList_toList]
  rw [hcs]
  match pieces with
  | [] => exact congrArg (fun s => [TokenKind.text s]) hspelling
  | .text s' :: pieces =>
    exact congrArg (fun s => TokenKind.text (s ++ s') :: pieceKinds pieces) hspelling
  | .action phrases :: pieces =>
    exact congrArg (fun s => TokenKind.text s :: pieceKinds (.action phrases :: pieces)) hspelling

theorem scans_pieces {pieces : List Piece} (h : ∀ piece ∈ pieces, piece.Legible) :
    Scans (printPieces pieces) (pieceKinds (mergePieces pieces)) := by
  induction pieces with
  | nil => exact .done
  | cons piece pieces ih =>
    obtain ⟨hpiece, hpieces⟩ := List.forall_mem_cons.mp h
    cases piece with
    | text s =>
      obtain ⟨hs, hinside, hlast⟩ := hpiece
      rw [mergePieces_cons, ← withText_pieceKinds hs]
      exact .text (opensIn_eq_false hinside hlast _) (ih hpieces)
    | action phrases =>
      obtain ⟨hcuts, hne⟩ := cuts_phrases hpiece.1 hpiece.2 (stops_closing (printPieces pieces))
      exact scans_action hcuts hne (ih hpieces)

end Lexer

theorem Source.parse_spelled {b : Block Untagged} {pieces : List Piece} (h : BlockSpelled b pieces)
    (hlegible : BlockLegible b) (htexts : ∀ text ∈ blockTexts b, OpensNothing text) :
    Source.parse (String.ofList (printPieces pieces)) = .ok ⟨blockMergeTexts b, []⟩ := by
  obtain ⟨ts, htokens, hkinds⟩ :=
    (Lexer.scans_pieces (h.legible hlegible htexts)).tokensFrom [] rfl
  have hsource := Parser.source_spelled (Parser.spelled_main h.mergeTexts) hlegible.mergeTexts
    (List.forall_mem_nil _) hkinds
  rw [List.nil_append] at htokens
  rw [Source.parse, String.toList_ofList, Lexer.tokens, htokens, ok_bind, hsource]

theorem TemplateSet.parse_main {text : String} {b : Block Untagged}
    (h : Source.parse text = .ok ⟨b, []⟩) (name : String) :
    TemplateSet.parse name text = .ok { main := .ofBlock name b } := by
  rw [TemplateSet.parse, h]
  rfl

theorem Tree.parsed_main {text : String} {b : Block Untagged}
    (h : Source.parse text = .ok ⟨b, []⟩) (name : String) : (Tree.ofBlock name b).Parsed :=
  ⟨name, text, _, TemplateSet.parse_main h name, List.mem_cons_self⟩

end FlatTemplate

import FlatTemplate.Proofs.Parser.Building
import FlatTemplate.Proofs.Printing.Exact
import FlatTemplate.Proofs.Printing.Spelling

/-!
Trim markers, the blank space that they take away, and comments beside them are layout. Where no
text begins or ends with blank space, each delimiter of a printed template may have them or not, and
what is read is the template.
-/

namespace FlatTemplate

open Text

structure Margin where
  comments : List (List Char) := []
  blank? : Option (List Char) := none

def printComment (comment : List Char) : List Char :=
  '{' :: '{' :: '/' :: '*' :: (comment ++ ['*', '/', '}', '}'])

namespace Margin

structure Sound (margin : Margin) : Prop where
  comments : ∀ comment ∈ margin.comments, ¬['*', '/'] <:+: comment
  blank : ∀ blank ∈ margin.blank?, ∀ c ∈ blank, isBlank c

def opening (margin : Margin) : List Char :=
  margin.comments.flatMap printComment ++
    match margin.blank? with
    | none => ['{', '{']
    | some blank => blank ++ ['{', '{', '-', ' ']

def closing (margin : Margin) : List Char :=
  (match margin.blank? with
    | none => ['}', '}']
    | some blank => [' ', '-', '}', '}'] ++ blank) ++
  margin.comments.flatMap printComment

end Margin

/-- The pieces stand in the source with a margin of its own at each of their delimiters. -/
inductive LaidOut : List Piece → List Char → Prop
  | nil : LaidOut [] []
  | text {pieces : List Piece} {cs : List Char} (text : String) :
    LaidOut pieces cs → LaidOut (.text text :: pieces) (text.toList ++ cs)
  | action {pieces : List Piece} {cs : List Char} (phrases : List Phrase) {front back : Margin} :
    front.Sound → back.Sound → LaidOut pieces cs →
    LaidOut (.action phrases :: pieces)
      (front.opening ++ (printPhrases phrases ++ (back.closing ++ cs)))

theorem laidOut_printPieces (pieces : List Piece) : LaidOut pieces (printPieces pieces) := by
  induction pieces with
  | nil => exact .nil
  | cons piece pieces ih =>
    cases piece with
    | text text => exact .text text ih
    | action phrases =>
      have hnone : Margin.Sound {} := ⟨List.forall_mem_nil _, nofun⟩
      have haction := LaidOut.action phrases hnone hnone ih
      simpa [Margin.opening, Margin.closing, Piece.print, printAction] using haction

def Tight (text : List Char) : Prop :=
  (∀ c ∈ text.head?, isBlank c = false) ∧ ∀ c ∈ text.getLast?, isBlank c = false

theorem tight_nil : Tight [] := ⟨nofun, nofun⟩

theorem Tight.append {text text' : List Char} (h : Tight text) (h' : Tight text') :
    Tight (text ++ text') := by
  constructor
  · intro c hc
    cases text with
    | nil => exact h'.1 c hc
    | cons d text => exact h.1 c hc
  · intro c hc
    rw [List.getLast?_append, Option.mem_def, Option.or_eq_some_iff] at hc
    rcases hc with hc | ⟨-, hc⟩
    · exact h'.2 c hc
    · exact h.2 c hc

namespace Lexer

variable {text blank blank' : List Char}

theorem trimStart_blank (h : ∀ c ∈ blank, isBlank c) (cs : List Char) :
    trimStart (blank ++ cs) = trimStart cs :=
  List.dropWhile_append_of_pos h

theorem trimStart_tight (h : Tight text) (hne : text ≠ []) (cs : List Char) :
    trimStart (text ++ cs) = text ++ cs := by
  cases text with
  | nil => exact absurd rfl hne
  | cons c text => exact List.dropWhile_cons_of_neg (by simp [h.1 c rfl])

theorem trimEnd_blank (htext : Tight text) (h : ∀ c ∈ blank, isBlank c) :
    trimEnd (text ++ blank) = text := by
  have hreverse : ∀ c ∈ blank.reverse, isBlank c := fun c hc => h c (List.mem_reverse.mp hc)
  have hdrop : text.reverse.dropWhile isBlank = text.reverse := by
    cases hlast : text.reverse with
    | nil => rfl
    | cons c rest =>
      have hc : text.getLast? = some c := by rw [← List.head?_reverse, hlast]; rfl
      exact List.dropWhile_cons_of_neg (by simp [htext.2 c hc])
  rw [trimEnd, List.reverse_append, List.dropWhile_append_of_pos hreverse, hdrop,
    List.reverse_reverse]

theorem trimmed_tight (htext : Tight text) {front back : Bool} (hblank : ∀ c ∈ blank, isBlank c)
    (hblank' : ∀ c ∈ blank', isBlank c) (hfront : front = false → blank = [])
    (hback : back = false → blank' = []) :
    trimmed front back (blank ++ text ++ blank') = text := by
  -- Of an empty text nothing marks the end of the blank space in front: that behind it goes too.
  have hstart : trimStart (blank ++ text ++ blank') = text ++ blank' ∨
      trimStart (blank ++ text ++ blank') = [] ∧ text = [] := by
    rw [List.append_assoc, trimStart_blank hblank]
    by_cases hne : text = []
    · subst hne
      rw [List.nil_append, ← List.append_nil blank', trimStart_blank hblank']
      exact Or.inr ⟨rfl, rfl⟩
    · exact Or.inl (trimStart_tight htext hne blank')
  have hend : trimmed false back (text ++ blank') = text := by
    cases back with
    | false => rw [hback rfl, List.append_nil]; rfl
    | true => exact trimEnd_blank htext hblank'
  cases front with
  | false => rw [hfront rfl]; exact hend
  | true =>
    have hunfold : ∀ cs, trimmed true back cs = trimmed false back (trimStart cs) := fun _ => rfl
    rw [hunfold]
    rcases hstart with hstart | ⟨hstart, rfl⟩
    · rw [hstart, hend]
    · rw [hstart]
      cases back <;> rfl

def Inert (text : List Char) : Prop := ∀ after, opensIn text after = false

theorem inert_blank (h : ∀ c ∈ blank, isBlank c) : Inert blank := by
  intro after
  induction blank with
  | nil => rfl
  | cons c blank ih =>
    have hc : c ≠ '{' := by
      rintro rfl
      exact absurd (h '{' List.mem_cons_self) (by decide)
    rw [opensIn, ih fun d hd => h d (List.mem_cons_of_mem _ hd)]
    simp [hc]

theorem Inert.append {text' : List Char} (h : Inert text) (h' : Inert text') :
    Inert (text ++ text') :=
  fun after => opensIn_append (h (text' ++ after)) (h' after)

theorem Inert.splitAtOpening (h : Inert text) (inner : List Char) :
    splitAtOpening (text ++ '{' :: '{' :: inner) = (text, some inner) := by
  rw [splitAtOpening_append (h _), Lexer.splitAtOpening, List.append_nil]

def Goes (cs : List Char) (kinds : List TokenKind) : Prop :=
  ∀ (trim : Bool) (blank text : List Char), (∀ c ∈ blank, isBlank c) →
    (trim = false → blank = []) → Tight text → Inert text →
      ∃ ts, tokensFrom trim (blank ++ text ++ cs) = .ok ts ∧
        ts.map Token.kind = withText text kinds

def GoesOn (cs : List Char) (kinds : List TokenKind) : Prop :=
  ∀ (trim : Bool) (blank : List Char), (∀ c ∈ blank, isBlank c) → (trim = false → blank = []) →
    ∃ ts, tokensFrom trim (blank ++ cs) = .ok ts ∧ ts.map Token.kind = kinds

theorem Goes.goesOn {cs : List Char} {kinds : List TokenKind} (h : Goes cs kinds) :
    GoesOn cs kinds := by
  intro trim blank hblank htrim
  obtain ⟨ts, htokens, hkinds⟩ := h trim blank [] hblank htrim tight_nil fun _ => rfl
  rw [List.append_nil] at htokens
  exact ⟨ts, htokens, hkinds⟩

theorem goes_nil : Goes [] [] := by
  intro trim blank text hblank htrim htext hinert
  have hsplit := splitAtOpening_append ((inert_blank hblank).append hinert [])
  refine ⟨_, tokensFrom_text hsplit, ?_⟩
  have htrimmed : trimmed trim false (blank ++ text ++ []) = text :=
    trimmed_tight htext hblank (List.forall_mem_nil _) htrim fun _ => rfl
  rw [map_kind_textToken, splitAtOpening, htrimmed]

theorem Goes.append {cs : List Char} {kinds : List TokenKind} {s : List Char} (h : Goes cs kinds)
    (hs : Tight s) (hinert : Inert s) : Goes (s ++ cs) (withText s kinds) := by
  intro trim blank text hblank htrim htext hinert'
  obtain ⟨ts, htokens, hkinds⟩ :=
    h trim blank (text ++ s) hblank htrim (htext.append hs) (hinert'.append hinert)
  rw [withText_withText]
  simp only [List.append_assoc] at htokens ⊢
  exact ⟨ts, htokens, hkinds⟩

theorem afterComment?_append {comment : List Char} (h : ¬['*', '/'] <:+: comment)
    (rest : List Char) : afterComment? (comment ++ '*' :: '/' :: rest) = some rest := by
  induction comment with
  | nil => rfl
  | cons c comment ih =>
    have htail : ¬['*', '/'] <:+: comment := fun hin =>
      h (hin.trans (List.suffix_cons c comment).isInfix)
    rw [List.cons_append, afterComment?]
    · exact ih htail
    · rintro rest' rfl hrest
      cases comment with
      | nil => cases (List.cons.inj hrest).1
      | cons d comment =>
        obtain ⟨rfl, -⟩ := List.cons.inj hrest
        exact h (List.prefix_append ['*', '/'] comment).isInfix

theorem GoesOn.comment {cs : List Char} {kinds : List TokenKind} (h : GoesOn cs kinds)
    {comment : List Char} (hcomment : ¬['*', '/'] <:+: comment) {trim : Bool}
    {blank text : List Char} (hblank : ∀ c ∈ blank, isBlank c) (htrim : trim = false → blank = [])
    (htext : Tight text) (hinert : Inert text) :
    ∃ ts, tokensFrom trim (blank ++ text ++ (printComment comment ++ cs)) = .ok ts ∧
      ts.map Token.kind = withText text [] ++ kinds := by
  obtain ⟨ts, htokens, hkinds⟩ := h false [] (List.forall_mem_nil _) fun _ => rfl
  have hprint : printComment comment ++ cs =
      '{' :: '{' :: '/' :: '*' :: (comment ++ '*' :: '/' :: '}' :: '}' :: cs) := by
    simp [printComment]
  have hsplit := ((inert_blank hblank).append hinert).splitAtOpening
    ('/' :: '*' :: (comment ++ '*' :: '/' :: '}' :: '}' :: cs))
  have htrimmed : trimmed trim false (blank ++ text ++ []) = text :=
    trimmed_tight htext hblank (List.forall_mem_nil _) htrim fun _ => rfl
  rw [List.append_nil] at htrimmed
  rw [hprint]
  refine ⟨_, tokensFrom_comment hsplit (afterComment?_append hcomment _) rfl htokens, ?_⟩
  rw [List.map_append, map_kind_textToken, htrimmed, hkinds]

theorem GoesOn.comments {cs : List Char} {kinds : List TokenKind} (h : GoesOn cs kinds)
    {comments : List (List Char)} (hcomments : ∀ comment ∈ comments, ¬['*', '/'] <:+: comment) :
    GoesOn (comments.flatMap printComment ++ cs) kinds := by
  induction comments with
  | nil => exact h
  | cons comment comments ih =>
    obtain ⟨hcomment, hcomments⟩ := List.forall_mem_cons.mp hcomments
    intro trim blank hblank htrim
    obtain ⟨ts, htokens, hkinds⟩ :=
      (ih hcomments).comment hcomment hblank htrim tight_nil fun _ => rfl
    rw [List.append_nil, ← List.append_assoc (printComment comment)] at htokens
    exact ⟨ts, htokens, hkinds⟩

theorem Goes.comments {cs : List Char} {kinds : List TokenKind} (h : Goes cs kinds)
    (hkinds : ∀ text, withText text kinds = withText text [] ++ kinds)
    {comments : List (List Char)} (hcomments : ∀ comment ∈ comments, ¬['*', '/'] <:+: comment) :
    Goes (comments.flatMap printComment ++ cs) kinds := by
  cases comments with
  | nil => exact h
  | cons comment comments =>
    obtain ⟨hcomment, hcomments⟩ := List.forall_mem_cons.mp hcomments
    intro trim blank text hblank htrim htext hinert
    obtain ⟨ts, htokens, hts⟩ :=
      (h.goesOn.comments hcomments).comment hcomment hblank htrim htext hinert
    rw [← List.append_assoc (printComment comment), ← hkinds] at *
    exact ⟨ts, htokens, hts⟩

theorem withText_actionKinds (text : List Char) (inside kinds : List TokenKind) :
    withText text (actionKinds inside ++ kinds) =
      withText text [] ++ (actionKinds inside ++ kinds) := by
  cases text <;> rfl

theorem closing?_margin {margin : Margin} (h : margin.Sound) (cs : List Char) :
    ∃ trims blank, closing? (margin.closing ++ cs) =
        some (trims, blank ++ (margin.comments.flatMap printComment ++ cs)) ∧
      (∀ c ∈ blank, isBlank c) ∧ (trims = false → blank = []) := by
  obtain ⟨comments, blank?⟩ := margin
  cases blank? with
  | none => exact ⟨false, [], rfl, List.forall_mem_nil _, fun _ => rfl⟩
  | some blank =>
    refine ⟨true, blank, ?_, h.blank blank rfl, nofun⟩
    simp [Margin.closing, closing?, isMarkerSpace]

theorem stops_margin (margin : Margin) (cs : List Char) : Stops (margin.closing ++ cs) := by
  obtain ⟨comments, blank?⟩ := margin
  cases blank? <;> exact stops_cons (by decide) _

section Action

variable {cs inner inside close after : List Char} {kinds kinds' : List TokenKind} {trims : Bool}
  (hcuts : Cuts inside kinds close) (hne : kinds ≠ [])
  (hclose : closing? close = some (trims, after))
  (hafter : ∃ ts, tokensFrom trims after = .ok ts ∧ ts.map Token.kind = kinds')
include hcuts hne hclose hafter

theorem goes_delimiter (hinside : (if opensTrimming inner then inner.drop 2 else inner) = inside)
    (hblank' : ∀ c ∈ blank', isBlank c) (hback : opensTrimming inner = false → blank' = []) :
    Goes (blank' ++ '{' :: '{' :: inner) (actionKinds kinds ++ kinds') := by
  intro trim blank text hblank htrim htext hinert
  obtain ⟨ts', htokens', hkinds'⟩ := hafter
  obtain ⟨ts, h', haction, hkinds⟩ := hcuts.actionTokens ('{' :: '{' :: inner) hclose
  have hsplit := (((inert_blank hblank).append hinert).append (inert_blank hblank')).splitAtOpening
    inner
  have htrimmed := trimmed_tight htext hblank hblank' htrim hback
  rw [← List.append_assoc]
  refine ⟨_, tokensFrom_action hsplit hinside (hcuts.untrimmed hne).2 haction htokens', ?_⟩
  rw [htrimmed, withText_actionKinds, List.map_append, List.map_append, List.map_cons, hkinds,
    hkinds', map_kind_textToken, List.append_assoc]
  rfl

theorem goes_plain : Goes ('{' :: '{' :: inside) (actionKinds kinds ++ kinds') := by
  have hplain := (hcuts.untrimmed hne).1
  refine goes_delimiter hcuts hne hclose hafter ?_ (List.forall_mem_nil _) fun _ => rfl
  rw [hplain]
  rfl

theorem goes_trimming (hblank : ∀ c ∈ blank, isBlank c) :
    Goes (blank ++ '{' :: '{' :: '-' :: ' ' :: inside) (actionKinds kinds ++ kinds') :=
  goes_delimiter hcuts hne hclose hafter rfl hblank nofun

end Action

theorem GoesOn.action {cs : List Char} {kinds : List TokenKind} (h : GoesOn cs kinds)
    {phrases : List Phrase} (hlegible : (Piece.action phrases).Legible) {front back : Margin}
    (hfront : front.Sound) (hback : back.Sound) :
    Goes (front.opening ++ (printPhrases phrases ++ (back.closing ++ cs)))
      (actionKinds (phraseKinds phrases) ++ kinds) := by
  obtain ⟨hcuts, hne⟩ := cuts_phrases hlegible.1 hlegible.2 (stops_margin back cs)
  obtain ⟨trims, blank, hclose, hblank, htrims⟩ := closing?_margin hback cs
  have hafter := h.comments hback.comments trims blank hblank htrims
  obtain ⟨comments, blank?⟩ := front
  cases blank? with
  | none =>
    have hgoes := (goes_plain hcuts hne hclose hafter).comments
      (fun text => withText_actionKinds text _ _) hfront.comments
    simpa [Margin.opening] using hgoes
  | some blank' =>
    have hgoes := (goes_trimming hcuts hne hclose hafter (hfront.blank blank' rfl)).comments
      (fun text => withText_actionKinds text _ _) hfront.comments
    simpa [Margin.opening] using hgoes

theorem goes_laidOut {pieces : List Piece} {cs : List Char} (h : LaidOut pieces cs)
    (hlegible : ∀ piece ∈ pieces, piece.Legible)
    (htight : ∀ text, .text text ∈ pieces → Tight text.toList) :
    Goes cs (pieceKinds (mergePieces pieces)) := by
  induction h with
  | nil => exact goes_nil
  | @text pieces cs text _ ih =>
    obtain ⟨⟨hne, hinside, hlast⟩, hpieces⟩ := List.forall_mem_cons.mp hlegible
    have hgoes := ih hpieces fun t ht => htight t (List.mem_cons_of_mem _ ht)
    rw [mergePieces_cons, ← withText_pieceKinds hne]
    exact hgoes.append (htight text List.mem_cons_self) (opensIn_eq_false hinside hlast)
  | action phrases hfront hback _ ih =>
    obtain ⟨hpiece, hpieces⟩ := List.forall_mem_cons.mp hlegible
    have hgoes := ih hpieces fun t ht => htight t (List.mem_cons_of_mem _ ht)
    exact hgoes.goesOn.action hpiece hfront hback

end Lexer

theorem Source.parse_of_laidOut {b : Block Untagged} {pieces : List Piece} {cs : List Char}
    (h : BlockSpelled b pieces) (hlegible : BlockLegible b)
    (htexts : ∀ text ∈ blockTexts b, OpensNothing text ∧ Tight text.toList)
    (hlaid : LaidOut pieces cs) :
    Source.parse (String.ofList cs) = .ok ⟨blockMergeTexts b, []⟩ := by
  have hpieces := h.legible hlegible fun text ht => (htexts text ht).1
  have htight : ∀ text, .text text ∈ pieces → Tight text.toList := by
    intro text ht
    have hmem := mem_pieceTexts ht
    rw [h.texts] at hmem
    exact (htexts text hmem).2
  obtain ⟨ts, htokens, hkinds⟩ := Lexer.goes_laidOut hlaid hpieces htight false [] []
    (List.forall_mem_nil _) (fun _ => rfl) tight_nil fun _ => rfl
  have hsource := Parser.source_spelled (Parser.spelled_main h.mergeTexts) hlegible.mergeTexts
    (List.forall_mem_nil _) hkinds
  rw [List.nil_append, List.nil_append] at htokens
  rw [Source.parse, String.toList_ofList, Lexer.tokens, htokens, ok_bind, hsource]

namespace Tree

variable {t : Tree} {b : Block Untagged}

theorem Parsed.eq_ofBlock (h : t.Parsed) (hread : t.Reads b) :
    t = .ofBlock t.name b ∧ BlockLegible b ∧ ∀ text ∈ blockTexts b, Undelimited text.toList := by
  obtain ⟨name, b', ⟨hlegible, htexts⟩, rfl⟩ := h.spelled
  obtain ⟨read, hb, rfl⟩ := hread
  obtain ⟨read', herase, -, hholds⟩ := holds_ofBlock name hlegible.pipes
  obtain rfl := Except.ok.inj (hholds.read.symm.trans hb)
  rw [blockErase_untagged] at herase
  rw [herase, name_ofBlock]
  exact ⟨rfl, hlegible, htexts⟩

/-- The text of a tree that was read from source, in which no texts stand side by side and none has
blank space at its ends or a brace at its end, is read back as the tree in each of its layouts. -/
theorem parse_laidOut (h : t.Parsed) (hread : t.Reads b) (hparted : BlockTextsParted b)
    (htexts : ∀ text ∈ blockTexts b, Tight text.toList ∧ text.toList.getLast? ≠ some '{') :
    (∃ cs, t.text = .ok (String.ofList cs) ∧ cs = printPieces (blockPieces b) ∧
      LaidOut (blockPieces b) cs) ∧
      ∀ cs, LaidOut (blockPieces b) cs →
        TemplateSet.parse t.name (String.ofList cs) = .ok { main := t } := by
  obtain ⟨ht, hlegible, hundelimited⟩ := h.eq_ofBlock hread
  constructor
  · refine ⟨_, ?_, rfl, laidOut_printPieces _⟩
    obtain ⟨read, hb, rfl⟩ := hread
    rw [printPieces_blockPieces, printBlock_erase, Tree.text, hb]
    rfl
  · intro cs hlaid
    have hparse := Source.parse_of_laidOut (spelled_pieces b) hlegible
      (fun text hmem => ⟨⟨hundelimited text hmem, (htexts text hmem).2⟩, (htexts text hmem).1⟩) hlaid
    rw [hparted.mergeTexts] at hparse
    have hset := TemplateSet.parse_main hparse t.name
    rwa [← ht] at hset

def tightPipe (name : String) : Pipe Untagged :=
  .mk () [] [.mk () (.atom () (.field [name])) []]

def tightBlock : Block Untagged :=
  [.text () "a", .branch () .cond (tightPipe "A")
    [.action () (tightPipe "B"), .text () "b c"] [], .text () "*/"]

theorem parse_tightBlock : Source.parse ("a" ++ delimited "if .A" ++ delimited ".B" ++ "b c" ++
    delimited "end" ++ "*/") = .ok ⟨tightBlock, []⟩ := by cbv

def wideMargin : Margin := ⟨[['*'], ['\x7b', '\x7b', '/'], []], some ['\n', ' ', '\u3000']⟩

theorem sound_wideMargin : wideMargin.Sound := by
  refine ⟨by decide, ?_⟩
  simp only [wideMargin, Option.mem_def, Option.some.injEq, forall_eq', List.forall_mem_cons]
  exact ⟨by decide, by decide, by decide, List.forall_mem_nil _⟩

def wideText : List Char :=
  ['a'] ++ (wideMargin.opening ++ ("if .A".toList ++ (wideMargin.closing ++
    (wideMargin.opening ++ (".B".toList ++ (Margin.closing {} ++ ("b c".toList ++
      (wideMargin.opening ++ ("end".toList ++ (Margin.closing {} ++ ("*/".toList ++ [])))))))))))

theorem laidOut_wideText : LaidOut (blockPieces tightBlock) wideText := by
  have hplain : Margin.Sound {} := ⟨List.forall_mem_nil _, nofun⟩
  have hwide := sound_wideMargin
  exact .text "a" (.action [.word (.branch .cond), .pipe (tightPipe "A")] hwide hwide
    (.action [.pipe (tightPipe "B")] hwide hplain (.text "b c"
      (.action [.word .finish] hwide hplain (.text "*/" .nil)))))

theorem parse_laidOut_wideText :
    (ofBlock "" tightBlock).Parsed ∧ (ofBlock "" tightBlock).Reads tightBlock ∧
      BlockTextsParted tightBlock ∧
      (∀ text ∈ blockTexts tightBlock, Tight text.toList ∧ text.toList.getLast? ≠ some '{') ∧
      TemplateSet.parse "" (String.ofList wideText) = .ok { main := ofBlock "" tightBlock } := by
  have hparsed := parsed_main parse_tightBlock ""
  obtain ⟨b, herase, -, hholds⟩ :=
    holds_ofBlock "" (Source.parse_legible parse_tightBlock).1.pipes
  rw [blockErase_untagged] at herase
  have hreads : (ofBlock "" tightBlock).Reads tightBlock := ⟨b, hholds.read, herase⟩
  have hparted : BlockTextsParted tightBlock := by
    simp [tightBlock, BlockTextsParted, Stmt.TextsParted, Stmt.isText]
  have htexts : ∀ text ∈ blockTexts tightBlock,
      Tight text.toList ∧ text.toList.getLast? ≠ some '{' := by
    have hlist : blockTexts tightBlock = ["a", "b c", "*/"] := by cbv
    simp only [hlist, Tight, List.forall_mem_cons]
    simp
    decide
  have hparse := (parse_laidOut hparsed hreads hparted htexts).2 wideText laidOut_wideText
  rw [name_ofBlock] at hparse
  exact ⟨hparsed, hreads, hparted, htexts, hparse⟩

end Tree

end FlatTemplate

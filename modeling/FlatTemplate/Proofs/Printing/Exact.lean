import FlatTemplate.Proofs.Printing.RoundTrip

namespace FlatTemplate

variable {ι : NodeKind → Type}

namespace Stmt

def isText : Stmt ι → Bool
  | .text _ _ => true
  | _ => false

end Stmt

mutual

def Stmt.TextsApart : Stmt ι → Prop
  | .text _ s => ¬['{', '{'] <:+: s.toList ∧ s.toList.getLast? ≠ some '{'
  | .branch _ _ _ body elseBody => BlockTextsApart body ∧ BlockTextsApart elseBody
  | _ => True

/-- No text contains an opening delimiter, ends in an opening brace or stands next to another. -/
def BlockTextsApart : Block ι → Prop
  | [] => True
  | s :: rest =>
    s.TextsApart ∧ (s.isText → ∀ next ∈ rest.head?, next.isText = false) ∧ BlockTextsApart rest

end

theorem opensIn_eq_false {text : List Char} (hinside : ¬['{', '{'] <:+: text)
    (hlast : text.getLast? ≠ some '{') (after : List Char) : opensIn text after = false := by
  induction text with
  | nil => rfl
  | cons c text ih =>
    have htail : ¬['{', '{'] <:+: text := fun h => hinside (h.trans (List.suffix_cons c text).isInfix)
    rw [opensIn]
    cases text with
    | nil =>
      have hc : c ≠ '{' := fun h => hlast (by rw [h]; rfl)
      simp [opensIn, hc]
    | cons d text =>
      rw [List.getLast?_cons_cons] at hlast
      rw [ih htail hlast, Bool.or_false]
      have hfront : ¬(c = '{' ∧ d = '{') := by
        rintro ⟨rfl, rfl⟩
        apply hinside
        exact (List.prefix_append ['{', '{'] text).isInfix
      simpa using hfront

mutual

theorem Stmt.separated_of_textsApart {s : Stmt ι} (h : s.TextsApart) (after : List Char) :
    s.separated after = true := by
  match s with
  | .text _ s =>
    rw [Stmt.separated, opensIn_eq_false h.1 h.2]
    rfl
  | .branch _ _ _ body elseBody =>
    rw [Stmt.separated, separated_of_textsApart h.1, separated_of_textsApart h.2]
    rfl
  | .action .. | .invoke .. => rfl

theorem separated_of_textsApart {b : Block ι} (h : BlockTextsApart b) (after : List Char) :
    blockSeparated b after = true := by
  cases b with
  | nil => rfl
  | cons s b =>
    rw [blockSeparated, s.separated_of_textsApart h.1, separated_of_textsApart h.2.2]
    rfl

end

theorem joinText_of_apart {s : Stmt ι} {b : Block ι}
    (h : s.isText → ∀ next ∈ b.head?, next.isText = false) : joinText s b = s :: b := by
  unfold joinText
  split
  · next id t id' t' b =>
    have : (Stmt.text id' t').isText = false := h rfl _ rfl
    cases this
  · rfl

mutual

def Stmt.TextsParted : Stmt ι → Prop
  | .branch _ _ _ body elseBody => BlockTextsParted body ∧ BlockTextsParted elseBody
  | _ => True

def BlockTextsParted : Block ι → Prop
  | [] => True
  | s :: rest =>
    s.TextsParted ∧ (s.isText → ∀ next ∈ rest.head?, next.isText = false) ∧ BlockTextsParted rest

end

mutual

theorem Stmt.TextsApart.parted {s : Stmt ι} (h : s.TextsApart) : s.TextsParted := by
  match s with
  | .branch _ _ _ body elseBody =>
    exact ⟨BlockTextsApart.parted h.1, BlockTextsApart.parted h.2⟩
  | .text .. | .action .. | .invoke .. => trivial

theorem BlockTextsApart.parted {b : Block ι} (h : BlockTextsApart b) : BlockTextsParted b := by
  cases b with
  | nil => trivial
  | cons s b => exact ⟨Stmt.TextsApart.parted h.1, h.2.1, BlockTextsApart.parted h.2.2⟩

end

mutual

theorem Stmt.TextsParted.mergeTexts {s : Stmt ι} (h : s.TextsParted) : s.mergeTexts = s := by
  match s with
  | .branch _ _ _ body elseBody =>
    rw [Stmt.mergeTexts, BlockTextsParted.mergeTexts h.1, BlockTextsParted.mergeTexts h.2]
  | .text .. | .action .. | .invoke .. => rfl

theorem BlockTextsParted.mergeTexts {b : Block ι} (h : BlockTextsParted b) :
    blockMergeTexts b = b := by
  cases b with
  | nil => rfl
  | cons s b =>
    rw [blockMergeTexts, Stmt.TextsParted.mergeTexts h.1, BlockTextsParted.mergeTexts h.2.2]
    exact joinText_of_apart h.2.1

end

theorem isNumberSpelling_iff (spelling : String) :
    isNumberSpelling spelling.toList = true ↔
      ∃ source ts, Lexer.tokens source = .ok ts ∧ ∃ token ∈ ts, token.kind = .number spelling := by
  constructor
  · intro h
    let number : Command Untagged := .mk () (.atom () (.number spelling)) []
    have hlegible : BlockLegible [.action () (.mk () [] [number])] := by
      refine ⟨⟨Nat.zero_le _, nofun, by simp, ⟨h, trivial⟩, trivial⟩, trivial⟩
    obtain ⟨ts, htokens, hkinds⟩ := Lexer.tokens_print hlegible rfl
    refine ⟨_, ts, htokens, ?_⟩
    have hmem : TokenKind.number spelling ∈ ts.map Token.kind := by
      have hspelled : blockKinds (blockMergeTexts [.action () (.mk () [] [number])]) =
          [.opening, .number spelling, .closing] := rfl
      rw [hkinds, hspelled]
      simp
    simpa using hmem
  · rintro ⟨source, ts, htokens, token, htoken, hkind⟩
    have := Lexer.tokensFrom_legible htokens token htoken
    exact this.2 (.number spelling) (by rw [hkind]; rfl)

namespace Tree

def Reads (t : Tree) (b : Block Untagged) : Prop := ∃ b', t.read = .ok b' ∧ blockErase b' = b

/-- A legible template in which texts do not meet can be stored, and the text of every store that
it is read from is read back as this template and nothing else. -/
theorem parse_text_of_textsApart {b : Block Untagged} (hlegible : BlockLegible b)
    (hapart : BlockTextsApart b) :
    (∀ name, (ofBlock name b).Reads b) ∧ ∀ t : Tree, t.Reads b →
      ∃ text, t.text = .ok text ∧
        ∀ name, TemplateSet.parse name text = .ok { main := .ofBlock name b } := by
  constructor
  · intro name
    obtain ⟨b', hb', -, hholds⟩ := holds_ofBlock name hlegible.pipes
    rw [blockErase_untagged] at hb'
    exact ⟨b', hholds.read, hb'⟩
  · rintro t ⟨b', hread, rfl⟩
    have hparse := Source.parse_print hlegible (separated_of_textsApart hapart [])
    rw [printBlock_erase, hapart.parted.mergeTexts] at hparse
    refine ⟨String.ofList (printBlock b'), ?_, ?_⟩
    · rw [Tree.text, hread]
      rfl
    · intro name
      rw [TemplateSet.parse, hparse]
      rfl

end Tree

def itemsLoop : Block Untagged :=
  [.text () "\x7b Items\n", .branch () .range
      (.mk () ["$i", "$"] [.mk () (.atom () (.field ["Items"])) []])
      [.action () (.mk () ["$x"] [.mk () (.atom () (.identifier "printf"))
          [.atom () (.str "\"\x01é"), .atom () (.number "-0x1p+3"), .paren () (.mk () []
            [.mk () (.atom () (.var ["$i", "end"])) [], .mk () (.atom () (.identifier "len")) []])]]),
        .text () " "]
      [.action () (.mk () [] [.mk () (.atom () .dot) []])],
    .invoke () "a\x7b\x7b" (some (.mk () [] [.mk () (.atom () (.bool true)) []])),
    .invoke () "b" none]

theorem parse_text_itemsLoop :
    (BlockLegible itemsLoop ∧ BlockTextsApart itemsLoop) ∧
      (Tree.ofBlock "main" itemsLoop).Reads itemsLoop ∧
      ∃ text, (Tree.ofBlock "main" itemsLoop).text = .ok text ∧
        TemplateSet.parse "copy" text = .ok { main := .ofBlock "copy" itemsLoop } := by
  have hlegible : BlockLegible itemsLoop := by
    simp only [itemsLoop, BlockLegible, Stmt.Legible, Pipe.Legible, CommandsLegible,
      Command.Legible, ArgsLegible, Expr.Legible, Atom.Legible, ne_eq, List.cons_ne_nil]
    decide
  have hapart : BlockTextsApart itemsLoop := by
    simp only [itemsLoop, BlockTextsApart, Stmt.TextsApart, Stmt.isText, List.head?_cons,
      Option.mem_some, List.head?_nil, forall_eq']
    decide
  obtain ⟨hreads, htext⟩ := Tree.parse_text_of_textsApart hlegible hapart
  obtain ⟨text, htext, hparse⟩ := htext _ (hreads "main")
  exact ⟨⟨hlegible, hapart⟩, hreads "main", text, htext, hparse "copy"⟩

end FlatTemplate

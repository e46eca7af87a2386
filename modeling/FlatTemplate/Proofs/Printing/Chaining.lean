import FlatTemplate.Proofs.Parser.Building
import FlatTemplate.Proofs.Printing.Spelling

namespace FlatTemplate

/-- A block that some source has: a template of it, or a body in one of its templates. -/
inductive Produced : Block Untagged → Prop
  | main {text : String} {source : Source} : Source.parse text = .ok source → Produced source.main
  | definition {text : String} {source : Source} {d : Definition} :
    Source.parse text = .ok source → d ∈ source.definitions → Produced d.body
  | body {b body elseBody : Block Untagged} {kind : BranchKind} {p : Pipe Untagged} :
    Produced b → Stmt.branch () kind p body elseBody ∈ b → Produced body
  | elseBody {b body elseBody : Block Untagged} {kind : BranchKind} {p : Pipe Untagged} :
    Produced b → Stmt.branch () kind p body elseBody ∈ b → Produced elseBody

def Governs (kind : BranchKind) (p : Pipe Untagged) : Prop :=
  ∃ b body elseBody, Produced b ∧ Stmt.branch () kind p body elseBody ∈ b

theorem BlockLegible.mem {b : Block Untagged} (h : BlockLegible b) {s : Stmt Untagged}
    (hs : s ∈ b) : s.Legible := by
  induction b with
  | nil => cases hs
  | cons s' b ih =>
    rcases List.mem_cons.mp hs with rfl | hs
    · exact h.1
    · exact ih h.2 hs

theorem blockTexts_subset {b : Block Untagged} {s : Stmt Untagged} (hs : s ∈ b) :
    blockTexts [s] ⊆ blockTexts b := by
  induction b with
  | nil => cases hs
  | cons s' b ih =>
    rw [blockTexts_cons s']
    rcases List.mem_cons.mp hs with rfl | hs
    · exact List.subset_append_left _ _
    · exact List.Subset.trans (ih hs) (List.subset_append_right _ _)

theorem Produced.spells {b : Block Untagged} (h : Produced b) :
    BlockLegible b ∧ ∀ text ∈ blockTexts b, Undelimited text.toList := by
  induction h with
  | main hparse => exact ⟨(Source.parse_legible hparse).1, (Source.parse_undelimited hparse).1⟩
  | definition hparse hd =>
    exact ⟨(Source.parse_legible hparse).2 _ hd, (Source.parse_undelimited hparse).2 _ hd⟩
  | body _ hs ih =>
    refine ⟨(ih.1.mem hs).2.1, fun text ht => ih.2 text (blockTexts_subset hs ?_)⟩
    rw [blockTexts_branch]
    exact List.mem_append_left _ ht
  | elseBody _ hs ih =>
    refine ⟨(ih.1.mem hs).2.2, fun text ht => ih.2 text (blockTexts_subset hs ?_)⟩
    rw [blockTexts_branch]
    exact List.mem_append_right _ ht

theorem Governs.legible {kind : BranchKind} {p : Pipe Untagged} (h : Governs kind p) :
    p.Legible (Parser.declLimit kind) := by
  obtain ⟨b, body, elseBody, hb, hs⟩ := h
  exact (hb.spells.1.mem hs).1

structure Body where
  block : Block Untagged
  pieces : List Piece

namespace Body

structure Printable (body : Body) : Prop where
  produced : Produced body.block
  brace : ∀ text ∈ blockTexts body.block, text.toList.getLast? ≠ some '{'
  spelled : BlockSpelled body.block body.pieces

def ofBlock (b : Block Untagged) : Body := ⟨b, blockPieces b⟩

theorem Printable.texts {body : Body} (h : body.Printable) :
    ∀ text ∈ blockTexts body.block, OpensNothing text :=
  fun text ht => ⟨h.produced.spells.2 text ht, h.brace text ht⟩

end Body

structure Link where
  pipe : Pipe Untagged
  body : Body

structure Link.Printable (kind : BranchKind) (link : Link) : Prop where
  pipe : Governs kind link.pipe
  body : link.body.Printable

section Chains

variable (kind : BranchKind)

def chainBlock : List Link → Option Body → Block Untagged
  | [], none => []
  | [], some last => last.block
  | link :: links, last =>
    [.branch () kind link.pipe link.body.block (chainBlock links last)]

def chainedTail : List Link → Option Body → List Piece
  | [], none => [.action [.word .finish]]
  | [], some last => .action [.word .otherwise] :: (last.pieces ++ [.action [.word .finish]])
  | link :: links, last =>
    .action [.word .otherwise, .word (.branch kind), .pipe link.pipe] ::
      (link.body.pieces ++ chainedTail links last)

def nestedTail : List Link → Option Body → List Piece
  | [], none => [.action [.word .finish]]
  | [], some last => .action [.word .otherwise] :: (last.pieces ++ [.action [.word .finish]])
  | link :: links, last =>
    .action [.word .otherwise] :: .action [.word (.branch kind), .pipe link.pipe] ::
      (link.body.pieces ++ nestedTail links last ++ [.action [.word .finish]])

def branchText (first : Link) (tail : List Piece) : String :=
  String.ofList (printPieces
    (.action [.word (.branch kind), .pipe first.pipe] :: (first.body.pieces ++ tail)))

variable {kind}

theorem spelled_last {last : Option Body} (h : ∀ body ∈ last, body.Printable) :
    TailSpelled kind (chainBlock kind [] last) (chainedTail kind [] last) := by
  cases last with
  | none => exact .finish kind
  | some last => exact .otherwise kind (h last rfl).spelled

theorem spelled_chained (hkind : kind ≠ .range) {links : List Link} {last : Option Body}
    (h : ∀ link ∈ links, link.Printable kind) (hlast : ∀ body ∈ last, body.Printable) :
    TailSpelled kind (chainBlock kind links last) (chainedTail kind links last) := by
  induction links with
  | nil => exact spelled_last hlast
  | cons link links ih =>
    obtain ⟨hlink, hlinks⟩ := List.forall_mem_cons.mp h
    exact .chained hkind link.pipe hlink.body.spelled (ih hlinks)

theorem spelled_nested {links : List Link} {last : Option Body}
    (h : ∀ link ∈ links, link.Printable kind) (hlast : ∀ body ∈ last, body.Printable) :
    TailSpelled kind (chainBlock kind links last) (nestedTail kind links last) := by
  induction links with
  | nil =>
    have hsame : nestedTail kind [] last = chainedTail kind [] last := by cases last <;> rfl
    rw [hsame]
    exact spelled_last hlast
  | cons link links ih =>
    obtain ⟨hlink, hlinks⟩ := List.forall_mem_cons.mp h
    have hbranch := Stmt.Spelled.branch link.pipe hlink.body.spelled (ih hlinks)
    have helse := TailSpelled.otherwise kind (.cons hbranch .nil)
    rwa [List.append_nil] at helse

theorem legible_chain {links : List Link} {last : Option Body}
    (h : ∀ link ∈ links, link.Printable kind) (hlast : ∀ body ∈ last, body.Printable) :
    BlockLegible (chainBlock kind links last) ∧
      ∀ text ∈ blockTexts (chainBlock kind links last), OpensNothing text := by
  induction links with
  | nil =>
    cases last with
    | none => exact ⟨trivial, List.forall_mem_nil _⟩
    | some last => exact ⟨(hlast last rfl).produced.spells.1, (hlast last rfl).texts⟩
  | cons link links ih =>
    obtain ⟨⟨hpipe, hbody⟩, hlinks⟩ := List.forall_mem_cons.mp h
    obtain ⟨hlegible, htexts⟩ := ih hlinks
    refine ⟨⟨⟨hpipe.legible, hbody.produced.spells.1, hlegible⟩, trivial⟩, ?_⟩
    rw [chainBlock, blockTexts_branch, List.forall_mem_append]
    exact ⟨hbody.texts, htexts⟩

theorem parse_branchText {first : Link} {elseBody : Block Untagged} {tail : List Piece}
    (hfirst : first.Printable kind) (htail : TailSpelled kind elseBody tail)
    (helse : BlockLegible elseBody) (htexts : ∀ text ∈ blockTexts elseBody, OpensNothing text)
    (name : String) :
    TemplateSet.parse name (branchText kind first tail) = .ok
      { main := .ofBlock name
          (blockMergeTexts [.branch () kind first.pipe first.body.block elseBody]) } := by
  have hspelled := BlockSpelled.cons
    (Stmt.Spelled.branch first.pipe hfirst.body.spelled htail) .nil
  have hlegible : BlockLegible [.branch () kind first.pipe first.body.block elseBody] :=
    ⟨⟨hfirst.pipe.legible, hfirst.body.produced.spells.1, helse⟩, trivial⟩
  have hparse := Source.parse_spelled hspelled hlegible (by
    rw [blockTexts_branch, List.forall_mem_append]
    exact ⟨hfirst.body.texts, htexts⟩)
  rw [List.append_nil] at hparse
  exact TemplateSet.parse_main hparse name

/-- Branches chained by their elses are read as the branches nested in the else bodies: the trees
are equal, with the same nodes in the same places. -/
theorem parse_chained (hkind : kind ≠ .range) {first : Link} {links : List Link}
    {last : Option Body} (h : ∀ link ∈ first :: links, link.Printable kind)
    (hlast : ∀ body ∈ last, body.Printable) (name : String) :
    ∃ set : TemplateSet,
      TemplateSet.parse name (branchText kind first (chainedTail kind links last)) = .ok set ∧
      TemplateSet.parse name (branchText kind first (nestedTail kind links last)) = .ok set ∧
      set.defined = [] ∧ set.main = .ofBlock name (blockMergeTexts
        [.branch () kind first.pipe first.body.block (chainBlock kind links last)]) := by
  obtain ⟨hfirst, hlinks⟩ := List.forall_mem_cons.mp h
  obtain ⟨hlegible, htexts⟩ := legible_chain hlinks hlast
  have hchained := spelled_chained hkind hlinks hlast
  have hnested := spelled_nested hlinks hlast
  exact ⟨_, parse_branchText hfirst hchained hlegible htexts name,
    parse_branchText hfirst hnested hlegible htexts name, rfl, rfl⟩

end Chains

def fieldPipe (decls : List String) (name : String) : Pipe Untagged :=
  .mk () decls [.mk () (.atom () (.field [name])) []]

def partedLink : Link := ⟨fieldPipe [] "A", .ofBlock [.text () "a", .text () " b"]⟩

def chainLink : Link where
  pipe := fieldPipe ["$x"] "B"
  body :=
    { block := [.branch () .cond (fieldPipe [] "C") [.text () "c"]
        [.branch () .cond (fieldPipe [] "D") [.text () "d"] []]]
      pieces := [.action [.word (.branch .cond), .pipe (fieldPipe [] "C")], .text "c",
        .action [.word .otherwise, .word (.branch .cond), .pipe (fieldPipe [] "D")], .text "d",
        .action [.word .finish]] }

def partedBranch : Block Untagged :=
  [.branch () .within partedLink.pipe partedLink.body.block
    [.branch () .within chainLink.pipe chainLink.body.block []]]

theorem parse_partedBranch : Source.parse (delimited "with .A" ++ "a" ++ delimited "/* */" ++ " b" ++
    delimited "else" ++ delimited "with $x := .B" ++ delimited "if .C" ++ "c" ++
      delimited "else if .D" ++ "d" ++ delimited "end" ++ delimited "end" ++ delimited "end") =
    .ok ⟨partedBranch, []⟩ := by cbv

theorem printable_partedLink : partedLink.Printable .within :=
  have hproduced := Produced.main parse_partedBranch
  have hs := List.mem_singleton_self _
  ⟨⟨_, _, _, hproduced, hs⟩, .body hproduced hs, by decide, spelled_pieces _⟩

theorem printable_chainLink : chainLink.Printable .within := by
  have hproduced := Produced.elseBody (Produced.main parse_partedBranch) (List.mem_singleton_self _)
  have hs := List.mem_singleton_self
    (Stmt.branch () .within chainLink.pipe chainLink.body.block [])
  refine ⟨⟨_, _, _, hproduced, hs⟩, .body hproduced hs, by decide, ?_⟩
  have hinner (text : String) : BlockSpelled [.text () text] [.text text] := .cons (.text text) .nil
  have htail := TailSpelled.chained (by decide) (fieldPipe [] "D") (hinner "d") (.finish .cond)
  exact .cons (.branch (fieldPipe [] "C") (hinner "c") htail) .nil

theorem printable_nil : Body.Printable (.ofBlock []) :=
  ⟨.main (by cbv : Source.parse "" = .ok ⟨[], []⟩), List.forall_mem_nil _, .nil⟩

theorem parse_chained_chainLink :
    (∀ link ∈ [partedLink, chainLink], link.Printable .within) ∧
      branchText .within partedLink (chainedTail .within [chainLink] (some (.ofBlock []))) =
        delimited "with .A" ++ "a b" ++ delimited "else with $x := .B" ++ delimited "if .C" ++ "c" ++
          delimited "else if .D" ++ "d" ++ delimited "end" ++ delimited "else" ++
            delimited "end" ∧
      ∃ set : TemplateSet,
        TemplateSet.parse "main" (branchText .within partedLink
          (chainedTail .within [chainLink] (some (.ofBlock [])))) = .ok set ∧
        TemplateSet.parse "main" (branchText .within partedLink
          (nestedTail .within [chainLink] (some (.ofBlock [])))) = .ok set ∧
        set.defined = [] ∧ set.main = .ofBlock "main" (blockMergeTexts
          [.branch () .within partedLink.pipe partedLink.body.block
            (chainBlock .within [chainLink] (some (.ofBlock [])))]) := by
  have hlinks : ∀ link ∈ [partedLink, chainLink], link.Printable .within := by
    rw [List.forall_mem_cons, List.forall_mem_singleton]
    exact ⟨printable_partedLink, printable_chainLink⟩
  refine ⟨hlinks, by cbv, parse_chained (by decide) hlinks ?_ "main"⟩
  rintro _ ⟨⟩
  exact printable_nil

end FlatTemplate

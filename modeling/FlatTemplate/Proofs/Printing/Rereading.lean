import FlatTemplate.Proofs.Printing.Pieces

namespace FlatTemplate.Parser

def Makes {α : Type} {ts : List Token} (result : Except Failure (α × Rest ts)) (a : α)
    (kinds : List TokenKind) : Prop :=
  ∃ r, result = .ok r ∧ r.1 = a ∧ r.2.1.map Token.kind = kinds

namespace Makes

variable {α β : Type} {ts ts' : List Token} {a : α} {b : β} {kinds kinds' : List TokenKind}

theorem pure {rest : List Token} (h : rest.length ≤ ts.length)
    (hrest : rest.map Token.kind = kinds) :
    Makes (Pure.pure (a, ⟨rest, h⟩) : Except Failure (α × Rest ts)) a kinds :=
  ⟨_, rfl, rfl, hrest⟩

theorem bind {x : Except Failure (α × Rest ts)}
    {f : α × Rest ts → Except Failure (β × Rest ts')} (hx : Makes x a kinds)
    (hf : ∀ rest h, rest.map Token.kind = kinds → Makes (f (a, ⟨rest, h⟩)) b kinds') :
    Makes (x >>= f) b kinds' := by
  obtain ⟨⟨_, rest, h⟩, rfl, rfl, hrest⟩ := hx
  exact hf rest h hrest

end Makes

theorem exists_cons {ts : List Token} {kind : TokenKind} {kinds : List TokenKind}
    (h : ts.map Token.kind = kind :: kinds) :
    ∃ start rest, ts = ⟨kind, start⟩ :: rest ∧ rest.map Token.kind = kinds := by
  obtain ⟨⟨_, start⟩, rest, rfl, rfl, rfl⟩ := List.map_eq_cons_iff.mp h
  exact ⟨start, rest, rfl, rfl⟩

theorem atom?_kind (a : Atom) : atom? a.kind = some a := by
  cases a <;> rfl

theorem endsCommand_kind (a : Atom) : endsCommand a.kind = false := by
  cases a <;> rfl

def EndsCommand (kinds : List TokenKind) : Prop :=
  ∃ kind more, kinds = kind :: more ∧ endsCommand kind = true

def EndsPipe (kinds : List TokenKind) : Prop :=
  ∃ kind more, kinds = kind :: more ∧ endsCommand kind = true ∧ kind ≠ .bar

theorem EndsPipe.stages {kinds : List TokenKind} (h : EndsPipe kinds)
    (cs : List (Command Untagged)) : EndsCommand (stageKinds cs ++ kinds) := by
  cases cs with
  | nil =>
    obtain ⟨kind, more, rfl, hkind, -⟩ := h
    exact ⟨kind, more, rfl, hkind⟩
  | cons c cs => exact ⟨.bar, _, rfl, rfl⟩

section Operands

variable {ts : List Token} {kinds : List TokenKind}

theorem operands_nil (hts : ts.map Token.kind = kinds) (hends : EndsCommand kinds) :
    Makes (operands ts) [] kinds := by
  obtain ⟨kind, more, rfl, hkind⟩ := hends
  obtain ⟨start, rest, rfl, hrest⟩ := exists_cons hts
  rw [operands, if_pos hkind]
  exact .pure _ hts

theorem operands_cons {token : Token} {e : Expr Untagged} {es : List (Expr Untagged)}
    {kinds' : List TokenKind} (htoken : endsCommand token.kind = false)
    (hfirst : Makes (operand token ts) e kinds)
    (hmore : ∀ rest, rest.map Token.kind = kinds → Makes (operands rest) es kinds') :
    Makes (operands (token :: ts)) (e :: es) kinds' := by
  rw [operands, if_neg (by simp [htoken])]
  refine hfirst.bind fun rest _ hrest => (hmore rest hrest).bind fun rest' _ hrest' => ?_
  exact .pure _ hrest'

end Operands

def NoDeclaration (kinds : List TokenKind) : Prop :=
  ∀ kind more, kinds = kind :: more → kind ≠ .declare ∧ kind ≠ .comma

theorem noDeclaration_args {kinds : List TokenKind} (es : List (Expr Untagged))
    (h : EndsCommand kinds) : NoDeclaration (argKinds es ++ kinds) := by
  rintro kind more heq
  match es with
  | [] =>
    obtain ⟨kind', more', rfl, hkind⟩ := h
    obtain ⟨rfl, -⟩ := List.cons.inj heq
    constructor <;> rintro rfl <;> cases hkind
  | .atom _ a :: es =>
    obtain ⟨rfl, -⟩ := List.cons.inj heq
    cases a <;> simp [Atom.kind]
  | .paren _ inner :: es =>
    obtain ⟨rfl, -⟩ := List.cons.inj heq
    simp

theorem declarations_none {limit : DeclLimit} {ts : List Token} {head : Expr Untagged}
    {kinds : List TokenKind} (hts : ts.map Token.kind = head.kinds ++ kinds)
    (hkinds : NoDeclaration kinds) :
    Makes (declarations limit ts) [] (head.kinds ++ kinds) := by
  have hne : ∀ name start kind start' rest, ts = ⟨.var [name], start⟩ :: ⟨kind, start'⟩ :: rest →
      kind ≠ .declare ∧ kind ≠ .comma := by
    rintro name start kind start' rest rfl
    match head with
    | .atom _ a =>
      obtain ⟨-, hrest⟩ := List.cons.inj hts
      exact hkinds kind _ hrest.symm
    | .paren _ inner => cases (List.cons.inj hts).1
  unfold declarations
  split
  · exact absurd rfl (hne _ _ _ _ _ rfl).1
  · exact absurd rfl (hne _ _ _ _ _ rfl).2
  · exact .pure _ hts

theorem declarations_some {limit : DeclLimit} {ts : List Token} {names : List String}
    {kinds : List TokenKind} (hne : names ≠ []) (hmost : names.length ≤ limit.most)
    (hts : ts.map Token.kind = declKinds names ++ kinds) :
    Makes (declarations limit ts) names kinds := by
  match names, limit with
  | [name], .one | [name], .two =>
    obtain ⟨_, _, rfl, hsign⟩ := exists_cons hts
    obtain ⟨_, _, rfl, hrest⟩ := exists_cons hsign
    exact .pure _ hrest
  | [first, second], .two =>
    obtain ⟨_, _, rfl, hcomma⟩ := exists_cons hts
    obtain ⟨_, _, rfl, hsecond⟩ := exists_cons hcomma
    obtain ⟨_, _, rfl, hsign⟩ := exists_cons hsecond
    obtain ⟨_, _, rfl, hrest⟩ := exists_cons hsign
    exact .pure _ hrest
  | _ :: _ :: _ :: _, .two => simp [DeclLimit.most] at hmost

mutual

theorem operand_kinds {e : Expr Untagged} (he : e.Legible) {ts : List Token}
    {kinds : List TokenKind} (hts : ts.map Token.kind = e.kinds ++ kinds) :
    ∃ token rest, ts = token :: rest ∧ endsCommand token.kind = false ∧
      Makes (operand token rest) e kinds := by
  cases e with
  | atom _ a =>
    obtain ⟨start, rest, rfl, hrest⟩ := exists_cons hts
    refine ⟨_, rest, rfl, endsCommand_kind a, ?_⟩
    rw [operand]
    simp only [atom?_kind]
    exact .pure _ hrest
  | paren _ inner =>
    rw [Expr.kinds, List.cons_append, List.append_assoc] at hts
    obtain ⟨start, rest, rfl, hrest⟩ := exists_cons hts
    refine ⟨_, rest, rfl, rfl, ?_⟩
    rw [operand]
    refine (pipeline_kinds he hrest ⟨_, _, rfl, rfl, nofun⟩).bind fun rest' h hrest' => ?_
    obtain ⟨start', rest'', rfl, hrest''⟩ := exists_cons hrest'
    exact .pure _ hrest''

theorem operands_kinds {es : List (Expr Untagged)} (hes : ArgsLegible es) {ts : List Token}
    {kinds : List TokenKind} (hts : ts.map Token.kind = argKinds es ++ kinds)
    (hends : EndsCommand kinds) : Makes (operands ts) es kinds := by
  cases es with
  | nil => exact operands_nil hts hends
  | cons e es =>
    rw [argKinds, List.append_assoc] at hts
    obtain ⟨token, rest, rfl, htoken, hfirst⟩ := operand_kinds hes.1 hts
    exact operands_cons htoken hfirst fun rest hrest => operands_kinds hes.2 hrest hends

theorem command_kinds {c : Command Untagged} (hc : c.Legible) {ts : List Token}
    {kinds : List TokenKind} (hts : ts.map Token.kind = c.kinds ++ kinds)
    (hends : EndsCommand kinds) : Makes (command ts) c kinds := by
  obtain ⟨_, head, args⟩ := c
  rw [Command.kinds, List.append_assoc] at hts
  obtain ⟨token, rest, rfl, htoken, hfirst⟩ := operand_kinds hc.1 hts
  have hread := operands_cons htoken hfirst fun rest hrest => operands_kinds hc.2 hrest hends
  rw [command]
  exact hread.bind fun rest' _ hrest' => .pure _ hrest'

theorem stages_kinds {cs : List (Command Untagged)} (hcs : CommandsLegible cs) {ts : List Token}
    {kinds : List TokenKind} (hts : ts.map Token.kind = stageKinds cs ++ kinds)
    (hends : EndsPipe kinds) : Makes (stages ts) cs kinds := by
  cases cs with
  | nil =>
    obtain ⟨kind, more, rfl, hkind, hbar⟩ := hends
    obtain ⟨start, rest, rfl, hrest⟩ := exists_cons hts
    rw [stages]
    · exact .pure _ hts
    · rintro _ _ heq
      exact hbar (Token.mk.inj (List.cons.inj heq).1).1
  | cons c cs =>
    rw [stageKinds, List.cons_append, List.append_assoc] at hts
    obtain ⟨start, rest, rfl, hrest⟩ := exists_cons hts
    rw [stages]
    refine (command_kinds hcs.1 hrest (hends.stages cs)).bind fun rest₁ _ hrest₁ => ?_
    exact (stages_kinds hcs.2 hrest₁ hends).bind fun rest₂ _ hrest₂ => .pure _ hrest₂

theorem pipeline_kinds {limit : DeclLimit} {p : Pipe Untagged} (hp : p.Legible limit)
    {ts : List Token} {kinds : List TokenKind} (hts : ts.map Token.kind = p.kinds ++ kinds)
    (hends : EndsPipe kinds) : Makes (pipeline limit ts) p kinds := by
  obtain ⟨_, decls, commands⟩ := p
  obtain ⟨hmost, -, hne, hcommands⟩ := hp
  cases commands with
  | nil => exact absurd rfl hne
  | cons c cs =>
    rw [Pipe.kinds, List.append_assoc, commandKinds, List.append_assoc] at hts
    have hdecls : Makes (declarations limit ts) decls (c.kinds ++ (stageKinds cs ++ kinds)) := by
      cases decls with
      | nil =>
        obtain ⟨_, head, args⟩ := c
        rw [Command.kinds, List.append_assoc] at hts ⊢
        exact declarations_none hts (noDeclaration_args args (hends.stages cs))
      | cons name names => exact declarations_some (List.cons_ne_nil _ _) hmost hts
    rw [pipeline]
    refine hdecls.bind fun rest₁ _ hrest₁ => ?_
    refine (command_kinds hcommands.1 hrest₁ (hends.stages cs)).bind fun rest₂ _ hrest₂ => ?_
    exact (stages_kinds hcommands.2 hrest₂ hends).bind fun rest₃ _ hrest₃ => .pure _ hrest₃

end

theorem close_closing (context : Context) (start : List Char) (rest : List Token) :
    ∃ h, close context (⟨.closing, start⟩ :: rest) = .ok ⟨rest, h⟩ := ⟨_, rfl⟩

theorem kinds_pipe_cons {limit : DeclLimit} {p : Pipe Untagged} (hp : p.Legible limit) :
    ∃ kind more, p.kinds = kind :: more ∧ endsCommand kind = false ∧
      ∀ word, kind ≠ .keyword word := by
  match p with
  | .mk _ decls [] => exact absurd rfl hp.2.2.1
  | .mk _ [] (.mk _ (.atom _ a) args :: cs) =>
    exact ⟨_, _, rfl, endsCommand_kind a, by cases a <;> simp [Atom.kind]⟩
  | .mk _ [] (.mk _ (.paren _ inner) args :: cs) => exact ⟨_, _, rfl, rfl, nofun⟩
  | .mk _ [name] (c :: cs) => exact ⟨_, _, rfl, rfl, nofun⟩
  | .mk _ (name :: name' :: names) (c :: cs) => exact ⟨_, _, rfl, rfl, nofun⟩

theorem endsPipe_closing (kinds : List TokenKind) : EndsPipe (.closing :: kinds) :=
  ⟨_, _, rfl, rfl, nofun⟩

section Invocation

variable {name : String} {ts : List Token} {kinds : List TokenKind}

theorem invocation_none (hts : ts.map Token.kind = .str name :: .closing :: kinds) :
    Makes (invocation ts) (.invoke () name none) kinds := by
  obtain ⟨_, _, rfl, hclosing⟩ := exists_cons hts
  obtain ⟨_, _, rfl, hrest⟩ := exists_cons hclosing
  exact .pure _ hrest

theorem invocation_some {p : Pipe Untagged} (hp : p.Legible .none)
    (hts : ts.map Token.kind = .str name :: (p.kinds ++ .closing :: kinds)) :
    Makes (invocation ts) (.invoke () name (some p)) kinds := by
  obtain ⟨_, rest, rfl, hrest⟩ := exists_cons hts
  obtain ⟨kind, more, hkinds, hends, -⟩ := kinds_pipe_cons hp
  rw [invocation]
  · refine (pipeline_kinds hp hrest (endsPipe_closing _)).bind fun rest₁ _ hrest₁ => ?_
    obtain ⟨_, rest₂, rfl, hrest₂⟩ := exists_cons hrest₁
    exact .pure _ hrest₂
  · rintro start more' rfl
    rw [hkinds] at hrest
    obtain ⟨rfl, -⟩ := List.cons.inj hrest
    cases hends

end Invocation

def MakesBlock {ts : List Token} (result : Except Failure (Block Untagged × Stop × Rest ts))
    (b : Block Untagged) (stop : Stop → Prop) (kinds : List TokenKind) : Prop :=
  ∃ r, result = .ok r ∧ r.1 = b ∧ stop r.2.1 ∧ r.2.2.1.map Token.kind = kinds

theorem block_finish {ts : List Token} {kinds : List TokenKind}
    (hts : ts.map Token.kind = actionKinds [.keyword .finish] ++ kinds) :
    MakesBlock (block ts) [] (· = .finish) kinds := by
  obtain ⟨_, _, rfl, hfinish⟩ := exists_cons hts
  obtain ⟨_, _, rfl, hclosing⟩ := exists_cons hfinish
  obtain ⟨_, _, rfl, hrest⟩ := exists_cons hclosing
  rw [block]
  exact ⟨_, rfl, rfl, rfl, hrest⟩

theorem block_otherwise {ts : List Token} {kinds : List TokenKind}
    (hts : ts.map Token.kind = .opening :: .keyword .otherwise :: kinds) :
    MakesBlock (block ts) [] (fun stop => ∃ start, stop = .otherwise start) kinds := by
  obtain ⟨_, _, rfl, hotherwise⟩ := exists_cons hts
  obtain ⟨_, _, rfl, hrest⟩ := exists_cons hotherwise
  rw [block]
  exact ⟨_, rfl, rfl, ⟨_, rfl⟩, hrest⟩

def OpensStmt (ts : List Token) : Prop :=
  ∃ kind start more, ts = ⟨kind, start⟩ :: more ∧
    kind ∉ [.keyword .finish, .keyword .otherwise, .keyword .define]

section BlockText

variable {ts : List Token} {b : Block Untagged} {stop : Stop → Prop} {kinds : List TokenKind}

theorem block_text {t : String} {start : List Char} (h : MakesBlock (block ts) b stop kinds) :
    MakesBlock (block (⟨.text t, start⟩ :: ts)) (.text () t :: b) stop kinds := by
  obtain ⟨⟨_, stop', rest, h'⟩, hblock, rfl, hstop, hrest⟩ := h
  rw [block, hblock]
  exact ⟨_, rfl, rfl, hstop, hrest⟩

theorem block_stmt {s : Stmt Untagged} {start : List Char} {kinds' : List TokenKind}
    (hopens : OpensStmt ts) (hs : Makes (statement start ts) s kinds')
    (hrest : ∀ rest, rest.map Token.kind = kinds' → MakesBlock (block rest) b stop kinds) :
    MakesBlock (block (⟨.opening, start⟩ :: ts)) (s :: b) stop kinds := by
  obtain ⟨⟨_, rest, h⟩, hstatement, rfl, hkinds⟩ := hs
  obtain ⟨⟨_, stop', rest', h'⟩, hblock, rfl, hstop, hrest'⟩ := hrest rest hkinds
  obtain ⟨kind, start', more, rfl, hkind⟩ := hopens
  rw [block]
  · rw [hstatement, ok_bind]
    simp only
    rw [hblock]
    exact ⟨_, rfl, rfl, hstop, hrest'⟩
  all_goals
    intro _ _ heq
    rw [(Token.mk.inj (List.cons.inj heq).1).1] at hkind
    simp at hkind

end BlockText

theorem statement_action {p : Pipe Untagged} (hp : p.Legible .one) {ts : List Token}
    {kinds : List TokenKind} (opened : List Char)
    (hts : ts.map Token.kind = p.kinds ++ .closing :: kinds) :
    OpensStmt ts ∧ Makes (statement opened ts) (.action () p) kinds := by
  have hread := pipeline_kinds hp hts (endsPipe_closing kinds)
  obtain ⟨kind, more, hkinds, -, hword⟩ := kinds_pipe_cons hp
  rw [hkinds, List.cons_append] at hts
  obtain ⟨start, rest, rfl, -⟩ := exists_cons hts
  refine ⟨⟨kind, start, rest, rfl, by simp [hword]⟩, ?_⟩
  rw [statement]
  · refine hread.bind fun rest₁ _ hrest₁ => ?_
    obtain ⟨_, _, rfl, hrest₂⟩ := exists_cons hrest₁
    exact .pure _ hrest₂
  all_goals
    intros
    rename_i heq
    exact hword _ (Token.mk.inj (List.cons.inj heq).1).1

section Branch

variable {kind : BranchKind} {p : Pipe Untagged} (hp : p.Legible (declLimit kind))
  {ts : List Token} {body elseBody : Block Untagged} {kinds kinds₁ kinds₂ : List TokenKind}
  (opened : List Char) (hts : ts.map Token.kind = p.kinds ++ .closing :: kinds₁)
include hp hts

theorem branch_alone
    (hbody : ∀ rest, rest.map Token.kind = kinds₁ →
      MakesBlock (block rest) body (· = .finish) kinds) :
    Makes (branch kind opened ts) (.branch () kind p body []) kinds := by
  rw [branch]
  refine (pipeline_kinds hp hts (endsPipe_closing _)).bind fun rest₁ _ hrest₁ => ?_
  obtain ⟨start₁, rest₂, rfl, hrest₂⟩ := exists_cons hrest₁
  obtain ⟨⟨_, _, rest₃, h₃⟩, hblock, rfl, rfl, hrest₃⟩ := hbody rest₂ hrest₂
  obtain ⟨h₂, hclose⟩ := close_closing (.branch kind) start₁ rest₂
  simp only
  rw [hclose, ok_bind]
  simp only
  rw [hblock, ok_bind]
  exact .pure _ hrest₃

theorem branch_else
    (hbody : ∀ rest, rest.map Token.kind = kinds₁ →
      MakesBlock (block rest) body (fun stop => ∃ start, stop = .otherwise start)
        (.closing :: kinds₂))
    (helse : ∀ rest, rest.map Token.kind = kinds₂ →
      MakesBlock (block rest) elseBody (· = .finish) kinds) :
    Makes (branch kind opened ts) (.branch () kind p body elseBody) kinds := by
  rw [branch]
  refine (pipeline_kinds hp hts (endsPipe_closing _)).bind fun rest₁ _ hrest₁ => ?_
  obtain ⟨start₁, rest₂, rfl, hrest₂⟩ := exists_cons hrest₁
  obtain ⟨⟨_, _, rest₃, h₃⟩, hblock, rfl, ⟨start, rfl⟩, hrest₃⟩ := hbody rest₂ hrest₂
  obtain ⟨start₃, rest₄, rfl, hrest₄⟩ := exists_cons hrest₃
  obtain ⟨⟨_, _, rest₅, h₅⟩, hblock', rfl, rfl, hrest₅⟩ := helse rest₄ hrest₄
  obtain ⟨h₂, hclose⟩ := close_closing (.branch kind) start₁ rest₂
  obtain ⟨h₄, hclose'⟩ := close_closing .otherwise start₃ rest₄
  simp only
  rw [hclose, ok_bind]
  simp only
  rw [hblock, ok_bind]
  simp only
  rw [hclose', ok_bind]
  simp only
  rw [hblock', ok_bind]
  exact .pure _ hrest₅

theorem branch_chained (hkind : kind ≠ .range) {chained : Stmt Untagged}
    (hbody : ∀ rest, rest.map Token.kind = kinds₁ →
      MakesBlock (block rest) body (fun stop => ∃ start, stop = .otherwise start)
        (.keyword (.branch kind) :: kinds₂))
    (hchained : ∀ start rest, rest.map Token.kind = kinds₂ →
      Makes (branch kind start rest) chained kinds) :
    Makes (branch kind opened ts) (.branch () kind p body [chained]) kinds := by
  rw [branch]
  refine (pipeline_kinds hp hts (endsPipe_closing _)).bind fun rest₁ _ hrest₁ => ?_
  obtain ⟨start₁, rest₂, rfl, hrest₂⟩ := exists_cons hrest₁
  obtain ⟨⟨_, _, rest₃, h₃⟩, hblock, rfl, ⟨start, rfl⟩, hrest₃⟩ := hbody rest₂ hrest₂
  obtain ⟨start₃, rest₄, rfl, hrest₄⟩ := exists_cons hrest₃
  obtain ⟨⟨_, rest₅, h₅⟩, hbranch, rfl, hrest₅⟩ := hchained start rest₄ hrest₄
  obtain ⟨h₂, hclose⟩ := close_closing (.branch kind) start₁ rest₂
  simp only
  rw [hclose, ok_bind]
  simp only
  rw [hblock, ok_bind]
  simp only
  rw [if_pos ⟨trivial, hkind⟩, hbranch, ok_bind]
  exact .pure _ hrest₅

end Branch

theorem pieceKinds_action (phrases : List Phrase) (pieces : List Piece) (kinds : List TokenKind) :
    pieceKinds (.action phrases :: pieces) ++ kinds =
      .opening :: (phraseKinds phrases ++ .closing :: (pieceKinds pieces ++ kinds)) := by
  simp [Piece.kinds, actionKinds]

theorem pieceKinds_word (word : Keyword) (phrases : List Phrase) (pieces : List Piece)
    (kinds : List TokenKind) :
    pieceKinds (.action (.word word :: phrases) :: pieces) ++ kinds =
      .opening :: .keyword word ::
        (phraseKinds phrases ++ .closing :: (pieceKinds pieces ++ kinds)) :=
  pieceKinds_action _ _ _

theorem phraseKinds_name (name : String) (p : Pipe Untagged) :
    phraseKinds [.name name, .pipe p] = .str name :: p.kinds :=
  congrArg (List.cons _) (List.append_nil _)

theorem phraseKinds_word (word : Keyword) (p : Pipe Untagged) :
    phraseKinds [.word word, .pipe p] = .keyword word :: p.kinds :=
  congrArg (List.cons _) (List.append_nil _)

def ReadsStmt (s : Stmt Untagged) (pieces : List Piece) : Prop :=
  s.Legible → (∀ id t, s ≠ .text id t) → ∀ (ts : List Token) (kinds : List TokenKind),
    ts.map Token.kind = pieceKinds pieces ++ kinds →
      ∃ start rest, ts = ⟨.opening, start⟩ :: rest ∧ OpensStmt rest ∧
        Makes (statement start rest) s kinds

def ReadsBlock (b : Block Untagged) (pieces : List Piece) : Prop :=
  BlockLegible b → ∀ (ts : List Token) (kinds kinds' : List TokenKind) (stop : Stop → Prop),
    ts.map Token.kind = pieceKinds pieces ++ kinds →
      (∀ rest, rest.map Token.kind = kinds → MakesBlock (block rest) [] stop kinds') →
        MakesBlock (block ts) b stop kinds'

def ReadsTail (kind : BranchKind) (elseBody : Block Untagged) (pieces : List Piece) : Prop :=
  BlockLegible elseBody → ∀ (p : Pipe Untagged) (body : Block Untagged) (inner : List Piece),
    p.Legible (declLimit kind) → BlockLegible body → ReadsBlock body inner →
      ∀ (opened : List Char) (ts : List Token) (kinds : List TokenKind), ts.map Token.kind =
        p.kinds ++ .closing :: (pieceKinds inner ++ (pieceKinds pieces ++ kinds)) →
          Makes (branch kind opened ts) (.branch () kind p body elseBody) kinds

theorem readsStmt_action (p : Pipe Untagged) : ReadsStmt (.action () p) [.action [.pipe p]] := by
  intro hs _ ts kinds hts
  rw [pieceKinds_action, phraseKinds_pipe] at hts
  obtain ⟨start, rest, rfl, hrest⟩ := exists_cons hts
  exact ⟨start, rest, rfl, statement_action hs start hrest⟩

theorem readsStmt_invoke (name : String) :
    ReadsStmt (.invoke () name none) [.action [.word .template, .name name]] := by
  intro _ _ ts kinds hts
  rw [pieceKinds_word] at hts
  obtain ⟨start, rest, rfl, hkeyword⟩ := exists_cons hts
  obtain ⟨_, rest, rfl, hrest⟩ := exists_cons hkeyword
  refine ⟨_, _, rfl, ⟨_, _, _, rfl, by simp⟩, ?_⟩
  rw [statement]
  exact (invocation_none hrest).bind fun _ _ hrest' => .pure _ hrest'

theorem readsStmt_invokeOn (name : String) (p : Pipe Untagged) :
    ReadsStmt (.invoke () name (some p)) [.action [.word .template, .name name, .pipe p]] := by
  intro hs _ ts kinds hts
  rw [pieceKinds_word, phraseKinds_name] at hts
  obtain ⟨start, rest, rfl, hkeyword⟩ := exists_cons hts
  obtain ⟨_, rest, rfl, hrest⟩ := exists_cons hkeyword
  refine ⟨_, _, rfl, ⟨_, _, _, rfl, by simp⟩, ?_⟩
  rw [statement]
  exact (invocation_some hs hrest).bind fun _ _ hrest' => .pure _ hrest'

section Rules

variable {kind : BranchKind} {s : Stmt Untagged} {b body elseBody : Block Untagged}
  {pieces pieces' inner tail : List Piece}

theorem readsStmt_branch (p : Pipe Untagged) (hbody : ReadsBlock body inner)
    (htail : ReadsTail kind elseBody tail) :
    ReadsStmt (.branch () kind p body elseBody)
      (.action [.word (.branch kind), .pipe p] :: (inner ++ tail)) := by
  intro hs _ ts kinds hts
  obtain ⟨hp, hlegible, helse⟩ := hs
  rw [pieceKinds_word, phraseKinds_pipe, pieceKinds_append, List.append_assoc] at hts
  obtain ⟨start, rest, rfl, hkeyword⟩ := exists_cons hts
  obtain ⟨_, rest, rfl, hrest⟩ := exists_cons hkeyword
  refine ⟨_, _, rfl, ⟨_, _, _, rfl, by simp⟩, ?_⟩
  have hbranch := htail helse p body inner hp hlegible hbody start rest kinds hrest
  rw [statement]
  exact hbranch.bind fun _ _ hrest' => .pure _ hrest'

theorem readsTail_finish (kind : BranchKind) : ReadsTail kind [] [.action [.word .finish]] := by
  intro _ p body inner hp hlegible hbody opened ts kinds hts
  apply branch_alone hp opened hts
  intro rest hrest
  exact hbody hlegible rest _ kinds _ hrest fun _ => block_finish

theorem readsTail_otherwise (kind : BranchKind) (h : ReadsBlock b inner) :
    ReadsTail kind b (.action [.word .otherwise] :: (inner ++ [.action [.word .finish]])) := by
  intro helse p body inner' hp hlegible hbody opened ts kinds hts
  rw [pieceKinds_word, pieceKinds_append, List.append_assoc] at hts
  apply branch_else hp opened hts
  · intro rest hrest
    exact hbody hlegible rest _ _ _ hrest fun _ => block_otherwise
  · intro rest hrest
    exact h helse rest _ kinds _ hrest fun _ => block_finish

theorem readsTail_chained (hkind : kind ≠ .range) (p : Pipe Untagged)
    (hbody : ReadsBlock body inner) (htail : ReadsTail kind elseBody tail) :
    ReadsTail kind [.branch () kind p body elseBody]
      (.action [.word .otherwise, .word (.branch kind), .pipe p] :: (inner ++ tail)) := by
  intro hchained p' body' inner' hp' hlegible' hbody' opened ts kinds hts
  obtain ⟨⟨hp, hlegible, helse⟩, -⟩ := hchained
  rw [pieceKinds_word, phraseKinds_word, pieceKinds_append, List.append_assoc] at hts
  apply branch_chained hp' opened hts hkind
  · intro rest hrest
    exact hbody' hlegible' rest _ _ _ hrest fun _ => block_otherwise
  · intro start rest hrest
    exact htail helse p body inner hp hlegible hbody start rest kinds hrest

theorem readsBlock_nil : ReadsBlock [] [] := fun _ ts _ _ _ hts hend => hend ts hts

theorem readsBlock_cons (h : s.Spelled pieces) (hs : ReadsStmt s pieces)
    (hb : ReadsBlock b pieces') : ReadsBlock (s :: b) (pieces ++ pieces') := by
  intro hlegible ts kinds kinds' stop hts hend
  rw [pieceKinds_append, List.append_assoc] at hts
  by_cases htext : ∃ id t, s = .text id t
  · obtain ⟨id, t, rfl⟩ := htext
    cases h
    obtain ⟨start, rest, rfl, hrest⟩ := exists_cons hts
    exact block_text (hb hlegible.2 rest kinds kinds' stop hrest hend)
  · obtain ⟨start, rest, rfl, hopens, hstatement⟩ :=
      hs hlegible.1 (fun id t h => htext ⟨id, t, h⟩) ts _ hts
    apply block_stmt hopens hstatement
    intro rest hrest
    exact hb hlegible.2 rest kinds kinds' stop hrest hend

end Rules

theorem readsStmt {s : Stmt Untagged} {pieces : List Piece} (h : s.Spelled pieces) :
    ReadsStmt s pieces :=
  @Stmt.Spelled.rec (fun s pieces _ => ReadsStmt s pieces)
    (fun kind b pieces _ => ReadsTail kind b pieces) (fun b pieces _ => ReadsBlock b pieces)
    (fun _ _ htext => absurd rfl (htext () _)) readsStmt_action readsStmt_invoke
    readsStmt_invokeOn (fun p _ _ => readsStmt_branch p) readsTail_finish
    (fun kind _ => readsTail_otherwise kind) (fun hkind p _ _ => readsTail_chained hkind p)
    readsBlock_nil (fun h _ => readsBlock_cons h) s pieces h

theorem readsBlock {b : Block Untagged} {pieces : List Piece} (h : BlockSpelled b pieces) :
    ReadsBlock b pieces := by
  induction b generalizing pieces with
  | nil =>
    cases h
    exact readsBlock_nil
  | cons s b ih =>
    cases h with
    | cons hs hb => exact readsBlock_cons hs (readsStmt hs) (ih hb)

theorem statement_spelled {s : Stmt Untagged} {pieces : List Piece} (h : s.Spelled pieces)
    (hs : s.Legible) (htext : ∀ id t, s ≠ .text id t) {ts : List Token} {kinds : List TokenKind}
    (hts : ts.map Token.kind = pieceKinds pieces ++ kinds) :
    ∃ start rest, ts = ⟨.opening, start⟩ :: rest ∧ OpensStmt rest ∧
      Makes (statement start rest) s kinds :=
  readsStmt h hs htext ts kinds hts

theorem definition_spelled {d : Definition} {inner : List Piece} (h : BlockSpelled d.body inner)
    (hd : BlockLegible d.body) (opened : List Char) {ts : List Token} {kinds : List TokenKind}
    (hts : ts.map Token.kind =
      .str d.name :: .closing :: (pieceKinds inner ++ (actionKinds [.keyword .finish] ++ kinds))) :
    Makes (definition opened ts) d kinds := by
  obtain ⟨_, _, rfl, hclosing⟩ := exists_cons hts
  obtain ⟨start, rest, rfl, hrest⟩ := exists_cons hclosing
  obtain ⟨⟨_, _, rest', h'⟩, hblock, rfl, rfl, hrest'⟩ :=
    readsBlock h hd rest _ kinds _ hrest fun _ => block_finish
  obtain ⟨_, hclose⟩ := close_closing .definition start rest
  rw [definition, hclose, ok_bind]
  simp only
  rw [hblock, ok_bind]
  exact .pure _ hrest'

theorem source_spelled {source : Source} {pieces : List Piece} (h : source.Spelled pieces)
    (hmain : BlockLegible source.main) (hdefinitions : ∀ d ∈ source.definitions, BlockLegible d.body)
    {ts : List Token} (hts : ts.map Token.kind = pieceKinds pieces) :
    Parser.source ts = .ok source := by
  induction h generalizing ts with
  | nil =>
    obtain rfl := List.map_eq_nil_iff.mp hts
    rw [Parser.source]
    rfl
  | @stmt s main definitions pieces pieces' hs _ ih =>
    obtain ⟨hlegible, hmain⟩ := hmain
    rw [pieceKinds_append] at hts
    -- A text is one token; any other statement stands behind an opening delimiter.
    by_cases htext : ∃ id t, s = .text id t
    · obtain ⟨id, t, rfl⟩ := htext
      cases hs
      obtain ⟨start, rest, rfl, hrest⟩ := exists_cons hts
      rw [Parser.source, ih hmain hdefinitions hrest]
      rfl
    · obtain ⟨start, rest, rfl, ⟨kind, start', more, rfl, hkind⟩, hstatement⟩ :=
        statement_spelled hs hlegible (fun id t h => htext ⟨id, t, h⟩) hts
      obtain ⟨⟨_, rest, h⟩, hstatement, rfl, hrest⟩ := hstatement
      rw [Parser.source]
      · rw [hstatement, ok_bind]
        simp only
        rw [ih hmain hdefinitions hrest]
        rfl
      all_goals
        intro _ _ heq
        rw [(Token.mk.inj (List.cons.inj heq).1).1] at hkind
        simp at hkind
  | @define d main definitions inner pieces hbody _ ih =>
    obtain ⟨hd, hothers⟩ := List.forall_mem_cons.mp hdefinitions
    rw [← List.append_nil (pieceKinds _), pieceKinds_word, pieceKinds_append, pieceKinds_cons,
      List.append_nil] at hts
    obtain ⟨opened, _, rfl, hkeyword⟩ := exists_cons hts
    obtain ⟨_, rest, rfl, hrest⟩ := exists_cons hkeyword
    obtain ⟨⟨_, rest', h'⟩, hdefinition, rfl, hrest'⟩ := definition_spelled hbody hd opened hrest
    rw [Parser.source, hdefinition, ok_bind]
    simp only
    rw [ih hmain hothers hrest']
    rfl

theorem spelled_main {b : Block Untagged} {pieces : List Piece} (h : BlockSpelled b pieces) :
    Source.Spelled ⟨b, []⟩ pieces := by
  induction b generalizing pieces with
  | nil =>
    cases h
    exact .nil
  | cons s b ih =>
    cases h with
    | cons hs hb => exact .stmt hs (ih hb)

end FlatTemplate.Parser

import FlatTemplate.Proofs.Printing.Rereading

/-!
What is read from tokens, the grammar derives from their kinds, and what is made of legible tokens
is legible. With the reading of spellings this says that the parser accepts what the grammar derives
and nothing else.
-/

namespace FlatTemplate

theorem LegibleTokens.tail {token : Token} {ts : List Token} (h : LegibleTokens (token :: ts)) :
    LegibleTokens ts :=
  fun t ht => h t (List.mem_cons_of_mem _ ht)

theorem LegibleTokens.of_kinds {ts rest : List Token} {kinds : List TokenKind}
    (hts : LegibleTokens ts) (h : ts.map Token.kind = kinds ++ rest.map Token.kind) :
    LegibleTokens rest := by
  intro token htoken
  have hkind : token.kind ∈ ts.map Token.kind :=
    h ▸ List.mem_append_right _ (List.mem_map_of_mem htoken)
  obtain ⟨token', htoken', heq⟩ := List.mem_map.mp hkind
  exact heq ▸ hts token' htoken'

namespace Parser

theorem isVariableName_of_token {name : String} {start : List Char} {ts : List Token}
    (h : LegibleTokens (⟨.var [name], start⟩ :: ts)) : isVariableName name.toList = true :=
  ((h ⟨.var [name], start⟩ List.mem_cons_self).2 (.var [name]) rfl).1

theorem legible_of_textToken {text : String} {start : List Char} {ts : List Token}
    (h : LegibleTokens (⟨.text text, start⟩ :: ts)) : text ≠ "" := by
  rintro rfl
  exact (h ⟨.text "", start⟩ List.mem_cons_self).1 rfl

theorem ok_pair_inj {α β : Type} {a a' : α} {b b' : β}
    (h : (pure (a, b) : Except Failure (α × β)) = .ok (a', b')) : a = a' ∧ b = b' :=
  Prod.mk.injEq .. ▸ Except.ok.inj h

structure Takes (ts : List Token) (kinds : List TokenKind) (legible : Prop) (rest : List Token) :
    Prop where
  kinds_eq : ts.map Token.kind = kinds ++ rest.map Token.kind
  legible : LegibleTokens ts → legible

namespace Takes

variable {ts us rest : List Token} {kinds kinds' : List TokenKind} {p q : Prop}

theorem nil (ts : List Token) : Takes ts [] True ts := ⟨rfl, fun _ => trivial⟩

theorem cons (token : Token) (h : Takes ts kinds p rest) :
    Takes (token :: ts) (token.kind :: kinds) p rest :=
  ⟨congrArg (List.cons _) h.kinds_eq, fun hts => h.legible hts.tail⟩

theorem append (h : Takes ts kinds p us) (h' : Takes us kinds' q rest) :
    Takes ts (kinds ++ kinds') (p ∧ q) rest := by
  refine ⟨?_, fun hts => ⟨h.legible hts, h'.legible (hts.of_kinds h.kinds_eq)⟩⟩
  rw [h.kinds_eq, h'.kinds_eq, List.append_assoc]

theorem imp (h : Takes ts kinds p rest) (hpq : p → q) : Takes ts kinds q rest :=
  ⟨h.kinds_eq, fun hts => hpq (h.legible hts)⟩

theorem of_eq (h : Takes ts kinds p rest) (hkinds : kinds' = kinds) : Takes ts kinds' p rest :=
  hkinds ▸ h

theorem text (text : String) (start : List Char) (h : Takes ts kinds p rest) :
    Takes (⟨.text text, start⟩ :: ts) (.text text :: kinds) (text ≠ "" ∧ p) rest :=
  ⟨(h.cons ⟨.text text, start⟩).kinds_eq, fun hts => ⟨legible_of_textToken hts, h.legible hts.tail⟩⟩

end Takes

theorem kind_of_atom? {kind : TokenKind} {a : Atom} (h : atom? kind = some a) : kind = a.kind := by
  cases kind <;> cases h <;> rfl

theorem declarations_takes {limit : DeclLimit} {ts : List Token} {names : List String}
    {rest : Rest ts} (h : declarations limit ts = .ok (names, rest)) :
    Takes ts (declKinds names)
      (names.length ≤ limit.most ∧ ∀ name ∈ names, isVariableName name.toList) rest.1 := by
  unfold declarations at h
  split at h
  · split at h
    · cases h
    · next hlimit =>
      obtain ⟨rfl, rfl⟩ := ok_pair_inj h
      refine ⟨rfl, fun hts => ⟨?_, by simpa using isVariableName_of_token hts⟩⟩
      cases limit with
      | none => exact absurd rfl hlimit
      | one => exact Nat.le_refl 1
      | two => exact Nat.le_succ 1
  · split at h
    · cases h
    · cases h
    · cases h
    · obtain ⟨rfl, rfl⟩ := ok_pair_inj h
      refine ⟨rfl, fun hts => ⟨Nat.le_refl 2, ?_⟩⟩
      have hfirst := isVariableName_of_token hts
      have hsecond := isVariableName_of_token hts.tail.tail
      simpa using ⟨hfirst, hsecond⟩
    · cases h
    · cases h
  · obtain ⟨rfl, rfl⟩ := ok_pair_inj h
    exact (Takes.nil _).imp fun _ => ⟨Nat.zero_le _, List.forall_mem_nil _⟩

structure TakesPipes (n : Nat) : Prop where
  pipeline : ∀ {limit ts p rest}, ts.length ≤ n → pipeline limit ts = .ok (p, rest) →
    Takes ts p.kinds (p.Legible limit) rest.1
  stages : ∀ {ts cs rest}, ts.length ≤ n → stages ts = .ok (cs, rest) →
    Takes ts (stageKinds cs) (CommandsLegible cs) rest.1
  command : ∀ {ts c rest}, ts.length ≤ n → command ts = .ok (c, rest) →
    Takes ts c.kinds c.Legible rest.1
  operands : ∀ {ts es rest}, ts.length ≤ n → operands ts = .ok (es, rest) →
    Takes ts (argKinds es) (ArgsLegible es) rest.1
  operand : ∀ {token ts e rest}, ts.length ≤ n → operand token ts = .ok (e, rest) →
    Takes (token :: ts) e.kinds e.Legible rest.1

section

variable {n : Nat} (ih : ∀ m < n, TakesPipes m) {ts : List Token} (hn : ts.length ≤ n)
include ih hn

theorem takes_operands {es : List (Expr Untagged)} {rest : Rest ts}
    (h : operands ts = .ok (es, rest)) : Takes ts (argKinds es) (ArgsLegible es) rest.1 := by
  unfold operands at h
  cases ts with
  | nil =>
    obtain ⟨rfl, rfl⟩ := ok_pair_inj h
    exact .nil _
  | cons token ts =>
    rw [List.length_cons] at hn
    refine Lexer.ite_eq_ok_elim h (fun _ h => ?_) fun _ h => ?_
    · obtain ⟨rfl, rfl⟩ := ok_pair_inj h
      exact .nil _
    · obtain ⟨⟨first, ⟨rest₁, h₁⟩⟩, hfirst, h⟩ := bind_eq_ok_iff.mp h
      obtain ⟨⟨more, ⟨rest₂, h₂⟩⟩, hmore, h⟩ := bind_eq_ok_iff.mp h
      obtain ⟨rfl, rfl⟩ := ok_pair_inj h
      have hfirst := (ih ts.length (by omega)).operand (Nat.le_refl _) hfirst
      have hmore := (ih rest₁.length (by omega)).operands (Nat.le_refl _) hmore
      exact hfirst.append hmore

theorem takes_command {c : Command Untagged} {rest : Rest ts} (h : command ts = .ok (c, rest)) :
    Takes ts c.kinds c.Legible rest.1 := by
  unfold command at h
  obtain ⟨⟨es, rest'⟩, hes, h⟩ := bind_eq_ok_iff.mp h
  have hread := takes_operands ih hn hes
  cases es with
  | nil => cases h
  | cons head args =>
    obtain ⟨rfl, rfl⟩ := ok_pair_inj h
    exact hread

theorem takes_stages {cs : List (Command Untagged)} {rest : Rest ts}
    (h : stages ts = .ok (cs, rest)) : Takes ts (stageKinds cs) (CommandsLegible cs) rest.1 := by
  unfold stages at h
  split at h
  · next start ts =>
    rw [List.length_cons] at hn
    obtain ⟨⟨first, ⟨rest₁, h₁⟩⟩, hfirst, h⟩ := bind_eq_ok_iff.mp h
    obtain ⟨⟨more, ⟨rest₂, h₂⟩⟩, hmore, h⟩ := bind_eq_ok_iff.mp h
    obtain ⟨rfl, rfl⟩ := ok_pair_inj h
    have hfirst := (ih ts.length (by omega)).command (Nat.le_refl _) hfirst
    have hmore := (ih rest₁.length (by omega)).stages (Nat.le_refl _) hmore
    exact (hfirst.append hmore).cons ⟨.bar, start⟩
  · obtain ⟨rfl, rfl⟩ := ok_pair_inj h
    exact .nil _

theorem takes_pipeline {limit : DeclLimit} {p : Pipe Untagged} {rest : Rest ts}
    (h : pipeline limit ts = .ok (p, rest)) : Takes ts p.kinds (p.Legible limit) rest.1 := by
  unfold pipeline at h
  obtain ⟨⟨decls, ⟨rest₁, h₁⟩⟩, hdecls, h⟩ := bind_eq_ok_iff.mp h
  obtain ⟨⟨first, ⟨rest₂, h₂⟩⟩, hfirst, h⟩ := bind_eq_ok_iff.mp h
  obtain ⟨⟨more, ⟨rest₃, h₃⟩⟩, hmore, h⟩ := bind_eq_ok_iff.mp h
  obtain ⟨rfl, rfl⟩ := ok_pair_inj h
  have hfirst := takes_command ih (Nat.le_trans h₁ hn) hfirst
  have hmore := takes_stages ih (Nat.le_trans h₂ (Nat.le_trans h₁ hn)) hmore
  refine ((declarations_takes hdecls).append (hfirst.append hmore)).imp ?_
  rintro ⟨⟨hmost, hnames⟩, hcommands⟩
  exact ⟨hmost, hnames, List.cons_ne_nil _ _, hcommands⟩

theorem takes_operand {token : Token} {e : Expr Untagged} {rest : Rest ts}
    (h : operand token ts = .ok (e, rest)) : Takes (token :: ts) e.kinds e.Legible rest.1 := by
  unfold operand at h
  split at h
  · next a ha =>
    obtain ⟨rfl, rfl⟩ := ok_pair_inj h
    have hkinds : (Expr.atom () a : Expr Untagged).kinds = [token.kind] := by
      rw [kind_of_atom? ha]
      rfl
    exact ⟨hkinds ▸ rfl, fun hts => (hts token List.mem_cons_self).2 a ha⟩
  · split at h
    · next hkind =>
      obtain ⟨⟨inner, ⟨rest₁, h₁⟩⟩, hinner, h⟩ := bind_eq_ok_iff.mp h
      have hinner := takes_pipeline ih hn hinner
      simp only at h
      split at h
      · next fieldFollows start rest₂ _ _ =>
        refine Lexer.ite_eq_ok_elim h (fun _ h => by cases h) fun hfield h => ?_
        obtain ⟨rfl, rfl⟩ := ok_pair_inj h
        obtain rfl := Bool.eq_false_iff.mpr hfield
        have hclose := (Takes.nil rest₂).cons ⟨.rightParen false, start⟩
        have hread := (hinner.append hclose).cons token
        exact (hread.of_eq (by rw [hkind]; rfl)).imp And.left
      · cases h
    · cases h

end

theorem takesPipes (n : Nat) : TakesPipes n := by
  induction n using Nat.strongRecOn with | _ n ih
  exact ⟨fun hn h => takes_pipeline ih hn h, fun hn h => takes_stages ih hn h,
    fun hn h => takes_command ih hn h, fun hn h => takes_operands ih hn h,
    fun hn h => takes_operand ih hn h⟩

theorem pipeline_takes {limit : DeclLimit} {ts : List Token} {p : Pipe Untagged} {rest : Rest ts}
    (h : pipeline limit ts = .ok (p, rest)) : Takes ts p.kinds (p.Legible limit) rest.1 :=
  (takesPipes ts.length).pipeline (Nat.le_refl _) h

theorem close_takes {context : Context} {ts : List Token} {rest : Fewer ts}
    (h : close context ts = .ok rest) : Takes ts [.closing] True rest.1 := by
  unfold close at h
  split at h
  · next start ts =>
    obtain rfl := Except.ok.inj h
    exact (Takes.nil ts).cons ⟨.closing, start⟩
  · cases h

def DerivesStmt (ts : List Token) (s : Stmt Untagged) (rest : List Token) : Prop :=
  ∃ pieces, s.Spelled pieces ∧ Takes ts (pieceKinds pieces) s.Legible rest

theorem Takes.derivesStmt {ts rest : List Token} {phrases : List Phrase} {pieces : List Piece}
    {s : Stmt Untagged} (hs : s.Spelled (.action phrases :: pieces)) (opened : List Char)
    (h : Takes ts (phraseKinds phrases ++ .closing :: pieceKinds pieces) s.Legible rest) :
    DerivesStmt (⟨.opening, opened⟩ :: ts) s rest := by
  refine ⟨_, hs, (h.cons ⟨.opening, opened⟩).of_eq ?_⟩
  simpa using pieceKinds_action phrases pieces []

theorem invocation_derives {ts : List Token} {s : Stmt Untagged} {rest : Rest ts}
    (h : invocation ts = .ok (s, rest)) (opened start : List Char) :
    DerivesStmt (⟨.opening, opened⟩ :: ⟨.keyword .template, start⟩ :: ts) s rest.1 := by
  unfold invocation at h
  split at h
  · next name start' start'' ts =>
    obtain ⟨rfl, rfl⟩ := ok_pair_inj h
    exact ⟨_, .invoke name, rfl, fun _ => trivial⟩
  · next name start' ts _ =>
    obtain ⟨⟨p, ⟨rest₁, h₁⟩⟩, hp, h⟩ := bind_eq_ok_iff.mp h
    obtain ⟨⟨rest₂, h₂⟩, hclose, h⟩ := bind_eq_ok_iff.mp h
    obtain ⟨rfl, rfl⟩ := ok_pair_inj h
    have hkinds : phraseKinds [.word .template, .name name, .pipe p] =
        .keyword .template :: .str name :: p.kinds :=
      congrArg (List.cons _) (phraseKinds_name name p)
    have hread := ((pipeline_takes hp).append (close_takes hclose)).imp And.left
    refine Takes.derivesStmt (.invokeOn name p) opened ?_
    rw [hkinds]
    exact (hread.cons ⟨.str name, start'⟩).cons ⟨.keyword .template, start⟩
  · cases h

def stopKinds : Stop → List TokenKind
  | .finish => actionKinds [.keyword .finish]
  | .otherwise _ => [.opening, .keyword .otherwise]
  | .exhausted => []

def DerivesBranch (kind : BranchKind) (ts : List Token) (s : Stmt Untagged) (rest : List Token) :
    Prop :=
  ∃ p body elseBody inner tail, s = .branch () kind p body elseBody ∧ BlockSpelled body inner ∧
    TailSpelled kind elseBody tail ∧
    Takes ts (p.kinds ++ .closing :: pieceKinds (inner ++ tail)) s.Legible rest

/-- What is read from at most `n` tokens is derived from them. -/
structure Derives (n : Nat) : Prop where
  statement : ∀ {opened ts s rest}, ts.length ≤ n → statement opened ts = .ok (s, rest) →
    DerivesStmt (⟨.opening, opened⟩ :: ts) s rest.1
  branch : ∀ {kind opened ts s rest}, ts.length ≤ n → branch kind opened ts = .ok (s, rest) →
    DerivesBranch kind ts s rest.1
  block : ∀ {ts b stop rest}, ts.length ≤ n → block ts = .ok (b, stop, rest) →
    ∃ pieces, BlockSpelled b pieces ∧
      Takes ts (pieceKinds pieces ++ stopKinds stop) (BlockLegible b) rest.1

section

variable {n : Nat} (ih : ∀ m < n, Derives m) {ts : List Token} (hn : ts.length ≤ n)
include ih hn

theorem derives_block {b : Block Untagged} {stop : Stop} {rest : Rest ts}
    (h : block ts = .ok (b, stop, rest)) :
    ∃ pieces, BlockSpelled b pieces ∧
      Takes ts (pieceKinds pieces ++ stopKinds stop) (BlockLegible b) rest.1 := by
  unfold block at h
  split at h
  · obtain ⟨rfl, hend⟩ := ok_pair_inj h
    obtain ⟨rfl, rfl⟩ := Prod.mk.inj hend
    exact ⟨[], .nil, .nil _⟩
  · next text start ts =>
    rw [List.length_cons] at hn
    obtain ⟨⟨more, stop', ⟨rest', h'⟩⟩, hmore, h⟩ := bind_eq_ok_iff.mp h
    obtain ⟨rfl, hend⟩ := ok_pair_inj h
    obtain ⟨rfl, rfl⟩ := Prod.mk.inj hend
    obtain ⟨pieces, hspelled, hread⟩ := (ih ts.length (by omega)).block (Nat.le_refl _) hmore
    exact ⟨_, .cons (.text text) hspelled, hread.text text start⟩
  · next opened ts =>
    rw [List.length_cons] at hn
    split at h
    · next start ts =>
      obtain ⟨⟨rest', h'⟩, hclose, h⟩ := bind_eq_ok_iff.mp h
      obtain ⟨rfl, hend⟩ := ok_pair_inj h
      obtain ⟨rfl, rfl⟩ := Prod.mk.inj hend
      exact ⟨[], .nil, ((close_takes hclose).cons ⟨.keyword .finish, start⟩).cons
        ⟨.opening, opened⟩⟩
    · next start ts =>
      obtain ⟨rfl, hend⟩ := ok_pair_inj h
      obtain ⟨rfl, rfl⟩ := Prod.mk.inj hend
      exact ⟨[], .nil, ((Takes.nil ts).cons ⟨.keyword .otherwise, start⟩).cons
        ⟨.opening, opened⟩⟩
    · cases h
    · obtain ⟨⟨first, ⟨rest₁, h₁⟩⟩, hstmt, h⟩ := bind_eq_ok_iff.mp h
      obtain ⟨⟨more, stop', ⟨rest₂, h₂⟩⟩, hmore, h⟩ := bind_eq_ok_iff.mp h
      obtain ⟨rfl, hend⟩ := ok_pair_inj h
      obtain ⟨rfl, rfl⟩ := Prod.mk.inj hend
      obtain ⟨pieces, hfirst, hread⟩ := (ih _ (by omega)).statement (Nat.le_refl _) hstmt
      obtain ⟨pieces', hmore, hread'⟩ :=
        (ih rest₁.length (by omega)).block (Nat.le_refl _) hmore
      refine ⟨pieces ++ pieces', .cons hfirst hmore, (hread.append hread').of_eq ?_⟩
      rw [pieceKinds_append, List.append_assoc]
  · cases h

theorem derives_branch {kind : BranchKind} {opened : List Char} {s : Stmt Untagged}
    {rest : Rest ts} (h : branch kind opened ts = .ok (s, rest)) :
    DerivesBranch kind ts s rest.1 := by
  unfold branch at h
  obtain ⟨⟨p, ⟨rest₁, h₁⟩⟩, hp, h⟩ := bind_eq_ok_iff.mp h
  obtain ⟨⟨rest₂, h₂⟩, hclose, h⟩ := bind_eq_ok_iff.mp h
  obtain ⟨⟨body, stop, ⟨rest₃, h₃⟩⟩, hblock, h⟩ := bind_eq_ok_iff.mp h
  obtain ⟨inner, hbody, hread⟩ := (ih rest₂.length (by omega)).block (Nat.le_refl _) hblock
  have hhead := (pipeline_takes hp).append ((close_takes hclose).append hread)
  simp only at h
  split at h
  · obtain ⟨rfl, rfl⟩ := ok_pair_inj h
    refine ⟨p, body, [], inner, _, rfl, hbody, .finish kind, (hhead.of_eq ?_).imp ?_⟩
    · rw [pieceKinds_append]
      rfl
    · rintro ⟨hp, -, hbody⟩
      exact ⟨hp, hbody, trivial⟩
  · cases h
  · -- Behind an else stands either a keyword of the same kind or a body of its own.
    split at h
    · next kind' start rest₄ h₃ =>
      refine Lexer.ite_eq_ok_elim h (fun hkind h => ?_) fun _ h => by cases h
      obtain ⟨⟨chained, ⟨rest₅, h₅⟩⟩, hchained, h⟩ := bind_eq_ok_iff.mp h
      obtain ⟨rfl, rfl⟩ := ok_pair_inj h
      obtain ⟨rfl, hrange⟩ := hkind
      rw [List.length_cons] at h₃
      obtain ⟨p', body', elseBody', inner', tail', rfl, hbody', htail', hread'⟩ :=
        (ih rest₄.length (by omega)).branch (Nat.le_refl _) hchained
      refine ⟨p, body, _, inner, _, rfl, hbody, .chained hrange p' hbody' htail',
        ((hhead.append (hread'.cons ⟨.keyword (.branch kind'), start⟩)).of_eq ?_).imp ?_⟩
      · simp [Piece.kinds, phraseKinds, Phrase.kinds, actionKinds, stopKinds]
      · rintro ⟨⟨hp, -, hbody⟩, hchained⟩
        exact ⟨hp, hbody, hchained, trivial⟩
    · obtain ⟨⟨rest₄, h₄⟩, hclose', h⟩ := bind_eq_ok_iff.mp h
      obtain ⟨⟨elseBody, stop, ⟨rest₅, h₅⟩⟩, hblock', h⟩ := bind_eq_ok_iff.mp h
      obtain ⟨inner', helse, hread'⟩ :=
        (ih rest₄.length (by omega)).block (Nat.le_refl _) hblock'
      simp only at h
      split at h
      · obtain ⟨rfl, rfl⟩ := ok_pair_inj h
        refine ⟨p, body, elseBody, inner, _, rfl, hbody, .otherwise kind helse,
          ((hhead.append ((close_takes hclose').append hread')).of_eq ?_).imp ?_⟩
        · simp [Piece.kinds, phraseKinds, Phrase.kinds, actionKinds, stopKinds]
        · rintro ⟨⟨hp, -, hbody⟩, -, helse⟩
          exact ⟨hp, hbody, helse⟩
      · cases h
      · cases h

theorem derives_statement {opened : List Char} {s : Stmt Untagged} {rest : Rest ts}
    (h : statement opened ts = .ok (s, rest)) :
    DerivesStmt (⟨.opening, opened⟩ :: ts) s rest.1 := by
  unfold statement at h
  split at h
  · next kind start ts =>
    obtain ⟨⟨s', ⟨rest₁, h₁⟩⟩, hs, h⟩ := bind_eq_ok_iff.mp h
    obtain ⟨rfl, rfl⟩ := ok_pair_inj h
    obtain ⟨p, body, elseBody, inner, tail, rfl, hbody, htail, hread⟩ :=
      derives_branch ih (Nat.le_of_succ_le hn) hs
    refine Takes.derivesStmt (.branch p hbody htail) opened ?_
    rw [phraseKinds_word]
    exact hread.cons ⟨.keyword (.branch kind), start⟩
  · next start ts =>
    obtain ⟨⟨s', ⟨rest₁, h₁⟩⟩, hs, h⟩ := bind_eq_ok_iff.mp h
    obtain ⟨rfl, rfl⟩ := ok_pair_inj h
    exact invocation_derives hs opened start
  · obtain ⟨⟨p, ⟨rest₁, h₁⟩⟩, hp, h⟩ := bind_eq_ok_iff.mp h
    obtain ⟨⟨rest₂, h₂⟩, hclose, h⟩ := bind_eq_ok_iff.mp h
    obtain ⟨rfl, rfl⟩ := ok_pair_inj h
    refine Takes.derivesStmt (.action p) opened ?_
    rw [phraseKinds_pipe]
    exact ((pipeline_takes hp).append (close_takes hclose)).imp And.left

end

theorem derives (n : Nat) : Derives n := by
  induction n using Nat.strongRecOn with | _ n ih
  exact ⟨fun hn h => derives_statement ih hn h, fun hn h => derives_branch ih hn h,
    fun hn h => derives_block ih hn h⟩

theorem definition_derives {opened : List Char} {ts : List Token} {d : Definition} {rest : Rest ts}
    (h : definition opened ts = .ok (d, rest)) :
    ∃ inner, BlockSpelled d.body inner ∧ Takes ts (.str d.name :: .closing ::
      (pieceKinds inner ++ actionKinds [.keyword .finish])) (BlockLegible d.body) rest.1 := by
  unfold definition at h
  split at h
  · next name start ts =>
    obtain ⟨⟨rest₁, h₁⟩, hclose, h⟩ := bind_eq_ok_iff.mp h
    obtain ⟨⟨body, stop, ⟨rest₂, h₂⟩⟩, hblock, h⟩ := bind_eq_ok_iff.mp h
    obtain ⟨inner, hbody, hread⟩ := (derives rest₁.length).block (Nat.le_refl _) hblock
    simp only at h
    split at h
    · obtain ⟨rfl, rfl⟩ := ok_pair_inj h
      have hread := ((close_takes hclose).append hread).cons ⟨.str name, start⟩
      exact ⟨inner, hbody, hread.imp And.right⟩
    · cases h
    · cases h
  · cases h

theorem source_derives {ts : List Token} {source : Source} (h : Parser.source ts = .ok source) :
    ∃ pieces, source.Spelled pieces ∧ Takes ts (pieceKinds pieces)
      (BlockLegible source.main ∧ ∀ d ∈ source.definitions, BlockLegible d.body) [] := by
  -- A statement takes several tokens, so the induction is on their number.
  induction hn : ts.length using Nat.strongRecOn generalizing ts source with | _ n ih
  unfold Parser.source at h
  split at h
  · obtain rfl := Except.ok.inj h
    exact ⟨[], .nil, (Takes.nil []).imp fun _ => ⟨trivial, List.forall_mem_nil _⟩⟩
  · next text start ts =>
    rw [List.length_cons] at hn
    obtain ⟨⟨main, definitions⟩, hsource, h⟩ := bind_eq_ok_iff.mp h
    obtain rfl := Except.ok.inj h
    obtain ⟨pieces, hspelled, hread⟩ := ih ts.length (by omega) hsource rfl
    refine ⟨_, .stmt (.text text) hspelled, (hread.text text start).imp ?_⟩
    rintro ⟨htext, hmain, hdefinitions⟩
    exact ⟨⟨htext, hmain⟩, hdefinitions⟩
  · next opened ts =>
    rw [List.length_cons] at hn
    split at h
    · obtain ⟨_, -, h⟩ := bind_eq_ok_iff.mp h
      cases h
    · cases h
    · next start ts =>
      rw [List.length_cons] at hn
      obtain ⟨⟨first, ⟨rest', h'⟩⟩, hdefinition, h⟩ := bind_eq_ok_iff.mp h
      obtain ⟨⟨main, definitions⟩, hsource, h⟩ := bind_eq_ok_iff.mp h
      obtain rfl := Except.ok.inj h
      obtain ⟨inner, hbody, hread⟩ := definition_derives hdefinition
      obtain ⟨pieces, hspelled, hread'⟩ := ih rest'.length (by omega) hsource rfl
      have hread := ((hread.append hread').cons ⟨.keyword .define, start⟩).cons ⟨.opening, opened⟩
      refine ⟨_, .define hbody hspelled, (hread.of_eq ?_).imp ?_⟩
      · simp [Piece.kinds, phraseKinds, Phrase.kinds, actionKinds]
      · rintro ⟨hfirst, hmain, hdefinitions⟩
        exact ⟨hmain, List.forall_mem_cons.mpr ⟨hfirst, hdefinitions⟩⟩
    · obtain ⟨⟨first, ⟨rest', h'⟩⟩, hstmt, h⟩ := bind_eq_ok_iff.mp h
      obtain ⟨⟨main, definitions⟩, hsource, h⟩ := bind_eq_ok_iff.mp h
      obtain rfl := Except.ok.inj h
      obtain ⟨pieces, hfirst, hread⟩ := (derives _).statement (Nat.le_refl _) hstmt
      obtain ⟨pieces', hspelled, hread'⟩ := ih rest'.length (by omega) hsource rfl
      refine ⟨_, .stmt hfirst hspelled, ((hread.append hread').of_eq ?_).imp ?_⟩
      · exact pieceKinds_append _ _
      · rintro ⟨hfirst, hmain, hdefinitions⟩
        exact ⟨⟨hfirst, hmain⟩, hdefinitions⟩
  · cases h

theorem source_eq_ok_iff {ts : List Token} (hts : LegibleTokens ts) {source : Source} :
    Parser.source ts = .ok source ↔ BlockLegible source.main ∧
      (∀ d ∈ source.definitions, BlockLegible d.body) ∧
      ∃ pieces, source.Spelled pieces ∧ ts.map Token.kind = pieceKinds pieces := by
  constructor
  · intro h
    obtain ⟨pieces, hspelled, hread⟩ := source_derives h
    obtain ⟨hmain, hdefinitions⟩ := hread.legible hts
    exact ⟨hmain, hdefinitions, pieces, hspelled, hread.kinds_eq.trans (List.append_nil _)⟩
  · rintro ⟨hmain, hdefinitions, pieces, hspelled, hkinds⟩
    exact source_spelled hspelled hmain hdefinitions hkinds

end Parser

theorem Source.parse_eq_ok_iff {text : String} {source : Source} :
    Source.parse text = .ok source ↔
      ∃ tokens, Lexer.tokens text.toList = .ok tokens ∧ Parser.source tokens = .ok source := by
  rw [← bind_eq_ok_iff, Source.parse]
  cases Lexer.tokens text.toList >>= Parser.source with
  | ok s => simp
  | error failure => simp

theorem Source.parse_legible {text : String} {source : Source}
    (h : Source.parse text = .ok source) :
    BlockLegible source.main ∧ ∀ d ∈ source.definitions, BlockLegible d.body := by
  obtain ⟨tokens, htokens, hsource⟩ := Source.parse_eq_ok_iff.mp h
  obtain ⟨pieces, -, hread⟩ := Parser.source_derives hsource
  exact hread.legible (Lexer.tokensFrom_legible htokens)

end FlatTemplate

import FlatTemplate.Proofs.Template.Hygiene
import FlatTemplate.Proofs.Template.Listing
import FlatTemplate.Proofs.Text.Characters

namespace FlatTemplate

open Text

variable {ι : NodeKind → Type}

theorem isVariableName_iff {name : String} : isVariableName name.toList = true ↔
    ∃ cs, name.toList = '$' :: cs ∧ cs.all isWordChar = true := by
  constructor
  · intro h
    obtain ⟨cs, hcs⟩ := isVariable_of_isVariableName h
    rw [hcs] at h
    exact ⟨cs, hcs, h⟩
  · rintro ⟨cs, hcs, h⟩
    rw [hcs]
    exact h

theorem isVariableName_respell {tag name : String} (htag : Config.isFragment tag = true)
    (h : isVariableName name.toList = true) : isVariableName (respell tag name).toList = true := by
  obtain ⟨cs, hcs, hword⟩ := isVariableName_iff.mp h
  by_cases hroot : name = rootVariable
  · rw [hroot, respell_root, ← hroot]
    exact h
  · refine isVariableName_iff.mpr ⟨_, toList_respell hcs hroot, ?_⟩
    rw [List.all_append, hword, Bool.and_true]
    exact htag

theorem isVariableName_temporary {stem : String} (hstem : Config.isFragment stem = true) (k : Nat) :
    isVariableName (temporary stem k).toList = true := by
  refine isVariableName_iff.mpr ⟨_, toList_temporary stem k, ?_⟩
  have hdigits : (Nat.toDigits 10 k).all isWordChar = true :=
    List.all_eq_true.mpr fun c hc =>
      isWordChar_of_isDigit (Nat.isDigit_of_mem_toDigits (by decide) (by decide) hc)
  rw [List.all_append, hdigits, Bool.and_true]
  exact hstem

theorem Config.fragments_of_validate {config : Config} (h : config.validate = .ok ()) :
    isFragment config.tempStem = true ∧ isFragment config.userTag = true := by
  unfold validate at h
  split at h
  · cases h
  · split at h
    · cases h
    · split at h
      · cases h
      · next hstem =>
        split at h
        · cases h
        · next htag => exact ⟨by simpa using hstem, by simpa using htag⟩

def KeepsSpelling (g : String → String) : Prop :=
  ∀ name, isVariableName name.toList = true → isVariableName (g name).toList = true

section Rename

variable {g : String → String}

theorem Atom.Legible.rename {a : Atom} (h : a.Legible) (hg : KeepsSpelling g) :
    (a.rename g).Legible := by
  match a with
  | .var (first :: path) => exact ⟨hg first h.1, h.2⟩
  | .var [] | .field _ | .identifier _ | .number _ | .dot | .str _ | .bool _ => exact h

mutual

theorem Expr.Legible.rename {e : Expr ι} (h : e.Legible) (hg : KeepsSpelling g) :
    (e.rename g).Legible := by
  cases e with
  | atom _ a => exact Atom.Legible.rename h hg
  | paren _ inner => exact Pipe.Legible.rename h hg

theorem ArgsLegible.rename {es : List (Expr ι)} (h : ArgsLegible es) (hg : KeepsSpelling g) :
    ArgsLegible (argRename g es) := by
  cases es with
  | nil => trivial
  | cons e es => exact ⟨h.1.rename hg, h.2.rename hg⟩

theorem Command.Legible.rename {c : Command ι} (h : c.Legible) (hg : KeepsSpelling g) :
    (c.rename g).Legible := by
  obtain ⟨_, head, args⟩ := c
  exact ⟨h.1.rename hg, h.2.rename hg⟩

theorem CommandsLegible.rename {cs : List (Command ι)} (h : CommandsLegible cs)
    (hg : KeepsSpelling g) : CommandsLegible (commandRename g cs) := by
  cases cs with
  | nil => trivial
  | cons c cs => exact ⟨h.1.rename hg, h.2.rename hg⟩

theorem Pipe.Legible.rename {limit : Parser.DeclLimit} {p : Pipe ι} (h : p.Legible limit)
    (hg : KeepsSpelling g) : (p.rename g).Legible limit := by
  obtain ⟨_, decls, commands⟩ := p
  obtain ⟨hmost, hnames, hne, hcommands⟩ := h
  refine ⟨by rwa [List.length_map], List.forall_mem_map.mpr fun x hx => hg x (hnames x hx), ?_,
    CommandsLegible.rename hcommands hg⟩
  rwa [commandRename_eq_map, ne_eq, List.map_eq_nil_iff]

end

mutual

theorem Stmt.Legible.rename {s : Stmt ι} (h : s.Legible) (hg : KeepsSpelling g) :
    (s.rename g).Legible := by
  match s with
  | .text .. | .invoke _ _ none => exact h
  | .action _ p | .invoke _ _ (some p) => exact Pipe.Legible.rename h hg
  | .branch _ kind p body elseBody => exact ⟨h.1.rename hg, h.2.1.rename hg, h.2.2.rename hg⟩

theorem BlockLegible.rename {b : Block ι} (h : BlockLegible b) (hg : KeepsSpelling g) :
    BlockLegible (blockRename g b) := by
  cases b with
  | nil => trivial
  | cons s b => exact ⟨h.1.rename hg, h.2.rename hg⟩

end

end Rename

mutual

theorem Stmt.texts_rename (g : String → String) (s : Stmt ι) :
    blockTexts [s.rename g] = blockTexts [s] := by
  match s with
  | .text .. | .action .. | .invoke _ _ none | .invoke _ _ (some _) => rfl
  | .branch _ kind p body elseBody =>
    rw [Stmt.rename, blockTexts_branch, blockTexts_branch, blockTexts_rename g body,
      blockTexts_rename g elseBody]

theorem blockTexts_rename (g : String → String) (b : Block ι) :
    blockTexts (blockRename g b) = blockTexts b := by
  cases b with
  | nil => rfl
  | cons s b =>
    rw [blockRename, blockTexts_cons, blockTexts_cons s, s.texts_rename g, blockTexts_rename g b]

end

theorem argsLegible_iff {es : List (Expr ι)} : ArgsLegible es ↔ ∀ e ∈ es, e.Legible := by
  induction es with
  | nil => simp [ArgsLegible]
  | cons e es ih => rw [ArgsLegible, ih, List.forall_mem_cons]

theorem commandsLegible_iff {cs : List (Command ι)} : CommandsLegible cs ↔ ∀ c ∈ cs, c.Legible := by
  induction cs with
  | nil => simp [CommandsLegible]
  | cons c cs ih => rw [CommandsLegible, ih, List.forall_mem_cons]

theorem blockLegible_iff {b : Block ι} : BlockLegible b ↔ ∀ s ∈ b, s.Legible := by
  induction b with
  | nil => simp [BlockLegible]
  | cons s b ih => rw [BlockLegible, ih, List.forall_mem_cons]

theorem argsLegible_append {as bs : List (Expr ι)} :
    ArgsLegible (as ++ bs) ↔ ArgsLegible as ∧ ArgsLegible bs := by
  simp only [argsLegible_iff, List.forall_mem_append]

theorem commandsLegible_append {as bs : List (Command ι)} :
    CommandsLegible (as ++ bs) ↔ CommandsLegible as ∧ CommandsLegible bs := by
  simp only [commandsLegible_iff, List.forall_mem_append]

theorem blockLegible_append {as bs : Block ι} :
    BlockLegible (as ++ bs) ↔ BlockLegible as ∧ BlockLegible bs := by
  simp only [blockLegible_iff, List.forall_mem_append]

theorem blockTexts_append (as bs : Block ι) :
    blockTexts (as ++ bs) = blockTexts as ++ blockTexts bs := by
  induction as with
  | nil => rfl
  | cons s as ih => rw [List.cons_append, blockTexts_cons, ih, blockTexts_cons s as, List.append_assoc]

section Rewrites

variable {f : Fresh} (hname : isVariableName f.name.toList = true)
include hname

theorem Fresh.legible_read : f.read.Legible := ⟨⟨hname, nofun⟩, trivial⟩

theorem Expr.Legible.bound {e : Expr Handle} (h : e.Legible) : (e.bound f).Legible .one := by
  have hnames : ∀ name ∈ [f.name], isVariableName name.toList := by simpa using hname
  match e with
  | .atom id a => exact ⟨Nat.le_refl 1, hnames, List.cons_ne_nil _ _, ⟨h, trivial⟩, trivial⟩
  | .paren _ (.mk id [] commands) => exact ⟨Nat.le_refl 1, hnames, h.2.2⟩
  | .paren _ (.mk id (_ :: _) commands) => exact h

theorem Expr.Legible.stub {e : Expr Handle} (h : e.Legible) : (e.stub f).Legible := by
  match e with
  | .atom .. | .paren _ (.mk _ [] _) => exact ⟨hname, nofun⟩
  | .paren _ (.mk _ (name :: _) _) => exact ⟨h.2.1 name List.mem_cons_self, nofun⟩

theorem Pipe.Change.legible {pattern : Pattern} {limit : Parser.DeclLimit} {p : Pipe Handle}
    {r : Rewriting (Pipe Handle)} (h : Pipe.Change f pattern p r)
    (hsplit : r.found.edit = .splitPrint → 1 ≤ limit.most) (hp : p.Legible limit) :
    r.rest.Legible limit ∧ ∀ a ∈ r.ahead, a.Legible .one := by
  have hread := Fresh.legible_read hname
  have hnames : ∀ name ∈ [f.name], isVariableName name.toList := by simpa using hname
  cases h with
  | unwrap id decls c x inner commands =>
    obtain ⟨hmost, hdecls, -, ⟨⟨-, -, hne, hinner⟩, -⟩, -⟩ := hp
    exact ⟨⟨hmost, hdecls, hne, hinner⟩, nofun⟩
  | fold id decls v value c head args rest =>
    obtain ⟨hmost, hdecls, -, ⟨hvalue, -⟩, ⟨hhead, hargs⟩, hrest⟩ := hp
    have hargs' : ArgsLegible (args ++ [value]) :=
      argsLegible_append.mpr ⟨hargs, hvalue, trivial⟩
    exact ⟨⟨hmost, hdecls, List.cons_ne_nil _ _, ⟨hhead, hargs'⟩, hrest⟩, nofun⟩
  | leading _ rule id decls pre rest why =>
    obtain ⟨hmost, hdecls, -, hcommands⟩ := hp
    obtain ⟨hpre, hrest⟩ := commandsLegible_append.mp hcommands
    refine ⟨⟨hmost, hdecls, List.cons_ne_nil _ _, hread, hrest⟩, ?_⟩
    rintro _ ⟨⟩
    exact ⟨Nat.le_refl 1, hnames, why.ne_nil, hpre⟩
  | head _ rule id decls c rest why =>
    obtain ⟨c, head, args⟩ := c
    obtain ⟨hmost, hdecls, -, ⟨hhead, hargs⟩, hrest⟩ := hp
    refine ⟨⟨hmost, hdecls, List.cons_ne_nil _ _, ⟨hhead.stub hname, hargs⟩, hrest⟩, ?_⟩
    rintro _ ⟨⟩
    exact hhead.bound hname
  | arg id decls pre c head before e after post hpre hbefore he =>
    obtain ⟨hmost, hdecls, -, hcommands⟩ := hp
    obtain ⟨hpre, ⟨hhead, hargs⟩, hpost⟩ := commandsLegible_append.mp hcommands
    obtain ⟨hbefore, he, hafter⟩ := argsLegible_append.mp hargs
    have hargs' : ArgsLegible (before ++ e.stub f :: after) :=
      argsLegible_append.mpr ⟨hbefore, he.stub hname, hafter⟩
    refine ⟨⟨hmost, hdecls, List.append_ne_nil_of_right_ne_nil _ (List.cons_ne_nil _ _),
      commandsLegible_append.mpr ⟨hpre, ⟨hhead, hargs'⟩, hpost⟩⟩, ?_⟩
    rintro _ ⟨⟩
    exact he.bound hname
  | split id decls commands hcall =>
    exact ⟨⟨hsplit rfl, hnames, hp.2.2⟩, nofun⟩

theorem Pipe.Rewrites.legible {role : Role} {limit : Parser.DeclLimit} {p : Pipe Handle}
    {r : Rewriting (Pipe Handle)} (h : Pipe.Rewrites f role p r)
    (hsplit : r.found.edit = .splitPrint → 1 ≤ limit.most) (hp : p.Legible limit) :
    r.rest.Legible limit ∧ ∀ a ∈ r.ahead, a.Legible .one := by
  induction h generalizing limit with
  | here h =>
    obtain ⟨_, _, _, _, hchange, _⟩ := Role.rewrite?_eq_some h
    exact hchange.legible hname hsplit hp
  | head hown hpre h ih =>
    obtain ⟨hmost, hdecls, hne, hcommands⟩ := hp
    obtain ⟨hpre, ⟨hinner, hargs⟩, hpost⟩ := commandsLegible_append.mp hcommands
    obtain ⟨hrest, hahead⟩ := @ih .one (fun _ => Nat.le_refl 1) hinner
    exact ⟨⟨hmost, hdecls, List.append_ne_nil_of_right_ne_nil _ (List.cons_ne_nil _ _),
      commandsLegible_append.mpr ⟨hpre, ⟨hrest, hargs⟩, hpost⟩⟩, hahead⟩
  | @arg _ id decls pre c head before x inner after post r hown hpre hhead hbefore h ih =>
    obtain ⟨hmost, hdecls, hne, hcommands⟩ := hp
    obtain ⟨hpre, ⟨hhead, hargs⟩, hpost⟩ := commandsLegible_append.mp hcommands
    obtain ⟨hbefore, hinner, hafter⟩ := argsLegible_append.mp hargs
    obtain ⟨hrest, hahead⟩ := @ih .one (fun _ => Nat.le_refl 1) hinner
    have hargs' : ArgsLegible (before ++ .paren x r.rest :: after) :=
      argsLegible_append.mpr ⟨hbefore, hrest, hafter⟩
    exact ⟨⟨hmost, hdecls, List.append_ne_nil_of_right_ne_nil _ (List.cons_ne_nil _ _),
      commandsLegible_append.mpr ⟨hpre, ⟨hhead, hargs'⟩, hpost⟩⟩, hahead⟩

end Rewrites

theorem Stmt.Legible.govern {s : Stmt Handle} {p : Pipe Handle} (h : s.Legible)
    (hs : s.governing? ≠ none) (hp : p.Legible s.declLimit) : (s.govern p).Legible := by
  match s with
  | .action .. | .invoke _ _ (some _) => exact hp
  | .branch .. => exact ⟨hp, h.2⟩
  | .text .. | .invoke _ _ none => exact absurd rfl hs

theorem Stmt.texts_govern (s : Stmt Handle) (p : Pipe Handle) :
    blockTexts [s.govern p] = blockTexts [s] := by
  cases s with
  | text | action => rfl
  | branch => rw [Stmt.govern, blockTexts_branch, blockTexts_branch]
  | invoke _ _ pipe? => cases pipe? <;> rfl

theorem Stmt.one_le_declLimit {s : Stmt Handle} (h : s.role = .print) : 1 ≤ s.declLimit.most := by
  match s with
  | .action .. => exact Nat.le_refl 1
  | .text .. | .branch .. | .invoke .. => cases h

theorem Stmt.legible_rewriteOwn? {f : Fresh} (hname : isVariableName f.name.toList = true)
    {s : Stmt Handle} {own : BlockRewriting} (h : s.rewriteOwn? f = some own) (hs : s.Legible) :
    BlockLegible own.block ∧ blockTexts own.block = blockTexts [s] := by
  obtain ⟨p, r, hp, hrewrites, -, hblock⟩ := Stmt.rewriteOwn?_eq_some h
  obtain ⟨hrest, hahead⟩ := hrewrites.legible hname
    (fun hsplit => Stmt.one_le_declLimit (hrewrites.of_split hsplit).1) (hs.governing hp)
  have hgovern := hs.govern (by rw [hp]; nofun) hrest
  have hprint : f.print.Legible :=
    ⟨Nat.zero_le 1, nofun, List.cons_ne_nil _ _, Fresh.legible_read hname, trivial⟩
  have htexts := Stmt.texts_govern s r.rest
  rw [hblock]
  constructor
  · refine blockLegible_append.mpr ⟨?_, hgovern, ?_⟩
    · cases ha : r.ahead with
      | none => trivial
      | some a => exact ⟨hahead a ha, trivial⟩
    · split
      · exact ⟨hprint, trivial⟩
      · trivial
  · rw [blockTexts_append, blockTexts_cons, htexts]
    have hfront : blockTexts (r.ahead.map (Stmt.action f.stmt)).toList = [] := by
      cases r.ahead <;> rfl
    have hback : blockTexts (if r.found.edit = .splitPrint then [f.print] else []) = [] := by
      split <;> rfl
    rw [hfront, hback, List.nil_append, List.append_nil]

theorem BlockContext.legible_of_plug {C : BlockContext} {b : Block Handle}
    (h : BlockLegible (C.plug b)) : BlockLegible b := by
  induction C with
  | hole => exact h
  | inBody pre id kind pipe inner elseBody post ih =>
    exact ih (blockLegible_append.mp h).2.1.2.1
  | inElse pre id kind pipe body inner post ih =>
    exact ih (blockLegible_append.mp h).2.1.2.2

theorem BlockContext.legible_plug {C : BlockContext} {b b' : Block Handle}
    (h : BlockLegible (C.plug b)) (h' : BlockLegible b') : BlockLegible (C.plug b') := by
  induction C with
  | hole => exact h'
  | inBody pre id kind pipe inner elseBody post ih =>
    obtain ⟨hpre, ⟨hpipe, hbody, helse⟩, hpost⟩ := blockLegible_append.mp h
    exact blockLegible_append.mpr ⟨hpre, ⟨hpipe, ih hbody, helse⟩, hpost⟩
  | inElse pre id kind pipe body inner post ih =>
    obtain ⟨hpre, ⟨hpipe, hbody, helse⟩, hpost⟩ := blockLegible_append.mp h
    exact blockLegible_append.mpr ⟨hpre, ⟨hpipe, hbody, ih helse⟩, hpost⟩

theorem BlockContext.texts_plug (C : BlockContext) {b b' : Block Handle}
    (h : blockTexts b' = blockTexts b) : blockTexts (C.plug b') = blockTexts (C.plug b) := by
  induction C with
  | hole => exact h
  | inBody pre id kind pipe inner elseBody post ih =>
    simp only [BlockContext.plug, blockTexts_append, blockTexts_cons _ post, blockTexts_branch, ih]
  | inElse pre id kind pipe body inner post ih =>
    simp only [BlockContext.plug, blockTexts_append, blockTexts_cons _ post, blockTexts_branch, ih]

theorem legible_blockRewrite? {f : Fresh} (hname : isVariableName f.name.toList = true)
    {b : Block Handle} {r : BlockRewriting} (h : blockRewrite? f b = some r) (hb : BlockLegible b) :
    BlockLegible r.block ∧ blockTexts r.block = blockTexts b := by
  obtain ⟨C, pre, s, post, own, hown, rfl, rfl⟩ := blockRewrite?_eq_some h
  obtain ⟨hpre, hs, hpost⟩ := blockLegible_append.mp (BlockContext.legible_of_plug hb)
  obtain ⟨hblock, htexts⟩ := Stmt.legible_rewriteOwn? hname hown hs
  constructor
  · exact BlockContext.legible_plug hb
      (blockLegible_append.mpr ⟨blockLegible_append.mpr ⟨hpre, hblock⟩, hpost⟩)
  · refine C.texts_plug ?_
    rw [blockTexts_append, blockTexts_append, blockTexts_append, blockTexts_cons s, htexts,
      List.append_assoc]

theorem Draft.Run.legible {stem : String} (hstem : Config.isFragment stem = true) {n : Nat}
    {d d' : Draft} (h : Draft.Run stem n d d') (hd : BlockLegible d.block) :
    BlockLegible d'.block ∧ blockTexts d'.block = blockTexts d.block := by
  refine h.preserves (P := fun e => BlockLegible e.block ∧ blockTexts e.block = blockTexts d.block)
    (fun e e' r hnext he => ?_) ⟨hd, rfl⟩
  have hname : isVariableName (e.fresh stem).name.toList = true :=
    isVariableName_temporary hstem e.taken
  obtain ⟨hlegible, htexts⟩ := legible_blockRewrite? hname hnext.rewrite he.1
  rw [hnext.block]
  exact ⟨hlegible, htexts.trans he.2⟩

end FlatTemplate

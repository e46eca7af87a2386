import FlatTemplate.Proofs.Template.Governing
import FlatTemplate.Proofs.Template.Proper
import FlatTemplate.Proofs.Template.Runs

namespace FlatTemplate

def Entry.Named (A : String → Prop) : Entry → Prop
  | .pipe _ node => ∀ name ∈ node.decls, A name
  | .expr _ (.atom (.var path)) => ∀ name ∈ path.head?, A name
  | _ => True

def Pipe.Named (A : String → Prop) (p : Pipe Handle) : Prop := ∀ e ∈ p.entries, e.Named A

section Named

variable {A B : String → Prop}

theorem Entry.Named.mono {e : Entry} (h : e.Named A) (hAB : ∀ name, A name → B name) :
    e.Named B := by
  match e with
  | .pipe _ _ => exact fun name hname => hAB name (h name hname)
  | .expr _ (.atom (.var _)) => exact fun name hname => hAB name (h name hname)
  | .stmt .. | .command .. | .expr _ (.paren _) | .expr _ (.atom (.field _)) | .expr _ (.atom .dot)
  | .expr _ (.atom (.identifier _)) | .expr _ (.atom (.str _)) | .expr _ (.atom (.number _))
  | .expr _ (.atom (.bool _)) => trivial

theorem Entry.named_iff {e : Entry} : e.Named A ↔ ∀ name ∈ e.names, A name := by
  match e with
  | .pipe _ _ => rfl
  | .expr _ (.atom (.var (first :: path))) => simp [Named, names]
  | .stmt .. | .command .. | .expr _ (.paren _) | .expr _ (.atom (.var []))
  | .expr _ (.atom (.field _)) | .expr _ (.atom .dot) | .expr _ (.atom (.identifier _))
  | .expr _ (.atom (.str _)) | .expr _ (.atom (.number _)) | .expr _ (.atom (.bool _)) =>
    simp [Named, names]

theorem Pipe.named_iff {id : PipeId} {decls : List String} {commands : List (Command Handle)} :
    (Pipe.mk id decls commands).Named A ↔
      (∀ name ∈ decls, A name) ∧ ∀ e ∈ commandEntries commands, e.Named A := by
  rw [Named, Pipe.entries, List.forall_mem_cons]
  rfl

theorem governed_named {b : Block Handle} :
    Governed (Pipe.Named A) b ↔ ∀ e ∈ blockEntries b, e.Named A :=
  governed_entries (fun _ _ => trivial) b

theorem Entry.named_rename (g : String → String) {e : Entry} (h : e.Named A) :
    (e.rename g).Named fun name => ∃ x, A x ∧ g x = name := by
  match e with
  | .pipe _ _ =>
    intro name hname
    obtain ⟨x, hx, rfl⟩ := List.mem_map.mp hname
    exact ⟨x, h x hx, rfl⟩
  | .expr _ (.atom (.var (first :: path))) =>
    rintro _ ⟨⟩
    exact ⟨first, h first rfl, rfl⟩
  | .expr _ (.atom (.var [])) => exact nofun
  | .stmt .. | .command .. | .expr _ (.paren _) | .expr _ (.atom (.field _)) | .expr _ (.atom .dot)
  | .expr _ (.atom (.identifier _)) | .expr _ (.atom (.str _)) | .expr _ (.atom (.number _))
  | .expr _ (.atom (.bool _)) => trivial

theorem named_blockRename (g : String → String) {b : Block Handle}
    (h : Governed (Pipe.Named A) b) :
    Governed (Pipe.Named fun name => ∃ x, A x ∧ g x = name) (blockRename g b) := by
  rw [governed_named] at h ⊢
  rw [blockEntries_rename]
  intro e he
  obtain ⟨x, hx, rfl⟩ := List.mem_map.mp he
  exact Entry.named_rename g (h x hx)

theorem named_of_proper {b : Block Handle} (h : ∀ p ∈ blockPipes b, p.Proper) :
    Governed (Pipe.Named IsVariable) b := by
  rw [governed_named]
  intro e he
  obtain hstmt | ⟨p, hp, rfl | ⟨c, hc, rfl | ⟨x, hx, rfl⟩⟩⟩ := mem_blockEntries_nodes he
  · match e with
    | .stmt .. => trivial
  · exact (h p hp).decls
  · trivial
  · have hoperand := (h p hp).operands c hc x hx
    match x with
    | .paren .. | .atom _ (.field _) | .atom _ .dot | .atom _ (.identifier _)
    | .atom _ (.str _) | .atom _ (.number _) | .atom _ (.bool _) => trivial
    | .atom _ (.var path) =>
      obtain ⟨first, rest, rfl, hfirst⟩ := hoperand
      rintro _ ⟨⟩
      exact hfirst

variable {f : Fresh}

theorem Fresh.named_read (h : A f.name) : ∀ e ∈ commandEntries [f.read], e.Named A := by
  simpa [read, reading, commandEntries, argEntries, Command.entries, Expr.entries, Entry.Named]

theorem Expr.named_bound {e : Expr Handle} (he : ∀ x ∈ e.entries, x.Named A)
    (hf : e.takes = true → A f.name) : (e.bound f).Named A := by
  match e with
  | .atom id a =>
    rw [bound, Pipe.named_iff]
    refine ⟨by simpa using hf rfl, ?_⟩
    simpa [commandEntries, argEntries, Command.entries, Entry.Named] using he
  | .paren _ (.mk id [] commands) =>
    rw [bound, Pipe.named_iff]
    refine ⟨by simpa using hf rfl, fun x hx => he x ?_⟩
    simp [Expr.entries, Pipe.entries, hx]
  | .paren _ (.mk id (name :: names) commands) =>
    exact fun x hx => he x (List.mem_cons_of_mem _ hx)

theorem Expr.named_stub {e : Expr Handle} (he : ∀ x ∈ e.entries, x.Named A)
    (hf : e.takes = true → A f.name) : ∀ x ∈ (e.stub f).entries, x.Named A := by
  match e with
  | .atom id a => simpa [stub, Fresh.reading, Expr.entries, Entry.Named] using hf rfl
  | .paren _ (.mk id [] commands) =>
    simpa [stub, Fresh.reading, Expr.entries, Entry.Named] using hf rfl
  | .paren x (.mk id (name :: names) commands) =>
    have hdecls := he (.pipe id ⟨name :: names, commands.map Command.tag⟩)
      (by simp [Expr.entries, Pipe.entries])
    simpa [stub, Fresh.reading, Expr.entries, Entry.Named] using hdecls name (by simp)

theorem Pipe.Change.named {pattern : Pattern} {p : Pipe Handle} {r : Rewriting (Pipe Handle)}
    (h : Pipe.Change f pattern p r) (hf : r.taken = true → A f.name) (hp : p.Named A) :
    r.Keeps (Pipe.Named A) f := by
  cases h with
  | unwrap id decls c x inner commands =>
    rw [named_iff] at hp
    refine ⟨named_iff.mpr ⟨hp.1, fun e he => hp.2 e ?_⟩, by simp, by simp⟩
    simp [commandEntries, Command.entries, Expr.entries, Pipe.entries, argEntries, he]
  | fold id decls v value c head args rest =>
    rw [named_iff] at hp
    refine ⟨named_iff.mpr ⟨hp.1, ?_⟩, by simp, by simp⟩
    have := hp.2
    simp only [commandEntries, Command.entries, argEntries, argEntries_append] at this ⊢
    grind [Entry.Named]
  | leading _ rule id decls pre rest why =>
    rw [named_iff, commandEntries_append] at hp
    have hread := Fresh.named_read (hf rfl)
    refine ⟨named_iff.mpr ⟨hp.1, ?_⟩, ?_, by simp [bindLeading]⟩
    · exact List.forall_mem_append.mpr ⟨by simpa [commandEntries] using hread,
        (List.forall_mem_append.mp hp.2).2⟩
    · rintro _ ⟨⟩
      exact named_iff.mpr ⟨by simpa using hf rfl, (List.forall_mem_append.mp hp.2).1⟩
  | head _ rule id decls c rest why =>
    obtain ⟨c, head, args⟩ := c
    rw [named_iff] at hp
    simp only [commandEntries, Command.entries, List.cons_append, List.forall_mem_cons,
      List.forall_mem_append] at hp
    obtain ⟨hdecls, -, ⟨hhead, hargs⟩, hrest⟩ := hp
    refine ⟨named_iff.mpr ⟨hdecls, ?_⟩, ?_, by simp [bindHead]⟩
    · simp only [commandEntries, Command.entries, List.cons_append, List.forall_mem_cons,
        List.forall_mem_append]
      exact ⟨trivial, ⟨Expr.named_stub hhead hf, hargs⟩, hrest⟩
    · rintro _ ⟨⟩
      exact Expr.named_bound hhead hf
  | arg id decls pre c head before e after post hpre hbefore he =>
    rw [named_iff] at hp
    simp only [commandEntries_append, commandEntries, Command.entries, argEntries_append,
      argEntries, List.cons_append, List.forall_mem_cons, List.forall_mem_append] at hp
    obtain ⟨hdecls, hpre, -, ⟨hhead, hbefore, he, hafter⟩, hpost⟩ := hp
    refine ⟨named_iff.mpr ⟨hdecls, ?_⟩, ?_, by simp [bindArg]⟩
    · simp only [commandEntries_append, commandEntries, Command.entries, argEntries_append,
        argEntries, List.cons_append, List.forall_mem_cons, List.forall_mem_append]
      exact ⟨hpre, trivial, ⟨hhead, hbefore, Expr.named_stub he hf, hafter⟩, hpost⟩
    · rintro _ ⟨⟩
      exact Expr.named_bound he hf
  | split id decls commands hcall =>
    have hread := Fresh.named_read (hf rfl)
    rw [named_iff] at hp
    exact ⟨named_iff.mpr ⟨by simpa using hf rfl, hp.2⟩, by simp,
      fun _ => named_iff.mpr ⟨by simp, hread⟩⟩

theorem Pipe.Rewrites.named {role : Role} {p : Pipe Handle} {r : Rewriting (Pipe Handle)}
    (h : Pipe.Rewrites f role p r) (hf : r.taken = true → A f.name) (hp : p.Named A) :
    r.Keeps (Pipe.Named A) f := by
  induction h with
  | here h =>
    obtain ⟨_, _, _, _, hchange, _⟩ := Role.rewrite?_eq_some h
    exact hchange.named hf hp
  | head hown hpre h ih =>
    rw [named_iff] at hp
    simp only [commandEntries_append, commandEntries, Command.entries, Expr.entries,
      List.cons_append, List.forall_mem_cons, List.forall_mem_append] at hp
    obtain ⟨hdecls, hpre, -, -, ⟨hinner, hargs⟩, hpost⟩ := hp
    obtain ⟨hrest, hahead, -⟩ := ih hf hinner
    refine ⟨named_iff.mpr ⟨hdecls, ?_⟩, hahead, fun hedit => ?_⟩
    · simp only [commandEntries_append, commandEntries, Command.entries, Expr.entries,
        List.cons_append, List.forall_mem_cons, List.forall_mem_append]
      exact ⟨hpre, trivial, trivial, ⟨hrest, hargs⟩, hpost⟩
    · exact absurd hedit (h.edit_ne_split (by simp))
  | arg hown hpre hhead hbefore h ih =>
    rw [named_iff] at hp
    simp only [commandEntries_append, commandEntries, Command.entries, argEntries_append,
      argEntries, Expr.entries, List.cons_append, List.forall_mem_cons,
      List.forall_mem_append] at hp
    obtain ⟨hdecls, hpre, -, ⟨hhead, hbefore, -, hinner, hafter⟩, hpost⟩ := hp
    obtain ⟨hrest, hahead, -⟩ := ih hf hinner
    refine ⟨named_iff.mpr ⟨hdecls, ?_⟩, hahead, fun hedit => ?_⟩
    · simp only [commandEntries_append, commandEntries, Command.entries, argEntries_append,
        argEntries, Expr.entries, List.cons_append, List.forall_mem_cons,
        List.forall_mem_append]
      exact ⟨hpre, trivial, ⟨hhead, hbefore, trivial, hrest, hafter⟩, hpost⟩
    · exact absurd hedit (h.edit_ne_split (by simp))

theorem named_blockRewrite? {b : Block Handle} {r : BlockRewriting}
    (h : blockRewrite? f b = some r) (hf : r.taken = true → A f.name)
    (hb : Governed (Pipe.Named A) b) : Governed (Pipe.Named A) r.block :=
  governed_blockRewrite? h hb fun _ _ _ hrewrites htaken hp =>
    hrewrites.named (fun h => hf (htaken ▸ h)) hp

end Named

def InUse (user : String → Prop) (stem : String) (taken : Nat) (name : String) : Prop :=
  user name ∨ ∃ k < taken, name = temporary stem k

namespace Draft

variable {user : String → Prop} {stem : String} {n : Nat} {d d' : Draft} {r : BlockRewriting}

def Named (user : String → Prop) (stem : String) (d : Draft) : Prop :=
  Governed (Pipe.Named (InUse user stem d.taken)) d.block

theorem Next.named (h : Next stem d d' r) (hd : d.Named user stem) : d'.Named user stem := by
  have hle : d.taken ≤ d'.taken := by
    rw [h.taken]
    split <;> omega
  have hmono : Governed (Pipe.Named (InUse user stem d'.taken)) d.block :=
    hd.imp fun p hp e he => (hp e he).mono fun name => Or.imp_right
      fun ⟨k, hk, hname⟩ => ⟨k, Nat.lt_of_lt_of_le hk hle, hname⟩
  rw [Draft.Named, h.block]
  refine named_blockRewrite? h.rewrite (fun htaken => .inr ⟨d.taken, ?_, rfl⟩) hmono
  rw [h.taken, if_pos htaken]
  omega

theorem Run.named (h : Run stem n d d') (hd : d.Named user stem) : d'.Named user stem :=
  h.preserves (fun _ _ _ hnext => hnext.named) hd

end Draft

end FlatTemplate

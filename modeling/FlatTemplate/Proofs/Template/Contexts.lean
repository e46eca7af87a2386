import FlatTemplate.Proofs.Template.Changes

namespace FlatTemplate

/-- A pipeline is changed itself, or else the first pipeline among its operands that can be. -/
inductive Pipe.Rewrites (f : Fresh) : Role → Pipe Handle → Rewriting (Pipe Handle) → Prop where
  | here {role p r} (h : role.rewrite? f p = some r) : Rewrites f role p r
  | head {role id decls pre c x inner args post r}
      (hown : role.rewrite? f (.mk id decls (pre ++ .mk c (.paren x inner) args :: post)) = none)
      (hpre : ∀ d ∈ pre, d.rewrite? f = none) (h : Rewrites f .nested inner r) :
      Rewrites f role (.mk id decls (pre ++ .mk c (.paren x inner) args :: post))
        (r.map fun p => .mk id decls (pre ++ .mk c (.paren x p) args :: post))
  | arg {role id decls pre c head before x inner after post r}
      (hown : role.rewrite? f
        (.mk id decls (pre ++ .mk c head (before ++ .paren x inner :: after) :: post)) = none)
      (hpre : ∀ d ∈ pre, d.rewrite? f = none) (hhead : head.rewrite? f = none)
      (hbefore : ∀ e ∈ before, e.rewrite? f = none) (h : Rewrites f .nested inner r) :
      Rewrites f role (.mk id decls (pre ++ .mk c head (before ++ .paren x inner :: after) :: post))
        (r.map fun p => .mk id decls (pre ++ .mk c head (before ++ .paren x p :: after) :: post))

section Inversion

variable {f : Fresh}

theorem Expr.rewrite?_eq_some {e : Expr Handle} {r : Rewriting (Expr Handle)}
    (h : e.rewrite? f = some r) :
    ∃ x inner q, e = .paren x inner ∧ inner.rewrite? f .nested = some q ∧
      r = q.map (.paren x) := by
  cases e with
  | atom id a => simp [Expr.rewrite?] at h
  | paren x inner =>
    obtain ⟨q, hq, rfl⟩ := Option.map_eq_some_iff.mp h
    exact ⟨x, inner, q, rfl, hq, rfl⟩

theorem argRewrite?_eq_some {es : List (Expr Handle)} {r : Rewriting (List (Expr Handle))}
    (h : argRewrite? f es = some r) :
    ∃ before e after q, es = before ++ e :: after ∧ (∀ a ∈ before, a.rewrite? f = none) ∧
      e.rewrite? f = some q ∧ r = q.map fun e => before ++ e :: after := by
  induction es generalizing r with
  | nil => simp [argRewrite?] at h
  | cons e es ih =>
    rw [argRewrite?] at h
    cases he : e.rewrite? f with
    | some q =>
      simp only [he, Option.some.injEq] at h
      exact ⟨[], e, es, q, rfl, by simp, he, h.symm⟩
    | none =>
      simp only [he] at h
      obtain ⟨r, hr, rfl⟩ := Option.map_eq_some_iff.mp h
      obtain ⟨before, e', after, q, rfl, hbefore, hq, rfl⟩ := ih hr
      exact ⟨e :: before, e', after, q, rfl, by simpa [he] using hbefore, hq, rfl⟩

theorem commandRewrite?_eq_some {cs : List (Command Handle)}
    {r : Rewriting (List (Command Handle))} (h : commandRewrite? f cs = some r) :
    ∃ pre c post q, cs = pre ++ c :: post ∧ (∀ d ∈ pre, d.rewrite? f = none) ∧
      c.rewrite? f = some q ∧ r = q.map fun c => pre ++ c :: post := by
  induction cs generalizing r with
  | nil => simp [commandRewrite?] at h
  | cons c cs ih =>
    rw [commandRewrite?] at h
    cases hc : c.rewrite? f with
    | some q =>
      simp only [hc, Option.some.injEq] at h
      exact ⟨[], c, cs, q, rfl, by simp, hc, h.symm⟩
    | none =>
      simp only [hc] at h
      obtain ⟨r, hr, rfl⟩ := Option.map_eq_some_iff.mp h
      obtain ⟨pre, c', post, q, rfl, hpre, hq, rfl⟩ := ih hr
      exact ⟨c :: pre, c', post, q, rfl, by simpa [hc] using hpre, hq, rfl⟩

theorem Pipe.rewrite?_rewrites {role : Role} {p : Pipe Handle} {r : Rewriting (Pipe Handle)}
    (h : p.rewrite? f role = some r) : Pipe.Rewrites f role p r := by
  induction hn : p.size using Nat.strongRecOn generalizing role p r with | _ n ih
  obtain ⟨id, decls, commands⟩ := p
  rw [Pipe.rewrite?] at h
  cases hown : role.rewrite? f (.mk id decls commands) with
  | some q =>
    obtain rfl : q = r := by simpa [hown] using h
    exact .here hown
  | none =>
    simp only [hown] at h
    obtain ⟨q, hq, rfl⟩ := Option.map_eq_some_iff.mp h
    obtain ⟨pre, ⟨c, head, args⟩, post, q, rfl, hpre, hc, rfl⟩ := commandRewrite?_eq_some hq
    rw [Command.rewrite?] at hc
    cases hhead : head.rewrite? f with
    | some q' =>
      obtain rfl : _ = q := by simpa [hhead] using hc
      obtain ⟨x, inner, q, rfl, hinner, rfl⟩ := Expr.rewrite?_eq_some hhead
      refine .head hown hpre (ih _ ?_ hinner rfl)
      simp only [← hn, Pipe.size, commandsSize_append, commandsSize, Command.size, Expr.size]
      omega
    | none =>
      simp only [hhead] at hc
      obtain ⟨q', hargs, rfl⟩ := Option.map_eq_some_iff.mp hc
      obtain ⟨before, e, after, q, rfl, hbefore, he, rfl⟩ := argRewrite?_eq_some hargs
      obtain ⟨x, inner, q, rfl, hinner, rfl⟩ := Expr.rewrite?_eq_some he
      refine .arg hown hpre hhead hbefore (ih _ ?_ hinner rfl)
      simp only [← hn, Pipe.size, commandsSize_append, commandsSize, Command.size, Expr.size,
        argsSize_append, argsSize]
      omega

theorem Pipe.Rewrites.ahead_declares {role : Role} {p a : Pipe Handle}
    {r : Rewriting (Pipe Handle)} (h : Pipe.Rewrites f role p r) (ha : r.ahead = some a) :
    a.decls ≠ [] := by
  induction h with
  | here h =>
    obtain ⟨_, _, _, _, hchange, _⟩ := Role.rewrite?_eq_some h
    exact hchange.ahead_declares ha
  | head _ _ _ ih => exact ih ha
  | arg _ _ _ _ _ ih => exact ih ha

theorem Pipe.Rewrites.edit_ne_split {p : Pipe Handle} {role : Role} {r : Rewriting (Pipe Handle)}
    (h : Pipe.Rewrites f role p r) (hrole : role ≠ .print) : r.found.edit ≠ .splitPrint := by
  induction h with
  | @here role p r h =>
    obtain ⟨before, pattern, after, hmem, hchange, -⟩ := Role.rewrite?_eq_some h
    cases hchange with
    | unwrap | fold | leading | head | arg =>
      simp [Pipe.bindLeading, Pipe.bindHead, Pipe.bindArg]
    | split =>
      have : Pattern.printedCall ∈ role.patterns := by simp [hmem]
      cases role <;> simp [Role.patterns] at this hrole
  | head _ _ _ ih => exact ih (by simp)
  | arg _ _ _ _ _ ih => exact ih (by simp)

theorem Pipe.Rewrites.of_split {p : Pipe Handle} {role : Role} {r : Rewriting (Pipe Handle)}
    (h : Pipe.Rewrites f role p r) (hsplit : r.found.edit = .splitPrint) :
    role = .print ∧ r.ahead = none ∧ r.rest = .mk p.tag [f.name] p.commands := by
  have hrole : role = .print := Decidable.byContradiction fun hrole => h.edit_ne_split hrole hsplit
  refine ⟨hrole, ?_⟩
  cases h with
  | here h =>
    obtain ⟨_, _, _, _, hchange, -⟩ := Role.rewrite?_eq_some h
    cases hchange with
    | unwrap | fold | leading | head | arg =>
      simp [Pipe.bindLeading, Pipe.bindHead, Pipe.bindArg] at hsplit
    | split => exact ⟨rfl, rfl⟩
  | head _ _ h | arg _ _ _ _ h => exact absurd hsplit (h.edit_ne_split (by simp))

theorem Pipe.Rewrites.rest_decls {role : Role} {p : Pipe Handle} {r : Rewriting (Pipe Handle)}
    (h : Pipe.Rewrites f role p r) :
    r.rest.decls = if r.found.edit = .splitPrint then [f.name] else p.decls := by
  induction h with
  | here h =>
    obtain ⟨_, _, _, _, hchange, _⟩ := Role.rewrite?_eq_some h
    exact hchange.rest_decls
  | head _ _ h ih => simp [Rewriting.map, h.edit_ne_split (by simp)]
  | arg _ _ _ _ h ih => simp [Rewriting.map, h.edit_ne_split (by simp)]

theorem Pipe.Rewrites.rest_tag {role : Role} {p : Pipe Handle} {r : Rewriting (Pipe Handle)}
    (h : Pipe.Rewrites f role p r) : r.rest.tag = p.tag := by
  cases h with
  | here h =>
    obtain ⟨_, _, _, _, hchange, _⟩ := Role.rewrite?_eq_some h
    exact hchange.rest_tag
  | head | arg => rfl

end Inversion

namespace Stmt

def role : Stmt Handle → Role
  | .action _ p => p.actionRole
  | _ => .subject

def govern (p : Pipe Handle) : Stmt Handle → Stmt Handle
  | .action id _ => .action id p
  | .branch id kind _ body elseBody => .branch id kind p body elseBody
  | .invoke id name (some _) => .invoke id name (some p)
  | s => s

theorem rewriteOwn?_eq (f : Fresh) (s : Stmt Handle) :
    s.rewriteOwn? f = s.governing?.bind fun p =>
      (p.rewrite? f s.role).map fun r => (r.map (s.govern ·)).around f s.tag := by
  match s with
  | .text .. | .action .. | .branch .. | .invoke _ _ none | .invoke _ _ (some _) => rfl

theorem block_around {α : Type} (f : Fresh) (host : StmtId) (g : α → Stmt Handle)
    (r : Rewriting α) : ((r.map g).around f host).block =
      (r.ahead.map (.action f.stmt)).toList ++ g r.rest ::
        (if r.found.edit = .splitPrint then [f.print] else []) := rfl

theorem rewriteOwn?_eq_around {f : Fresh} {s : Stmt Handle} {own : BlockRewriting}
    (h : s.rewriteOwn? f = some own) :
    ∃ p q, s.governing? = some p ∧ Pipe.Rewrites f s.role p q ∧
      own = (q.map (s.govern ·)).around f s.tag := by
  rw [rewriteOwn?_eq] at h
  obtain ⟨p, hp, h⟩ := Option.bind_eq_some_iff.mp h
  obtain ⟨q, hq, rfl⟩ := Option.map_eq_some_iff.mp h
  exact ⟨p, q, hp, Pipe.rewrite?_rewrites hq, rfl⟩

theorem rewriteOwn?_eq_some {f : Fresh} {s : Stmt Handle} {own : BlockRewriting}
    (h : s.rewriteOwn? f = some own) :
    ∃ p q, s.governing? = some p ∧ Pipe.Rewrites f s.role p q ∧ q.taken = own.taken ∧
      own.block = (q.ahead.map (.action f.stmt)).toList ++ s.govern q.rest ::
        (if q.found.edit = .splitPrint then [f.print] else []) := by
  obtain ⟨p, q, hp, hrewrites, rfl⟩ := rewriteOwn?_eq_around h
  exact ⟨p, q, hp, hrewrites, rfl, block_around ..⟩

theorem governing?_govern {s : Stmt Handle} {p : Pipe Handle} (hs : s.governing? = some p)
    (q : Pipe Handle) : (s.govern q).governing? = some q := by
  match s with
  | .action .. | .branch .. | .invoke _ _ (some _) => rfl

theorem rewrite?_eq_some {f : Fresh} {s : Stmt Handle} {r : BlockRewriting}
    (h : s.rewrite? f = some r) :
    s.rewriteOwn? f = some r ∨ ∃ id kind p body elseBody q,
      s = .branch id kind p body elseBody ∧
        (blockRewrite? f body = some q ∧
            r = { q with block := [.branch id kind p q.block elseBody] } ∨
          blockRewrite? f elseBody = some q ∧
            r = { q with block := [.branch id kind p body q.block] }) := by
  match s with
  | .text .. | .action .. | .invoke .. => exact .inl h
  | .branch id kind p body elseBody =>
    rw [Stmt.rewrite?] at h
    cases hown : (Stmt.branch id kind p body elseBody).rewriteOwn? f with
    | some q =>
      simp only [hown] at h
      exact .inl h
    | none =>
      simp only [hown] at h
      cases hbody : blockRewrite? f body with
      | some q =>
        simp only [hbody, Option.some.injEq] at h
        exact .inr ⟨id, kind, p, body, elseBody, q, rfl, .inl ⟨hbody, h.symm⟩⟩
      | none =>
        simp only [hbody] at h
        obtain ⟨q, helse, rfl⟩ := Option.map_eq_some_iff.mp h
        exact .inr ⟨id, kind, p, body, elseBody, q, rfl, .inr ⟨helse, rfl⟩⟩

end Stmt

inductive BlockContext where
  | hole
  | inBody (pre : Block Handle) (id : StmtId) (kind : BranchKind) (pipe : Pipe Handle)
    (inner : BlockContext) (elseBody post : Block Handle)
  | inElse (pre : Block Handle) (id : StmtId) (kind : BranchKind) (pipe : Pipe Handle)
    (body : Block Handle) (inner : BlockContext) (post : Block Handle)

def BlockContext.plug : BlockContext → Block Handle → Block Handle
  | .hole, b => b
  | .inBody pre id kind pipe inner elseBody post, b =>
    pre ++ .branch id kind pipe (inner.plug b) elseBody :: post
  | .inElse pre id kind pipe body inner post, b =>
    pre ++ .branch id kind pipe body (inner.plug b) :: post

theorem blockRewrite?_eq_some_split {f : Fresh} {b : Block Handle} {r : BlockRewriting}
    (h : blockRewrite? f b = some r) :
    ∃ pre s post q, b = pre ++ s :: post ∧ s.rewrite? f = some q ∧
      r = { q with block := pre ++ q.block ++ post } := by
  induction b generalizing r with
  | nil => simp [blockRewrite?] at h
  | cons s b ih =>
    rw [blockRewrite?] at h
    cases hs : s.rewrite? f with
    | some q =>
      simp only [hs, Option.some.injEq] at h
      exact ⟨[], s, b, q, rfl, hs, by simpa using h.symm⟩
    | none =>
      simp only [hs] at h
      obtain ⟨q, hq, rfl⟩ := Option.map_eq_some_iff.mp h
      obtain ⟨pre, s', post, q', rfl, hs', rfl⟩ := ih hq
      exact ⟨s :: pre, s', post, q', rfl, hs', rfl⟩

theorem blockRewrite?_eq_some {f : Fresh} {b : Block Handle} {r : BlockRewriting}
    (h : blockRewrite? f b = some r) :
    ∃ (C : BlockContext) (pre : Block Handle) (s : Stmt Handle) (post : Block Handle)
      (own : BlockRewriting), s.rewriteOwn? f = some own ∧ b = C.plug (pre ++ s :: post) ∧
        r = { own with block := C.plug (pre ++ own.block ++ post) } := by
  induction hn : blockSize b using Nat.strongRecOn generalizing b r with | _ n ih
  obtain ⟨pre, s, post, q, rfl, hs, rfl⟩ := blockRewrite?_eq_some_split h
  rcases Stmt.rewrite?_eq_some hs with hown | ⟨id, kind, p, body, elseBody, q, rfl, hin⟩
  · exact ⟨.hole, pre, s, post, q, hown, rfl, rfl⟩
  · simp only [blockSize_append, blockSize, Stmt.size] at hn
    rcases hin with ⟨hq, rfl⟩ | ⟨hq, rfl⟩
    · obtain ⟨C, pre', s, post', own, hown, rfl, rfl⟩ := ih _ (by omega) hq rfl
      refine ⟨.inBody pre id kind p C elseBody post, pre', s, post', own, hown, rfl, ?_⟩
      simp [BlockContext.plug]
    · obtain ⟨C, pre', s, post', own, hown, rfl, rfl⟩ := ih _ (by omega) hq rfl
      refine ⟨.inElse pre id kind p body C post, pre', s, post', own, hown, rfl, ?_⟩
      simp [BlockContext.plug]

end FlatTemplate

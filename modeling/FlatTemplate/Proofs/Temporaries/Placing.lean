import FlatTemplate.Proofs.Temporaries.Moving

namespace FlatTemplate

def Entry.mentions (x : String) : Entry → Bool
  | .expr _ (.atom (.var (first :: _))) => first = x
  | _ => false

theorem Entry.isAtom_of_mentions {x : String} {e : Entry} (h : e.mentions x) : e.isAtom := by
  match e with
  | .expr _ (.atom (.var (_ :: _))) => rfl

def Pipe.Mentions (x : String) (p : Pipe Handle) : Prop := ∃ e ∈ p.entries, e.mentions x

def Stmt.IsAdded (n : Nat) : Stmt Handle → Prop
  | .action id _ => n ≤ id.index
  | _ => False

/-- Somewhere an action declares `x` alone, and the next statement that is not added mentions it, if
none before does. -/
inductive Introduces (x : String) (n : Nat) : Block Handle → Prop where
  | here {id p between host q rest} (hdecls : p.decls = [x])
      (hbetween : ∀ s ∈ between, Stmt.IsAdded n s) (hhost : host.governing? = some q)
      (hmentions : q.Mentions x) :
      Introduces x n (.action id p :: (between ++ host :: rest))
  | behind (s) {b} (h : Introduces x n b) : Introduces x n (s :: b)
  | inBody {id kind p body elseBody rest} (h : Introduces x n body) :
      Introduces x n (.branch id kind p body elseBody :: rest)
  | inElse {id kind p body elseBody rest} (h : Introduces x n elseBody) :
      Introduces x n (.branch id kind p body elseBody :: rest)

namespace Introduces

variable {x : String} {n : Nat} {b : Block Handle}

theorem directly {id : StmtId} {p q : Pipe Handle} {host : Stmt Handle} {rest : Block Handle}
    (hdecls : p.decls = [x]) (hhost : host.governing? = some q) (hmentions : q.Mentions x) :
    Introduces x n (.action id p :: host :: rest) :=
  @here x n id p [] host q rest hdecls (List.forall_mem_nil _) hhost hmentions

theorem append_left (h : Introduces x n b) (pre : Block Handle) : Introduces x n (pre ++ b) := by
  induction pre with
  | nil => exact h
  | cons s pre ih => exact ih.behind s

theorem append_right (h : Introduces x n b) (post : Block Handle) : Introduces x n (b ++ post) := by
  induction h with
  | @here id p between host q rest hdecls hbetween hhost hmentions =>
    rw [List.cons_append, List.append_assoc, List.cons_append]
    exact here hdecls hbetween hhost hmentions
  | behind s _ ih => exact ih.behind s
  | inBody h => exact inBody h
  | inElse h => exact inElse h

theorem plug (h : Introduces x n b) (C : BlockContext) : Introduces x n (C.plug b) := by
  induction C with
  | hole => exact h
  | inBody pre id kind pipe inner elseBody post ih => exact (inBody ih).append_left pre
  | inElse pre id kind pipe body inner post ih => exact (inElse ih).append_left pre

end Introduces

section Rewriting

variable {f : Fresh} {x : String} {n : Nat}

theorem Pipe.Rewrites.mentions {role : Role} {p : Pipe Handle} {r : Rewriting (Pipe Handle)}
    (h : Pipe.Rewrites f role p r) (hx : x ≠ f.name) (hp : p.Mentions x) :
    r.rest.Mentions x ∨ ∃ a, r.ahead = some a ∧ a.Mentions x := by
  obtain ⟨e, he, hmentions⟩ := hp
  have hatom : e ∈ atomsIn p.entries :=
    List.mem_filter.mpr ⟨he, Entry.isAtom_of_mentions hmentions⟩
  have hmem := h.perm_atomsIn.mem_iff.mpr (List.mem_append_right _ hatom)
  have hmem := (List.mem_filter.mp hmem).1
  simp only [Rewriting.entries, List.mem_append] at hmem
  rcases hmem with hmem | hmem | hmem
  · cases ha : r.ahead with
    | none =>
      rw [ha] at hmem
      cases hmem
    | some a =>
      rw [ha] at hmem
      exact .inr ⟨a, rfl, e, hmem, hmentions⟩
  · exact .inl ⟨e, hmem, hmentions⟩
  · split at hmem
    · have hread : (Pipe.mk f.pipe [] [f.read]).entries.filter (Entry.mentions x) = [] := by
        simp [Pipe.entries, commandEntries, Command.entries, argEntries, Fresh.read, Fresh.reading,
          Expr.entries, Entry.mentions, hx.symm]
      exact absurd (List.mem_filter.mpr ⟨hmem, hmentions⟩) (by rw [hread]; exact List.not_mem_nil)
    · cases hmem

theorem Stmt.rewrite?_action (id : StmtId) (p : Pipe Handle) :
    (Stmt.action id p).rewrite? f = (Stmt.action id p).rewriteOwn? f := rfl

theorem Stmt.rewrite?_branch {id : StmtId} {kind : BranchKind} {p : Pipe Handle}
    {body elseBody : Block Handle} {r : BlockRewriting}
    (h : (Stmt.branch id kind p body elseBody).rewrite? f = some r) :
    (∃ pre q post, r.block = pre ++ .branch id kind q body elseBody :: post) ∨
      (∃ q, blockRewrite? f body = some q ∧ r.block = [.branch id kind p q.block elseBody]) ∨
      ∃ q, blockRewrite? f elseBody = some q ∧ r.block = [.branch id kind p body q.block] := by
  rcases Stmt.rewrite?_eq_some h with hown | ⟨_, _, _, _, _, q, heq, hin⟩
  · obtain ⟨p', q, -, -, -, hblock⟩ := Stmt.rewriteOwn?_eq_some hown
    exact .inl ⟨_, q.rest, _, hblock⟩
  · obtain ⟨rfl, rfl, rfl, rfl, rfl⟩ := Stmt.branch.inj heq
    rcases hin with ⟨hq, rfl⟩ | ⟨hq, rfl⟩
    · exact .inr (.inl ⟨q, hq, rfl⟩)
    · exact .inr (.inr ⟨q, hq, rfl⟩)

theorem Stmt.isAdded_rewrite? {s : Stmt Handle} {r : BlockRewriting} (h : s.rewrite? f = some r)
    (hn : n ≤ f.stmt.index) (hs : s.IsAdded n) : ∀ s' ∈ r.block, s'.IsAdded n := by
  match s with
  | .action id p =>
    rw [rewrite?_action] at h
    obtain ⟨p', q, hp, -, -, hblock⟩ := Stmt.rewriteOwn?_eq_some h
    rw [hblock, List.forall_mem_append, List.forall_mem_cons]
    refine ⟨fun s' hs' => ?_, hs, fun s' hs' => ?_⟩
    · obtain ⟨a, -, rfl⟩ := Option.map_eq_some_iff.mp (Option.mem_toList.mp hs')
      exact hn
    · split at hs'
      · obtain rfl := List.mem_singleton.mp hs'
        exact hn
      · cases hs'

theorem Stmt.mentions_rewrite? {s : Stmt Handle} {p : Pipe Handle} {r : BlockRewriting}
    (h : s.rewrite? f = some r) (hn : n ≤ f.stmt.index) (hx : x ≠ f.name)
    (hs : s.governing? = some p) (hp : p.Mentions x) :
    ∃ between host q rest, r.block = between ++ host :: rest ∧
      (∀ s ∈ between, Stmt.IsAdded n s) ∧ host.governing? = some q ∧ q.Mentions x := by
  rcases Stmt.rewrite?_eq_some h with hown | ⟨id, kind, p', body, elseBody, q, rfl, hin⟩
  · obtain ⟨p', q, hp', hrewrites, -, hblock⟩ := Stmt.rewriteOwn?_eq_some hown
    obtain rfl := Option.some.inj (hs.symm.trans hp')
    rcases hrewrites.mentions hx hp with hrest | ⟨a, ha, hmentions⟩
    · refine ⟨_, _, q.rest, _, hblock, fun s' hs' => ?_, Stmt.governing?_govern hs _, hrest⟩
      obtain ⟨a, -, rfl⟩ := Option.map_eq_some_iff.mp (Option.mem_toList.mp hs')
      exact hn
    · rw [ha] at hblock
      exact ⟨[], _, a, _, hblock, nofun, rfl, hmentions⟩
  · rcases hin with ⟨-, rfl⟩ | ⟨-, rfl⟩ <;> exact ⟨[], _, p, [], rfl, nofun, hs, hp⟩

theorem Introduces.mentions_blockRewrite? {between rest : Block Handle} {host : Stmt Handle}
    {q : Pipe Handle} {r : BlockRewriting}
    (h : blockRewrite? f (between ++ host :: rest) = some r) (hn : n ≤ f.stmt.index)
    (hx : x ≠ f.name) (hbetween : ∀ s ∈ between, Stmt.IsAdded n s)
    (hhost : host.governing? = some q) (hmentions : q.Mentions x) :
    ∃ between host q rest, r.block = between ++ host :: rest ∧
      (∀ s ∈ between, Stmt.IsAdded n s) ∧ host.governing? = some q ∧ q.Mentions x := by
  induction between generalizing r with
  | nil =>
    rw [List.nil_append, blockRewrite?] at h
    cases hs : host.rewrite? f with
    | some own =>
      simp only [hs, Option.some.injEq] at h
      obtain ⟨between, host', q', rest', hblock, hadded, hhost', hmentions'⟩ :=
        Stmt.mentions_rewrite? hs hn hx hhost hmentions
      refine ⟨between, host', q', rest' ++ rest, ?_, hadded, hhost', hmentions'⟩
      rw [← h, hblock, List.append_assoc, List.cons_append]
    | none =>
      simp only [hs] at h
      obtain ⟨own, -, rfl⟩ := Option.map_eq_some_iff.mp h
      exact ⟨[], host, q, own.block, rfl, nofun, hhost, hmentions⟩
  | cons s between ih =>
    rw [List.forall_mem_cons] at hbetween
    rw [List.cons_append, blockRewrite?] at h
    cases hs : s.rewrite? f with
    | some own =>
      simp only [hs, Option.some.injEq] at h
      refine ⟨own.block ++ between, host, q, rest, ?_, ?_, hhost, hmentions⟩
      · rw [← h, List.append_assoc]
      · exact List.forall_mem_append.mpr ⟨Stmt.isAdded_rewrite? hs hn hbetween.1, hbetween.2⟩
    | none =>
      simp only [hs] at h
      obtain ⟨own, hown, rfl⟩ := Option.map_eq_some_iff.mp h
      obtain ⟨between', host', q', rest', hblock, hadded, hhost', hmentions'⟩ := ih hown hbetween.2
      refine ⟨s :: between', host', q', rest', ?_, ?_, hhost', hmentions'⟩
      · rw [hblock]
        rfl
      · exact List.forall_mem_cons.mpr ⟨hbetween.1, hadded⟩

theorem Introduces.blockRewrite? {b : Block Handle} {r : BlockRewriting} (hb : Introduces x n b)
    (h : FlatTemplate.blockRewrite? f b = some r) (hn : n ≤ f.stmt.index) (hx : x ≠ f.name) :
    Introduces x n r.block := by
  -- On where the temporary stands: the rewrite is made ahead of it, in its action, or behind it.
  induction hb generalizing r with
  | @here id p between host q rest hdecls hbetween hhost hmentions =>
    rw [FlatTemplate.blockRewrite?] at h
    cases hs : (Stmt.action id p).rewrite? f with
    | some own =>
      simp only [hs, Option.some.injEq] at h
      rw [Stmt.rewrite?_action] at hs
      obtain ⟨p', q', hp, hrewrites, -, hblock⟩ := Stmt.rewriteOwn?_eq_some hs
      obtain rfl := Option.some.inj hp
      have hsplit := hrewrites.edit_ne_split (by simp [Stmt.role, Pipe.actionRole, hdecls])
      have hrest : q'.rest.decls = [x] := by rw [hrewrites.rest_decls, if_neg hsplit, hdecls]
      rw [← h, hblock, if_neg hsplit, List.append_assoc]
      exact (here hrest hbetween hhost hmentions).append_left _
    | none =>
      simp only [hs] at h
      obtain ⟨own, hown, rfl⟩ := Option.map_eq_some_iff.mp h
      obtain ⟨between', host', q', rest', hblock, hadded, hhost', hmentions'⟩ :=
        mentions_blockRewrite? hown hn hx hbetween hhost hmentions
      rw [hblock]
      exact here hdecls hadded hhost' hmentions'
  | behind s hb ih =>
    rw [FlatTemplate.blockRewrite?] at h
    cases hs : s.rewrite? f with
    | some own =>
      simp only [hs, Option.some.injEq] at h
      rw [← h]
      exact hb.append_left own.block
    | none =>
      simp only [hs] at h
      obtain ⟨own, hown, rfl⟩ := Option.map_eq_some_iff.mp h
      exact (ih hown).behind s
  | @inBody id kind p body elseBody rest hb ih =>
    rw [FlatTemplate.blockRewrite?] at h
    cases hs : (Stmt.branch id kind p body elseBody).rewrite? f with
    | some own =>
      simp only [hs, Option.some.injEq] at h
      rw [← h]
      rcases Stmt.rewrite?_branch hs with ⟨pre, q, post, hblock⟩ | ⟨q, hq, hblock⟩ | ⟨q, -, hblock⟩
      · rw [hblock, List.append_assoc]
        exact (inBody hb).append_left pre
      · rw [hblock]
        exact inBody (ih hq)
      · rw [hblock]
        exact inBody hb
    | none =>
      simp only [hs] at h
      obtain ⟨own, hown, rfl⟩ := Option.map_eq_some_iff.mp h
      exact inBody hb
  | @inElse id kind p body elseBody rest hb ih =>
    rw [FlatTemplate.blockRewrite?] at h
    cases hs : (Stmt.branch id kind p body elseBody).rewrite? f with
    | some own =>
      simp only [hs, Option.some.injEq] at h
      rw [← h]
      rcases Stmt.rewrite?_branch hs with ⟨pre, q, post, hblock⟩ | ⟨q, -, hblock⟩ | ⟨q, hq, hblock⟩
      · rw [hblock, List.append_assoc]
        exact (inElse hb).append_left pre
      · rw [hblock]
        exact inElse hb
      · rw [hblock]
        exact inElse (ih hq)
    | none =>
      simp only [hs] at h
      obtain ⟨own, hown, rfl⟩ := Option.map_eq_some_iff.mp h
      exact inElse hb

theorem introduces_of_taken {b : Block Handle} {r : BlockRewriting} (h : blockRewrite? f b = some r)
    (htaken : r.taken) : Introduces f.name n r.block := by
  obtain ⟨C, pre, s, post, own, hown, rfl, rfl⟩ := blockRewrite?_eq_some h
  obtain ⟨p, q, hp, hrewrites, hq, hblock⟩ := Stmt.rewriteOwn?_eq_some hown
  rw [← hq] at htaken
  refine Introduces.plug (Introduces.append_right (Introduces.append_left ?_ pre) post) C
  rw [hblock]
  by_cases hsplit : q.found.edit = .splitPrint
  · obtain ⟨hrole, hahead, hrest⟩ := hrewrites.of_split hsplit
    have hread : (Pipe.mk f.pipe [] [f.read]).Mentions f.name :=
      ⟨f.reference f.name, by simp [Pipe.entries, commandEntries, Command.entries, Fresh.read,
        Fresh.reading, Expr.entries, Fresh.reference], by simp [Fresh.reference, Entry.mentions]⟩
    rw [hahead, if_pos hsplit]
    cases s with
    | action =>
      exact .directly (by rw [hrest]; rfl) rfl hread
    | text | branch | invoke => cases hrole
  · obtain ⟨a, ha, hdecls⟩ := hrewrites.ahead_of_taken htaken hsplit
    have hmem := hrewrites.reference_mem (hrewrites.name?_of_taken htaken) hsplit
    rw [ha]
    exact .directly hdecls (Stmt.governing?_govern hp _)
      ⟨_, hmem, by simp [Fresh.reference, Entry.mentions]⟩

end Rewriting

end FlatTemplate

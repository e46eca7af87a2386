import FlatTemplate.Proofs.Scope.Resolving

namespace FlatTemplate

section Perm

variable {x : String} {n : Nat}

theorem blockContained_cons {s : Stmt Handle} {rest : Block Handle} :
    blockContained x n (s :: rest) ↔ s.contained x n ∧
      (s.spills x n → ∀ y ∈ blockResolved (.written x n) none rest, y.2.isSome) ∧
        blockContained x n rest := by
  rw [blockContained, Bool.and_eq_true, Bool.and_eq_true, Bool.or_eq_true, List.all_eq_true, and_assoc]
  cases s.spills x n <;> simp

theorem kept_cons {s : Stmt Handle} {rest : Block Handle} : Kept x n (s :: rest) ↔
    (Governed (Pipe.Steady x n) [s] ∧ s.contained x n) ∧
      (s.spills x n → ∀ y ∈ blockResolved (.written x n) none rest, y.2.isSome) ∧
        Kept x n rest := by
  constructor
  · rintro ⟨hsteady, hcontained⟩
    obtain ⟨hs, hrest⟩ := governed_cons.mp hsteady
    obtain ⟨hs', hspills, hrest'⟩ := blockContained_cons.mp hcontained
    exact ⟨⟨hs, hs'⟩, hspills, hrest, hrest'⟩
  · rintro ⟨⟨hs, hs'⟩, hspills, hrest, hrest'⟩
    exact ⟨governed_cons.mpr ⟨hs, hrest⟩, blockContained_cons.mpr ⟨hs', hspills, hrest'⟩⟩

theorem Stmt.behind_eq_of_not_spills {s : Stmt Handle} (h : s.spills x n = false)
    (scope : Option PipeId) :
    s.behind (.hoisted x n) scope = s.behind (.written x n) scope := by
  match s with
  | .text .. | .invoke _ _ none => rfl
  | .action _ p | .invoke _ _ (some p) => exact p.rearranged.latest scope
  | .branch _ _ p _ _ =>
    have hnone : declaredBy (p.front x n) = [] := by simpa [Stmt.spills] using h
    exact latest_of_nil hnone

mutual

theorem Stmt.resolved_perm (s : Stmt Handle) (hsteady : Governed (Pipe.Steady x n) [s])
    (hcontained : s.contained x n) (scope : Option PipeId) :
    (s.resolved (.hoisted x n) scope).Perm (s.resolved (.written x n) scope) := by
  match s with
  | .text .. | .invoke _ _ none => exact .nil
  | .action _ p | .invoke _ _ (some p) =>
    have hp : p.Steady x n := Stmt.governed_own rfl hsteady
    exact hp.alike.resolved scope
  | .branch id kind p body elseBody =>
    obtain ⟨hp, hbody, helse⟩ := governed_branch.mp hsteady
    obtain ⟨hbody', helse'⟩ := Bool.and_eq_true_iff.mp hcontained
    have hlatest : latest scope ((Course.hoisted x n).steps p) =
        latest scope ((Course.written x n).steps p) := hp.alike.latest scope
    rw [Stmt.resolved, Stmt.resolved, hlatest]
    exact (hp.alike.resolved scope).append
      ((blockResolved_perm body hbody hbody' _).append (blockResolved_perm elseBody helse helse' _))

theorem blockResolved_perm (b : Block Handle) (hsteady : Governed (Pipe.Steady x n) b)
    (hcontained : blockContained x n b) (scope : Option PipeId) :
    (blockResolved (.hoisted x n) scope b).Perm (blockResolved (.written x n) scope b) := by
  match b with
  | [] => exact .nil
  | s :: rest =>
    obtain ⟨hs, hrest⟩ := governed_cons.mp hsteady
    obtain ⟨hs', hspills, hrest'⟩ := blockContained_cons.mp hcontained
    refine (s.resolved_perm hs hs' scope).append ?_
    refine (blockResolved_perm rest hrest hrest' _).trans (.of_eq ?_)
    cases hspilled : s.spills x n with
    | false => rw [Stmt.behind_eq_of_not_spills hspilled]
    | true =>
      rw [blockResolved_of_isSome (hspills hspilled),
        blockResolved_of_isSome (hspills hspilled) (s.behind _ scope)]

end

theorem Kept.perm {b : Block Handle} (h : Kept x n b) (scope : Option PipeId) :
    (blockResolved (.hoisted x n) scope b).Perm (blockResolved (.written x n) scope b) :=
  blockResolved_perm b h.steady h.contained scope

end Perm

section Rewrite

variable {x : String} {n : Nat} {f : Fresh} {b b' : Block Handle}

/-- What is kept in `b` is kept in `b'`, whatever comes behind. -/
structure Preserved (x : String) (n : Nat) (b b' : Block Handle) : Prop where
  agree : (Course.hoisted x n).Agree b b'
  kept : ∀ post, Kept x n (b ++ post) → Kept x n (b' ++ post)

namespace Preserved

variable {b'' : Block Handle}

theorem refl (b : Block Handle) : Preserved x n b b := ⟨.refl b, fun _ => id⟩

theorem trans (h : Preserved x n b b') (h' : Preserved x n b' b'') : Preserved x n b b'' :=
  ⟨h.agree.trans h'.agree, fun post hkept => h'.kept post (h.kept post hkept)⟩

theorem kept_self (h : Preserved x n b b') (hkept : Kept x n b) : Kept x n b' := by
  have hkept' := h.kept [] (by rwa [List.append_nil])
  rwa [List.append_nil] at hkept'

theorem append (h : Preserved x n b b') (post : Block Handle) :
    Preserved x n (b ++ post) (b' ++ post) := by
  refine ⟨by simpa using h.agree.around [] post, fun more hkept => ?_⟩
  rw [List.append_assoc] at hkept ⊢
  exact h.kept _ hkept

theorem cons (h : Preserved x n b b') (s : Stmt Handle) : Preserved x n (s :: b) (s :: b') := by
  refine ⟨by simpa using h.agree.around [s] [], fun post hkept => ?_⟩
  rw [List.cons_append, kept_cons] at hkept ⊢
  obtain ⟨hs, hspills, hrest⟩ := hkept
  have hrest' := h.kept post hrest
  refine ⟨hs, fun hspilled y hy => hspills hspilled y ?_, hrest'⟩
  have hagree : (Course.hoisted x n).Agree (b ++ post) (b' ++ post) := by
    simpa using h.agree.around [] post
  exact (((hrest'.perm none).symm.trans (hagree.resolved none)).trans (hrest.perm none)).mem_iff.mp hy

theorem around (h : Preserved x n b b') (pre post : Block Handle) :
    Preserved x n (pre ++ b ++ post) (pre ++ b' ++ post) := by
  refine append ?_ post
  induction pre with
  | nil => exact h
  | cons s pre ih => exact ih.cons s

theorem branch {s s' : Stmt Handle} (hagree : (Course.hoisted x n).Agree [s] [s'])
    (hspills : s'.spills x n = s.spills x n)
    (h : Governed (Pipe.Steady x n) [s] ∧ s.contained x n →
      Governed (Pipe.Steady x n) [s'] ∧ s'.contained x n) : Preserved x n [s] [s'] := by
  refine ⟨hagree, fun post hkept => ?_⟩
  rw [List.singleton_append, kept_cons] at hkept ⊢
  rw [hspills]
  exact ⟨h hkept.1, hkept.2⟩

theorem plug (h : Preserved x n b b') (C : BlockContext) :
    Preserved x n (C.plug b) (C.plug b') := by
  induction C with
  | hole => exact h
  | inBody pre id kind p inner elseBody post ih =>
    have hbranch : Preserved x n [.branch id kind p (inner.plug b) elseBody]
        [.branch id kind p (inner.plug b') elseBody] := by
      refine branch (ih.agree.body id kind p elseBody) rfl ?_
      rintro ⟨hsteady, hcontained⟩
      obtain ⟨hp, hbody, helse⟩ := governed_branch.mp hsteady
      obtain ⟨hbody', helse'⟩ := Bool.and_eq_true_iff.mp hcontained
      obtain ⟨hnew, hnew'⟩ := ih.kept_self ⟨hbody, hbody'⟩
      exact ⟨governed_branch.mpr ⟨hp, hnew, helse⟩, Bool.and_eq_true_iff.mpr ⟨hnew', helse'⟩⟩
    simpa [BlockContext.plug] using hbranch.around pre post
  | inElse pre id kind p body inner post ih =>
    have hbranch : Preserved x n [.branch id kind p body (inner.plug b)]
        [.branch id kind p body (inner.plug b')] := by
      refine branch (ih.agree.elseBody id kind p body) rfl ?_
      rintro ⟨hsteady, hcontained⟩
      obtain ⟨hp, hbody, helse⟩ := governed_branch.mp hsteady
      obtain ⟨hbody', helse'⟩ := Bool.and_eq_true_iff.mp hcontained
      obtain ⟨hnew, hnew'⟩ := ih.kept_self ⟨helse, helse'⟩
      exact ⟨governed_branch.mpr ⟨hp, hbody, hnew⟩, Bool.and_eq_true_iff.mpr ⟨hbody', hnew'⟩⟩
    simpa [BlockContext.plug] using hbranch.around pre post

end Preserved

theorem Stmt.contained_govern {s : Stmt Handle} (p : Pipe Handle) :
    (s.govern p).contained x n = s.contained x n := by
  match s with
  | .text .. | .action .. | .branch .. | .invoke _ _ none | .invoke _ _ (some _) => rfl

theorem Stmt.spills_govern {s : Stmt Handle} {p r : Pipe Handle} (hp : s.governing? = some p)
    (h : declaredBy (p.front x n) = [] → declaredBy (r.front x n) = [])
    (hspills : (s.govern r).spills x n) : s.spills x n ∧ s.role = .subject := by
  match s with
  | .branch .. =>
    obtain rfl := Option.some.inj hp
    simp only [govern, Stmt.spills, Bool.not_eq_true', List.isEmpty_eq_false_iff] at hspills ⊢
    exact ⟨fun hnone => hspills (h hnone), rfl⟩
  | .action .. | .invoke _ _ (some _) => cases hspills

theorem Stmt.kept_rewriteOwn? {s : Stmt Handle} {own : BlockRewriting}
    (h : s.rewriteOwn? f = some own) (hx : x ≠ f.name) (hn : n ≤ f.expr.index)
    (hs : Governed (Pipe.Passing x) [s]) {post : Block Handle} (hkept : Kept x n (s :: post)) :
    Kept x n (own.block ++ post) := by
  have hsteady : Governed (Pipe.Steady x n) own.block :=
    (Stmt.governed_rewriteOwn? (P := fun p => p.Passing x ∧ p.Steady x n) h
      (fun s hmem p hp => ⟨hs s hmem p hp, (kept_cons.mp hkept).1.1 s hmem p hp⟩)
      fun role p r hrewrites _ hp => by
        have hpassing := hrewrites.passing hp.1
        have hsteady := hrewrites.steady hn hp.1 hp.2
        exact ⟨⟨hpassing.rest, hsteady.rest⟩, fun a ha => ⟨hpassing.ahead a ha, hsteady.ahead a ha⟩,
          fun hsplit => ⟨hpassing.print hsplit, hsteady.print hsplit⟩⟩).imp fun _ hp => hp.2
  obtain ⟨⟨-, hcontained⟩, hspills, hpost⟩ := kept_cons.mp hkept
  refine ⟨governed_append.mpr ⟨hsteady, hpost.steady⟩, ?_⟩
  obtain ⟨p, r, hp, hrewrites, -, hblock⟩ := Stmt.rewriteOwn?_eq_some h
  have hfront := (hrewrites.moves (x := x) hx hn (Stmt.governed_own hp hs)).front
  rw [declaredBy_append] at hfront
  -- Behind a branch nothing is printed, so what comes behind is what came behind before.
  have hhost : blockContained x n (s.govern r.rest ::
      ((if r.found.edit = .splitPrint then [f.print] else []) ++ post)) := by
    refine blockContained_cons.mpr ⟨by rwa [Stmt.contained_govern], fun hspilled => ?_, ?_⟩
    · obtain ⟨hspilled, hrole⟩ := Stmt.spills_govern hp
        (fun hnone => (List.append_eq_nil_iff.mp (hfront.trans hnone)).2) hspilled
      rw [if_neg (hrewrites.edit_ne_split (by simp [hrole]))]
      exact hspills hspilled
    · split
      · exact blockContained_cons.mpr ⟨rfl, nofun, hpost.contained⟩
      · exact hpost.contained
  rw [hblock, List.append_assoc, List.cons_append]
  cases r.ahead with
  | none => exact hhost
  | some a => exact blockContained_cons.mpr ⟨rfl, nofun, hhost⟩

theorem preserved_blockRewrite? {r : BlockRewriting} (h : blockRewrite? f b = some r)
    (hx : x ≠ f.name) (hn : n ≤ f.expr.index) (hb : Governed (Pipe.Passing x) b) :
    Preserved x n b r.block := by
  obtain ⟨C, pre, s, post, own, hown, rfl, rfl⟩ := blockRewrite?_eq_some h
  have hs := (governed_cons.mp (governed_append.mp hb.of_plug).2).1
  have hown : Preserved x n [s] own.block :=
    ⟨Stmt.agree_rewriteOwn? hown hx hn fun p hp => Stmt.governed_own hp hs,
      fun post hkept => Stmt.kept_rewriteOwn? hown hx hn hs hkept⟩
  simpa using (hown.around pre post).plug C

theorem passing_blockRewrite? {r : BlockRewriting} (h : blockRewrite? f b = some r)
    (hb : Governed (Pipe.Passing x) b) : Governed (Pipe.Passing x) r.block :=
  governed_blockRewrite? h hb fun _ _ _ hrewrites _ hp => hrewrites.passing hp

end Rewrite

section Done

variable {x : String} {n : Nat} {f : Fresh}

mutual

theorem Stmt.contained_of_front (s : Stmt Handle)
    (h : Governed (fun p => declaredBy (p.front x n) = []) [s]) :
    s.contained x n ∧ s.spills x n = false := by
  match s with
  | .text .. | .action .. | .invoke _ _ none | .invoke _ _ (some _) => exact ⟨rfl, rfl⟩
  | .branch id kind p body elseBody =>
    obtain ⟨hp, hbody, helse⟩ := governed_branch.mp h
    exact ⟨Bool.and_eq_true_iff.mpr ⟨blockContained_of_front body hbody,
      blockContained_of_front elseBody helse⟩, by simp [Stmt.spills, hp]⟩

theorem blockContained_of_front (b : Block Handle)
    (h : Governed (fun p => declaredBy (p.front x n) = []) b) : blockContained x n b := by
  match b with
  | [] => rfl
  | s :: rest =>
    obtain ⟨hs, hrest⟩ := governed_cons.mp h
    obtain ⟨hcontained, hspills⟩ := s.contained_of_front hs
    refine blockContained_cons.mpr ⟨hcontained, fun hspilled => ?_, blockContained_of_front rest hrest⟩
    cases hspilled.symm.trans hspills

end

/-- What no parentheses declare refers to what it did. -/
theorem kept_of_nests {b : Block Handle} (h : Governed (Pipe.Nests (x ∉ ·)) b) : Kept x n b :=
  ⟨h.imp fun _ hp => hp.steady, blockContained_of_front b (h.imp fun _ hp => hp.declaredBy_front)⟩

theorem kept_of_blockRewrite?_eq_none {b : Block Handle} (h : blockRewrite? f b = none)
    (hb : Governed (Pipe.Passing x) b) : Kept x n b := by
  have hpipe : Governed (fun p => p.Steady x n ∧ declaredBy (p.front x n) = []) b := by
    intro s hs p hp
    rcases hb s hs p hp with hacting | hnests
    · have hnone : ∀ q ∈ p.pipes, ∃ role : Role, role.rewrite? f q = none := fun q hq =>
        exists_rewrite?_eq_none_of_block h (mem_blockPipes.mpr ⟨s, hs, p, hp, hq⟩)
      exact ⟨Pipe.steady_of_rewrite?_eq_none hnone hacting,
        Pipe.declaredBy_front_of_rewrite?_eq_none hnone hacting⟩
    · exact ⟨hnests.steady, hnests.declaredBy_front⟩
  exact ⟨hpipe.imp fun _ hp => hp.1, blockContained_of_front b (hpipe.imp fun _ hp => hp.2)⟩

end Done

end FlatTemplate

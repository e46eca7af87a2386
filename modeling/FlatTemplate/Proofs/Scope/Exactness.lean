import FlatTemplate.Proofs.Scope.Keeping

namespace FlatTemplate

variable {x : String} {n : Nat}

section Course

structure Course.Faithful (x : String) (n : Nat) (course : Course) : Prop where
  reads (p : Pipe Handle) : (readBy (course.steps p)).Perm (readsIn x n p.entries)
  declares (p : Pipe Handle) : declaredBy (course.steps p) ⊆ p.pipes.map Pipe.tag
  lasting (p : Pipe Handle) : declaredBy (course.lasting p) ⊆ p.pipes.map Pipe.tag

theorem Pipe.declaredBy_subset_tags (p : Pipe Handle) :
    declaredBy (p.steps x n) ⊆ p.pipes.map Pipe.tag := fun _ hd =>
  List.map_subset _ (List.filter_subset_self _) (p.declaredBy_steps.mem_iff.mp hd)

theorem Course.written_faithful : (Course.written x n).Faithful x n :=
  ⟨fun p => .of_eq p.readBy_steps, Pipe.declaredBy_subset_tags, fun _ => List.nil_subset _⟩

theorem Course.hoisted_faithful : (Course.hoisted x n).Faithful x n := by
  have hdeclares (p : Pipe Handle) : declaredBy (p.moved x n) ⊆ p.pipes.map Pipe.tag := by
    rw [p.rearranged.declares]
    exact p.declaredBy_subset_tags
  refine ⟨Pipe.readBy_moved, hdeclares, fun p => ?_⟩
  refine List.Subset.trans (declaredBy_subset (p.infix_front.trans ?_)) (hdeclares p)
  rw [p.moved_eq]
  exact (List.prefix_append ..).isInfix

variable {course : Course}

mutual

theorem Stmt.perm_reads (h : course.Faithful x n) (s : Stmt Handle) (scope : Option PipeId) :
    ((s.resolved course scope).map Prod.fst).Perm (readsIn x n s.entries) := by
  match s with
  | .text .. | .invoke _ _ none => exact .nil
  | .action _ p | .invoke _ _ (some p) => exact .trans (.of_eq (map_fst_resolve ..)) (h.reads p)
  | .branch id kind p body elseBody =>
    have hentries : readsIn x n (Stmt.branch id kind p body elseBody).entries =
        readsIn x n (p.entries ++ blockEntries body ++ blockEntries elseBody) := rfl
    rw [hentries, readsIn_append, readsIn_append, Stmt.resolved, List.map_append, List.map_append,
      map_fst_resolve, List.append_assoc]
    exact (h.reads p).append ((perm_blockReads h body _).append (perm_blockReads h elseBody _))

theorem perm_blockReads (h : course.Faithful x n) (b : Block Handle) (scope : Option PipeId) :
    ((blockResolved course scope b).map Prod.fst).Perm (readsIn x n (blockEntries b)) := by
  match b with
  | [] => exact .nil
  | s :: rest =>
    rw [blockResolved, blockEntries, List.map_append, readsIn_append]
    exact (s.perm_reads h scope).append (perm_blockReads h rest _)

end

/-- What is resolved is what was in scope, or one of `ps` declares it. -/
def Declared (ps : List (Pipe Handle)) (scope r : Option PipeId) : Prop :=
  r = scope ∨ ∃ q ∈ ps, r = some q.tag

theorem Declared.mono {ps qs : List (Pipe Handle)} {scope r : Option PipeId}
    (h : Declared ps scope r) (hsub : ps ⊆ qs) : Declared qs scope r :=
  h.imp_right fun ⟨q, hq, hr⟩ => ⟨q, hsub hq, hr⟩

theorem Declared.trans {ps qs : List (Pipe Handle)} {scope after r : Option PipeId}
    (h : Declared qs after r) (hafter : Declared ps scope after) : Declared (ps ++ qs) scope r := by
  rcases h with rfl | ⟨q, hq, hr⟩
  · exact hafter.mono (List.subset_append_left ..)
  · exact .inr ⟨q, List.mem_append_right _ hq, hr⟩

theorem declared_of_subset {ps : List (Pipe Handle)} {as : List Step} {scope r : Option PipeId}
    (has : declaredBy as ⊆ ps.map Pipe.tag) (h : r = scope ∨ ∃ d ∈ declaredBy as, r = some d) :
    Declared ps scope r := by
  refine h.imp_right ?_
  rintro ⟨d, hd, heq⟩
  obtain ⟨q, hq, rfl⟩ := List.mem_map.mp (has hd)
  exact ⟨q, hq, heq⟩

theorem Stmt.declared_behind (h : course.Faithful x n) (s : Stmt Handle) (scope : Option PipeId) :
    Declared s.pipes scope (s.behind course scope) := by
  match s with
  | .text .. | .invoke _ _ none => exact .inl rfl
  | .action _ p | .invoke _ _ (some p) =>
    exact declared_of_subset (h.declares p) (eq_or_declared_of_latest ..)
  | .branch _ _ p body elseBody =>
    refine Declared.mono (declared_of_subset (h.lasting p) (eq_or_declared_of_latest ..)) ?_
    rw [Stmt.pipes, List.append_assoc]
    exact List.subset_append_left ..

mutual

theorem Stmt.declared_of_mem (h : course.Faithful x n) (s : Stmt Handle)
    {scope r : Option PipeId} {e : ExprId} (hr : (e, r) ∈ s.resolved course scope) :
    Declared s.pipes scope r := by
  match s with
  | .text .. | .invoke _ _ none => cases hr
  | .action _ p | .invoke _ _ (some p) =>
    exact declared_of_subset (h.declares p) (eq_or_declared_of_mem_resolve hr)
  | .branch id kind p body elseBody =>
    have hafter : Declared p.pipes scope (latest scope (course.steps p)) :=
      declared_of_subset (h.declares p) (eq_or_declared_of_latest ..)
    rw [Stmt.resolved, List.mem_append, List.mem_append] at hr
    rw [Stmt.pipes]
    rcases hr with hr | hr | hr
    · refine Declared.mono (declared_of_subset (h.declares p) (eq_or_declared_of_mem_resolve hr)) ?_
      rw [List.append_assoc]
      exact List.subset_append_left ..
    · exact ((declared_of_mem_block h body hr).trans hafter).mono (List.subset_append_left ..)
    · refine ((declared_of_mem_block h elseBody hr).trans hafter).mono ?_
      grind

theorem declared_of_mem_block (h : course.Faithful x n) (b : Block Handle)
    {scope r : Option PipeId} {e : ExprId} (hr : (e, r) ∈ blockResolved course scope b) :
    Declared (blockPipes b) scope r := by
  match b with
  | [] => cases hr
  | s :: rest =>
    rcases List.mem_append.mp hr with hr | hr
    · exact (s.declared_of_mem h hr).mono (List.subset_append_left ..)
    · exact (declared_of_mem_block h rest hr).trans (s.declared_behind h scope)

end

end Course

section Agreement

def Outside (ps : List (Pipe Handle)) (scope : Option PipeId) : Prop := ∀ q ∈ ps, scope ≠ some q.tag

theorem Outside.of_declared {ps qs : List (Pipe Handle)} {scope r : Option PipeId}
    (h : Outside (ps ++ qs) scope) (hr : Declared ps scope r)
    (nodup : ((ps ++ qs).map Pipe.tag).Nodup) : Outside qs r := by
  intro q hq
  rcases hr with rfl | ⟨p, hp, rfl⟩
  · exact h q (List.mem_append_right _ hq)
  · rw [List.map_append, List.nodup_append] at nodup
    exact fun heq => nodup.2.2 p.tag (List.mem_map_of_mem hp) q.tag (List.mem_map_of_mem hq)
      (Option.some.inj heq)

def Consistent (as bs : List (ExprId × Option PipeId)) : Prop :=
  ∀ e r r', (e, r) ∈ as → (e, r') ∈ bs → r = r'

theorem Consistent.append {as as' bs bs' : List (ExprId × Option PipeId)}
    (h : Consistent (as ++ as') (bs ++ bs')) : Consistent as bs ∧ Consistent as' bs' :=
  ⟨fun e r r' hr hr' => h e r r' (List.mem_append_left _ hr) (List.mem_append_left _ hr'),
    fun e r r' hr hr' => h e r r' (List.mem_append_right _ hr) (List.mem_append_right _ hr')⟩

theorem Pipe.steady_of_consistent {p : Pipe Handle} (nodup : (p.pipes.map Pipe.tag).Nodup)
    {scope scope' : Option PipeId} (hscope : Outside p.pipes scope)
    (h : Consistent (resolve scope (p.steps x n)) (resolve scope' (p.moved x n))) :
    p.Steady x n := by
  refine steady_of_not_overtaken fun hover => ?_
  have hdeclared : (declaredBy (p.steps x n)).Nodup :=
    p.declaredBy_steps.nodup_iff.mpr ((List.filter_sublist.map Pipe.tag).nodup nodup)
  have hapart : ∀ d ∈ declaredBy (p.steps x n), scope ≠ some d := by
    intro d hd
    obtain ⟨q, hq, rfl⟩ := List.mem_map.mp (p.declaredBy_subset_tags hd)
    exact hscope q hq
  obtain ⟨e, r, r', hr, hr', hne⟩ :=
    hover.exists_ne p.rearranged.declares hdeclared hapart scope'
  exact hne (h e r r' hr hr')

theorem Stmt.behind_of_spills {s : Stmt Handle} (h : s.spills x n) (scope scope' : Option PipeId) :
    s.behind (.written x n) scope = scope ∧
      ∃ q ∈ s.pipes, s.behind (.hoisted x n) scope' = some q.tag := by
  match s with
  | .branch id kind p body elseBody =>
    refine ⟨rfl, ?_⟩
    have hne : declaredBy (p.front x n) ≠ [] := by simpa [Stmt.spills] using h
    have hlast := (declaredBy (p.front x n)).getLast?_eq_some_getLast hne
    obtain ⟨q, hq, htag⟩ := List.mem_map.mp
      (Course.hoisted_faithful.lasting p (List.getLast_mem hne))
    refine ⟨q, List.mem_append_left _ (List.mem_append_left _ hq), ?_⟩
    rw [Stmt.behind, latest_eq, htag]
    exact congrArg (·.or scope') hlast

mutual

theorem Stmt.kept_of_consistent (s : Stmt Handle) (nodup : (s.pipes.map Pipe.tag).Nodup)
    {scope scope' : Option PipeId} (hscope : Outside s.pipes scope)
    (h : Consistent (s.resolved (.written x n) scope) (s.resolved (.hoisted x n) scope')) :
    Governed (Pipe.Steady x n) [s] ∧ s.contained x n := by
  match s with
  | .text .. | .invoke _ _ none =>
    exact ⟨governed_singleton.mpr (by simp [Stmt.stmts, Stmt.governing?]), rfl⟩
  | .action id p =>
    exact ⟨governed_action.mpr (Pipe.steady_of_consistent nodup hscope h), rfl⟩
  | .invoke id name (some p) =>
    have hp : p.Steady x n := Pipe.steady_of_consistent nodup hscope h
    exact ⟨governed_singleton.mpr (by simpa [Stmt.stmts, Stmt.governing?] using hp), rfl⟩
  | .branch id kind p body elseBody =>
    rw [Stmt.pipes, List.append_assoc] at nodup hscope
    obtain ⟨hp, hbodies⟩ := h.append
    obtain ⟨hbody, helse⟩ := hbodies.append
    have hafter : Declared p.pipes scope (latest scope (p.steps x n)) :=
      declared_of_subset p.declaredBy_subset_tags (eq_or_declared_of_latest ..)
    have hinner := hscope.of_declared hafter nodup
    rw [List.map_append, List.map_append, List.nodup_append, List.nodup_append] at nodup
    have hsteady : p.Steady x n := Pipe.steady_of_consistent nodup.1
      (fun q hq => hscope q (List.mem_append_left _ hq)) hp
    have hbody' := kept_of_consistent body nodup.2.1.1
      (fun q hq => hinner q (List.mem_append_left _ hq)) hbody
    have helse' := kept_of_consistent elseBody nodup.2.1.2.1
      (fun q hq => hinner q (List.mem_append_right _ hq)) helse
    exact ⟨governed_branch.mpr ⟨hsteady, hbody'.steady, helse'.steady⟩,
      Bool.and_eq_true_iff.mpr ⟨hbody'.contained, helse'.contained⟩⟩

theorem kept_of_consistent (b : Block Handle) (nodup : ((blockPipes b).map Pipe.tag).Nodup)
    {scope scope' : Option PipeId} (hscope : Outside (blockPipes b) scope)
    (h : Consistent (blockResolved (.written x n) scope b)
      (blockResolved (.hoisted x n) scope' b)) : Kept x n b := by
  match b with
  | [] => exact ⟨governed_nil, rfl⟩
  | s :: rest =>
    obtain ⟨hs, hrest⟩ := h.append
    have hbehind : Outside (blockPipes rest) (s.behind (.written x n) scope) :=
      hscope.of_declared (s.declared_behind Course.written_faithful scope) nodup
    rw [blockPipes, List.map_append, List.nodup_append] at nodup
    refine kept_cons.mpr ⟨s.kept_of_consistent nodup.1
      (fun q hq => hscope q (List.mem_append_left _ hq)) hs, fun hspills => ?_,
      kept_of_consistent rest nodup.2.1 hbehind hrest⟩
    rintro ⟨e, r⟩ hr
    by_contra hnone
    obtain rfl : r = none := by simpa using hnone
    obtain ⟨hwritten, p, hp, hhoisted⟩ := Stmt.behind_of_spills hspills scope scope'
    -- Read behind the branch, `e` refers to what was in scope before it; hoisted, to one in it or
    -- behind it.
    obtain ⟨⟨e', r'⟩, hr', rfl⟩ := List.mem_map.mp
      (((perm_blockReads Course.hoisted_faithful rest none).symm.mem_iff.mp
        ((perm_blockReads Course.written_faithful rest none).mem_iff.mp
          (List.mem_map_of_mem hr))))
    rw [hwritten, hhoisted, blockResolved_eq_map rest scope,
      blockResolved_eq_map rest (some p.tag)] at hrest
    have heq := hrest e' _ _ (List.mem_map_of_mem hr) (List.mem_map_of_mem hr')
    rcases declared_of_mem_block Course.hoisted_faithful rest hr' with rfl | ⟨q, hq, rfl⟩
    · exact hscope p (List.mem_append_left _ hp) heq
    · exact hscope q (List.mem_append_right _ hq) heq

end

theorem readsIn_sublist (es : List Entry) :
    ((readsIn x n es).map fun e => (⟨.expr, e⟩ : Key)).Sublist (es.map Entry.key) := by
  induction es with
  | nil => exact .slnil
  | cons e es ih =>
    rw [readsIn, List.filterMap_cons]
    match e with
    | .stmt .. | .pipe .. | .command .. | .expr _ (.paren _) => exact ih.cons _
    | .expr id (.atom a) =>
      rw [Entry.read?]
      cases a.reads x n id with
      | true => exact ih.cons_cons _
      | false => exact ih.cons _

theorem mem_readsIn {es : List Entry} {e : ExprId} : e ∈ readsIn x n es ↔
    ∃ path, .expr e (.atom (.var (x :: path))) ∈ es ∧ e.index < n := by
  rw [readsIn, List.mem_filterMap]
  constructor
  · rintro ⟨entry, hmem, hread⟩
    match entry with
    | .expr id (.atom (.var (first :: path))) =>
      simp only [Entry.read?, Atom.reads, Bool.and_eq_true, decide_eq_true_eq,
        Option.ite_none_right_eq_some, Option.some.injEq] at hread
      obtain ⟨⟨rfl, hlt⟩, rfl⟩ := hread
      exact ⟨path, hmem, hlt⟩
  · rintro ⟨path, hmem, hlt⟩
    exact ⟨_, hmem, by simp [Entry.read?, Atom.reads, hlt]⟩

theorem nodup_blockReads {course : Course} (h : course.Faithful x n) {b : Block Handle}
    (nodup : (blockKeys b).Nodup) (scope : Option PipeId) :
    ((blockResolved course scope b).map Prod.fst).Nodup :=
  (perm_blockReads h b scope).nodup_iff.mpr (.of_map _ ((readsIn_sublist _).nodup nodup))

theorem eq_of_mem_resolved {course : Course} (h : course.Faithful x n) {b : Block Handle}
    (nodup : (blockKeys b).Nodup) {scope : Option PipeId} {e : ExprId} {r r' : Option PipeId}
    (hr : (e, r) ∈ blockResolved course scope b) (hr' : (e, r') ∈ blockResolved course scope b) :
    r = r' :=
  congrArg Prod.snd (List.inj_on_of_nodup_map (nodup_blockReads h nodup scope) hr hr' rfl)

/-- Hoisting leaves what is read in `b` referring to what it did exactly if `b` is `Kept`. -/
theorem kept_iff {b : Block Handle} (nodup : (blockKeys b).Nodup) :
    (blockResolved (.hoisted x n) none b).Perm (blockResolved (.written x n) none b) ↔
      Kept x n b := by
  refine ⟨fun hperm => ?_, fun h => h.perm none⟩
  have houtside : Outside (blockPipes b) none := nofun
  have hsame : Consistent (blockResolved (.written x n) none b)
      (blockResolved (.hoisted x n) none b) := by
    intro e r r' hr hr'
    exact eq_of_mem_resolved Course.written_faithful nodup hr (hperm.mem_iff.mp hr')
  exact kept_of_consistent b (nodup_pipe_tags nodup) houtside hsame

end Agreement

end FlatTemplate

import FlatTemplate.Proofs.Ordering.Tracing
import FlatTemplate.Proofs.Tree.Ownership

namespace FlatTemplate

theorem evaluated_append {id : StmtId} {m : Moment} (hm : ∀ x, m ≠ .event x) {init : List Moment}
    (h : .mark id ∉ init ++ [m]) (since : List ExprId) (ms : List Moment) :
    evaluated id since (init ++ [m] ++ ms) = evaluated id [] ms := by
  induction init generalizing since with
  | nil =>
    match m with
    | .event x => exact absurd rfl (hm x)
    | .mark s =>
      have hs : s ≠ id := by
        rintro rfl
        exact h List.mem_cons_self
      exact if_neg hs
    | .close => rfl
  | cons n init ih =>
    rw [List.cons_append, List.mem_cons, not_or] at h
    match n with
    | .event x => exact ih h.2 _
    | .mark s =>
      have hs : s ≠ id := by
        rintro rfl
        exact h.1 rfl
      exact (if_neg hs).trans (ih h.2 _)
    | .close => exact ih h.2 _

theorem evaluated_events (id : StmtId) (since xs : List ExprId) (ms : List Moment) :
    evaluated id since (xs.map .event ++ .mark id :: ms) = since ++ xs := by
  induction xs generalizing since with
  | nil => rw [List.map_nil, List.nil_append, evaluated, if_pos rfl, List.append_nil]
  | cons x xs ih =>
    rw [List.map_cons, List.cons_append, evaluated, ih, List.append_assoc, List.singleton_append]

def Paused (ms : List Moment) : Prop := ms = [] ∨ ∃ init m, ms = init ++ [m] ∧ ∀ x, m ≠ .event x

theorem Paused.append {ms ms' : List Moment} (h : Paused ms) (h' : Paused ms') :
    Paused (ms ++ ms') := by
  rcases h' with rfl | ⟨init, m, rfl, hm⟩
  · rwa [List.append_nil]
  · exact .inr ⟨ms ++ init, m, (List.append_assoc ..).symm, hm⟩

theorem paused_concat {m : Moment} (hm : ∀ x, m ≠ .event x) (ms : List Moment) :
    Paused (ms ++ [m]) := .inr ⟨ms, m, rfl, hm⟩

def marks (ms : List Moment) : List StmtId :=
  ms.filterMap fun
    | .mark s => some s
    | .event _ | .close => none

theorem mark_not_mem {id : StmtId} {ms : List Moment} (h : id ∉ marks ms) : .mark id ∉ ms :=
  fun hmem => h (List.mem_filterMap.mpr ⟨_, hmem, rfl⟩)

theorem evaluated_of_paused {id : StmtId} {before after : List Moment} {xs : List ExprId}
    (hbefore : Paused before) (hid : .mark id ∉ before) :
    evaluated id [] (before ++ (xs.map .event ++ .mark id :: after)) = xs := by
  rcases hbefore with rfl | ⟨init, m, rfl, hm⟩
  · exact evaluated_events id [] xs after
  · rw [evaluated_append hm hid, evaluated_events, List.nil_append]

section Single

variable {order : Pipe Handle → List ExprId} {old : List StmtId}

theorem moments_of_mem {id : StmtId} (h : id ∈ old) (p : Option (Pipe Handle)) :
    moments order old id p = ((p.map order).getD []).map .event ++ [.mark id] := by
  rw [moments, if_pos h]

theorem paused_moments {id : StmtId} (h : id ∈ old) (p : Option (Pipe Handle)) :
    Paused (moments order old id p) := by
  rw [moments_of_mem h]
  exact paused_concat (m := .mark id) nofun _

theorem marks_append (ms ms' : List Moment) : marks (ms ++ ms') = marks ms ++ marks ms' :=
  List.filterMap_append ..

theorem marks_close (ms : List Moment) : marks (.close :: ms) = marks ms := rfl

theorem marks_moments {id : StmtId} (h : id ∈ old) (p : Option (Pipe Handle)) :
    marks (moments order old id p) = [id] := by
  rw [moments_of_mem h, marks_append, marks, List.filterMap_map]
  simp [marks]

mutual

theorem Stmt.marks_trace (s : Stmt Handle) (h : ∀ x ∈ s.stmts, x.tag ∈ old) :
    marks (s.trace order old) = s.stmts.map Stmt.tag := by
  match s with
  | .text id _ | .action id _ | .invoke id _ _ =>
    have hid : id ∈ old := h _ List.mem_cons_self
    exact marks_moments hid _
  | .branch id kind p body elseBody =>
    rw [Stmt.stmts, List.forall_mem_cons, List.forall_mem_append] at h
    have hid : id ∈ old := h.1
    rw [Stmt.trace, marks_append, marks_append, marks_moments hid, marks_blockTrace body h.2.1,
      marks_close, marks_append, marks_blockTrace elseBody h.2.2, marks_close, Stmt.stmts,
      List.map_cons, List.map_append]
    exact congrArg _ (List.append_nil _)

theorem marks_blockTrace (b : Block Handle) (h : ∀ x ∈ blockStmts b, x.tag ∈ old) :
    marks (blockTrace order old b) = (blockStmts b).map Stmt.tag := by
  cases b with
  | nil => rfl
  | cons s b =>
    rw [blockStmts, List.forall_mem_append] at h
    rw [blockTrace, blockStmts, marks_append, s.marks_trace h.1, marks_blockTrace b h.2,
      List.map_append]

end

mutual

theorem Stmt.paused_trace (s : Stmt Handle) (h : ∀ x ∈ s.stmts, x.tag ∈ old) :
    Paused (s.trace order old) := by
  match s with
  | .text id _ | .action id _ | .invoke id _ _ =>
    have hid : id ∈ old := h _ List.mem_cons_self
    exact paused_moments hid _
  | .branch .. =>
    rw [Stmt.trace, ← List.cons_append, ← List.append_assoc]
    exact paused_concat (m := .close) nofun _

theorem paused_blockTrace (b : Block Handle) (h : ∀ x ∈ blockStmts b, x.tag ∈ old) :
    Paused (blockTrace order old b) := by
  cases b with
  | nil => exact .inl rfl
  | cons s b =>
    rw [blockStmts, List.forall_mem_append] at h
    exact (s.paused_trace h.1).append (paused_blockTrace b h.2)

end

def Seen (order : Pipe Handle → List ExprId) (s : Stmt Handle) (p : Pipe Handle)
    (ms : List Moment) : Prop :=
  ∃ before after, ms = before ++ ((order p).map .event ++ .mark s.tag :: after) ∧ Paused before

theorem Seen.append_right {s : Stmt Handle} {p : Pipe Handle} {ms : List Moment}
    (h : Seen order s p ms) (ms' : List Moment) : Seen order s p (ms ++ ms') := by
  obtain ⟨before, after, rfl, hbefore⟩ := h
  exact ⟨before, after ++ ms', by simp, hbefore⟩

theorem Seen.append_left {s : Stmt Handle} {p : Pipe Handle} {ms ms' : List Moment}
    (h : Seen order s p ms') (hms : Paused ms) : Seen order s p (ms ++ ms') := by
  obtain ⟨before, after, rfl, hbefore⟩ := h
  exact ⟨ms ++ before, after, (List.append_assoc ..).symm, hms.append hbefore⟩

theorem seen_moments {s : Stmt Handle} {p : Pipe Handle} (hs : s.tag ∈ old) :
    Seen order s p (moments order old s.tag (some p)) :=
  ⟨[], [], moments_of_mem hs _, .inl rfl⟩

mutual

theorem Stmt.seen (s : Stmt Handle) (h : ∀ x ∈ s.stmts, x.tag ∈ old) {x : Stmt Handle}
    (hx : x ∈ s.stmts) {p : Pipe Handle} (hp : x.governing? = some p) :
    Seen order x p (s.trace order old) := by
  match s with
  | .text .. | .invoke _ _ none =>
    obtain rfl := List.mem_singleton.mp hx
    cases hp
  | .action id q | .invoke id _ (some q) =>
    obtain rfl := List.mem_singleton.mp hx
    obtain rfl := Option.some.inj hp
    exact seen_moments (h _ hx)
  | .branch id kind q body elseBody =>
    rw [Stmt.stmts, List.forall_mem_cons, List.forall_mem_append] at h
    have hid : id ∈ old := h.1
    have hsplit : (Stmt.branch id kind q body elseBody).trace order old =
        moments order old id (some q) ++ (blockTrace order old body ++ [.close] ++
          (blockTrace order old elseBody ++ [.close])) := by
      simp only [Stmt.trace, List.append_assoc, List.cons_append, List.nil_append]
    rw [hsplit]
    rcases List.mem_cons.mp hx with rfl | hx
    · obtain rfl := Option.some.inj hp
      exact (seen_moments h.1).append_right _
    -- The marks that close the bodies pause what was seen, so what comes behind is seen afresh.
    refine Seen.append_left ?_ (paused_moments hid _)
    rcases List.mem_append.mp hx with hx | hx
    · exact ((seen_blockStmts body h.2.1 hx hp).append_right _).append_right _
    · exact ((seen_blockStmts elseBody h.2.2 hx hp).append_right _).append_left
        (paused_concat (m := .close) nofun _)

theorem seen_blockStmts (b : Block Handle) (h : ∀ x ∈ blockStmts b, x.tag ∈ old) {x : Stmt Handle}
    (hx : x ∈ blockStmts b) {p : Pipe Handle} (hp : x.governing? = some p) :
    Seen order x p (blockTrace order old b) := by
  cases b with
  | nil => cases hx
  | cons s b =>
    rw [blockStmts, List.forall_mem_append] at h
    rcases List.mem_append.mp hx with hx | hx
    · exact (s.seen h.1 hx hp).append_right _
    · exact (seen_blockStmts b h.2 hx hp).append_left (s.paused_trace h.1)

end

end Single

mutual

theorem Stmt.sublist_stmts (s : Stmt Handle) :
    (s.stmts.map (·.tag.key)).Sublist (s.entries.map Entry.key) := by
  match s with
  | .text .. | .invoke _ _ none => exact .refl _
  | .action .. | .invoke _ _ (some _) => exact .cons_cons _ (List.nil_sublist _)
  | .branch id kind p body elseBody =>
    rw [Stmt.stmts, Stmt.entries, List.map_cons, List.map_cons, List.map_append, List.map_append,
      List.map_append, List.append_assoc]
    refine .cons_cons _ (.trans ?_ (List.sublist_append_right _ _))
    exact (sublist_blockStmts body).append (sublist_blockStmts elseBody)

theorem sublist_blockStmts (b : Block Handle) :
    ((blockStmts b).map (·.tag.key)).Sublist (blockKeys b) := by
  cases b with
  | nil => exact .refl _
  | cons s b =>
    rw [blockKeys, blockStmts, blockEntries, List.map_append, List.map_append]
    exact s.sublist_stmts.append (sublist_blockStmts b)

end

mutual

theorem Stmt.sublist_governing (s : Stmt Handle) {x : Stmt Handle} (hx : x ∈ s.stmts)
    {p : Pipe Handle} (hp : x.governing? = some p) : p.entries.Sublist s.entries := by
  match s with
  | .text .. | .invoke _ _ none =>
    obtain rfl := List.mem_singleton.mp hx
    cases hp
  | .action id q | .invoke id _ (some q) =>
    obtain rfl := List.mem_singleton.mp hx
    obtain rfl := Option.some.inj hp
    exact List.sublist_cons_self ..
  | .branch id kind q body elseBody =>
    refine .cons _ ?_
    rcases List.mem_cons.mp hx with rfl | hx
    · obtain rfl := Option.some.inj hp
      exact (List.sublist_append_left ..).trans (List.sublist_append_left ..)
    rcases List.mem_append.mp hx with hx | hx
    · exact ((sublist_governing_block body hx hp).trans (List.sublist_append_right ..)).trans
        (List.sublist_append_left ..)
    · exact (sublist_governing_block elseBody hx hp).trans (List.sublist_append_right ..)

theorem sublist_governing_block (b : Block Handle) {x : Stmt Handle} (hx : x ∈ blockStmts b)
    {p : Pipe Handle} (hp : x.governing? = some p) : p.entries.Sublist (blockEntries b) := by
  cases b with
  | nil => cases hx
  | cons s b =>
    rcases List.mem_append.mp hx with hx | hx
    · exact (s.sublist_governing hx hp).trans (List.sublist_append_left ..)
    · exact (sublist_governing_block b hx hp).trans (List.sublist_append_right ..)

end

def stmtIds (b : Block Handle) : List StmtId := (blockStmts b).map Stmt.tag

theorem nodup_stmtIds {b : Block Handle} (h : (blockKeys b).Nodup) : (stmtIds b).Nodup := by
  refine List.Nodup.of_map Handle.key ?_
  rw [stmtIds, List.map_map]
  exact h.sublist (sublist_blockStmts b)

theorem evaluated_blockTrace {order : Pipe Handle → List ExprId} {b : Block Handle}
    (nodup : (stmtIds b).Nodup) {s : Stmt Handle} (hs : s ∈ blockStmts b) {p : Pipe Handle}
    (hp : s.governing? = some p) :
    evaluated s.tag [] (blockTrace order (stmtIds b) b) = order p := by
  have hold : ∀ x ∈ blockStmts b, x.tag ∈ stmtIds b := fun x hx => List.mem_map_of_mem hx
  obtain ⟨before, after, heq, hbefore⟩ := @seen_blockStmts order _ b hold s hs p hp
  have hmarks := @marks_blockTrace order _ b hold
  rw [heq] at hmarks ⊢
  refine evaluated_of_paused hbefore (mark_not_mem fun hmem => ?_)
  have hnodup : (marks (before ++ ((order p).map .event ++ .mark s.tag :: after))).Nodup :=
    hmarks ▸ nodup
  rw [marks_append, List.nodup_append] at hnodup
  exact hnodup.2.2 _ hmem _ (List.mem_filterMap.mpr ⟨.mark s.tag, by simp, rfl⟩) rfl

end FlatTemplate

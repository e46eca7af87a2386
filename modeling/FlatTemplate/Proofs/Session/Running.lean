import FlatTemplate.Proofs.Template.Runs
import FlatTemplate.Proofs.Tree.Applying
import FlatTemplate.Session

namespace FlatTemplate

def Stats.after (stats : Stats) (rules : List Rule) (finished : Bool) : Stats :=
  { stats with
    passes := stats.passes + rules.length + finished.toNat
    rewrites := stats.rewrites + rules.length
    byRule := rules.foldl (fun counts rule => tally rule counts) stats.byRule }

theorem Stats.after_cons (stats : Stats) (rule : Rule) (rules : List Rule) (finished : Bool) :
    (stats.after [rule] false).after rules finished = stats.after (rule :: rules) finished := by
  simp only [after, List.length_cons, List.length_nil, List.foldl_cons, List.foldl_nil,
    Bool.toNat_false, Stats.mk.injEq, and_true]
  omega

namespace Session

def draft (s : Session) (b : Block Handle) : Draft := ⟨b, s.names.taken, s.tree.arenaSize⟩

variable {s : Session} {b : Block Handle}

theorem draft_fresh : (s.draft b).fresh s.names.stem = s.tree.fresh s.names.next := rfl

theorem valid_draft (h : s.tree.Holds b) : (s.draft b).Valid := by
  refine ⟨h.nodup, h.sound, fun k hk => ?_⟩
  obtain ⟨e, he, rfl⟩ := List.mem_map.mp hk
  exact (h.has e he).index_lt

theorem pass_of_none (h : s.tree.Holds b)
    (hnone : blockRewrite? (s.tree.fresh s.names.next) b = none) :
    s.pass = .ok ({ s with stats := { s.stats with passes := s.stats.passes + 1 } }, false) := by
  rw [pass, h.plan? (s.tree.fresh s.names.next), hnone]
  rfl

theorem pass_of_some (h : s.tree.Holds b) {r : BlockRewriting}
    (hr : blockRewrite? (s.tree.fresh s.names.next) b = some r) :
    ∃ s', s.pass = .ok (s', true) ∧ s'.tree.Holds r.block ∧ s'.names.stem = s.names.stem ∧
      s'.stats = s.stats.after [r.plan.rule] false ∧
      Draft.Next s.names.stem (s.draft b) (s'.draft r.block) r := by
  obtain ⟨t', happ, hholds, hsize⟩ := h.apply hr
  refine ⟨⟨t', if r.taken then s.names.rest else s.names, s.stats.after [r.plan.rule] false⟩, ?_,
    hholds, ?_, rfl, ?_⟩
  · rw [pass, h.plan? (s.tree.fresh s.names.next), hr]
    simp only [Option.map_some, ok_bind, rewrite, happ]
    rfl
  · simp only
    split <;> rfl
  · refine ⟨valid_draft h, hr, valid_draft hholds, rfl, ?_, hsize⟩
    simp only [draft]
    split <;> rfl

structure Ran (s : Session) (b : Block Handle) (limit : Nat) (s' : Session) (finished : Bool)
    (rules : List Rule) (b' : Block Handle) : Prop where
  holds : s'.tree.Holds b'
  stem : s'.names.stem = s.names.stem
  trace : Draft.Trace s.names.stem rules (s.draft b) (s'.draft b')
  stats : s'.stats = s.stats.after rules finished
  done : finished = true →
    blockRewrite? (s'.tree.fresh s'.names.next) b' = none ∧ rules.length < limit
  stopped : finished = false → rules.length = limit

theorem run_of_holds (limit : Nat) (h : s.tree.Holds b) :
    ∃ s' finished rules b', s.run limit = .ok (s', finished) ∧
      Ran s b limit s' finished rules b' := by
  induction limit generalizing s b with
  | zero =>
    exact ⟨s, false, [], b, rfl, h, rfl, .refl (valid_draft h), rfl, by simp, by simp⟩
  | succ limit ih =>
    cases hr : blockRewrite? (s.tree.fresh s.names.next) b with
    | none =>
      refine ⟨{ s with stats := { s.stats with passes := s.stats.passes + 1 } }, true, [], b, ?_, h,
        rfl, .refl (valid_draft h), rfl, fun _ => ⟨hr, by simp⟩, by simp⟩
      rw [run, pass_of_none h hr]
      rfl
    | some r =>
      obtain ⟨s₁, hpass, hholds, hstem, hstats, hnext⟩ := pass_of_some h hr
      obtain ⟨s', finished, rules, b', hrun, ran⟩ := ih hholds
      refine ⟨s', finished, r.plan.rule :: rules, b', ?_, ran.holds, ran.stem.trans hstem,
        .step hnext (hstem ▸ ran.trace), ?_, fun hf => ?_, fun hf => ?_⟩
      · rw [run, hpass]
        exact hrun
      · rw [ran.stats, hstats, Stats.after_cons]
      · obtain ⟨hnone, hlt⟩ := ran.done hf
        exact ⟨hnone, Nat.succ_lt_succ hlt⟩
      · rw [List.length_cons, ran.stopped hf]

end Session

end FlatTemplate

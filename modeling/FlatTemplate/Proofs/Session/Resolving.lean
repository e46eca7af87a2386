import FlatTemplate.Proofs.Parser.Parsed
import FlatTemplate.Proofs.Scope.Renaming
import FlatTemplate.Proofs.Session.Canonicalizing
import FlatTemplate.Proofs.Template.Hygiene

namespace FlatTemplate

theorem Draft.Run.preserved {stem x : String} {n m : Nat} {d d' : Draft}
    (h : Draft.Run stem m d d') (hn : n ≤ d.bound .expr) (hx : ∀ k, x ≠ temporary stem k)
    (hd : Governed (Pipe.Passing x) d.block) :
    Governed (Pipe.Passing x) d'.block ∧ Preserved x n d.block d'.block := by
  refine (h.preserves (P := fun d₁ => n ≤ d₁.bound .expr ∧
    Governed (Pipe.Passing x) d₁.block ∧ Preserved x n d.block d₁.block)
    (fun d₁ d₂ r hnext ⟨hbound, hpassing, hpreserved⟩ => ?_) ⟨hn, hd, .refl _⟩).2
  rw [hnext.block]
  exact ⟨Nat.le_trans hbound (hnext.bound .expr), passing_blockRewrite? hnext.rewrite hpassing,
    hpreserved.trans (preserved_blockRewrite? hnext.rewrite (hx d₁.taken) hbound hpassing)⟩

theorem Canonicalized.resolved {config : Config} {b : Block Handle} {bound : NodeKind → Nat}
    {outcome : Outcome} {m : Nat} {d d' : Draft} (h : Canonicalized config b bound outcome m d d')
    {x : String} {n : Nat} (hn : n ≤ bound .expr) (hx : ∀ k, x ≠ temporary config.tempStem k)
    (hd : Governed (Pipe.Passing x) d.block) :
    (Kept x n d.block → (blockResolved (.written x n) none d'.block).Perm
      (blockResolved (.written x n) none d.block)) ∧
    ∀ stats, outcome.result = .ok stats → (blockResolved (.written x n) none d'.block).Perm
      (blockResolved (.hoisted x n) none d.block) := by
  obtain ⟨hpassing, hpreserved⟩ := h.run.preserved (Nat.le_trans hn (h.bound .expr)) hx hd
  have hagree := hpreserved.agree.resolved none
  constructor
  · intro hkept
    exact ((hpreserved.kept_self hkept).perm none).symm.trans (hagree.trans (hkept.perm none))
  · intro stats hstats
    rcases h.ends with ⟨_, -, -, hdone⟩ | ⟨_, _, -, -, hlimit⟩
    · exact ((kept_of_blockRewrite?_eq_none hdone hpassing).perm none).symm.trans hagree
    · cases hstats.symm.trans hlimit

namespace Tree

variable {t : Tree} {b : Block Handle}

theorem Holds.resolved_iff (h : t.Holds b) (x : String) {e : ExprId} :
    (∃ path, t.Reachable (.expr e (.atom (.var (x :: path))))) ↔
      ∃! r, (e, r) ∈ blockResolved (.written x t.exprs.size) none b := by
  have hread : (∃ path, t.Reachable (.expr e (.atom (.var (x :: path))))) ↔
      e ∈ (blockResolved (.written x t.exprs.size) none b).map Prod.fst := by
    rw [(perm_blockReads Course.written_faithful b none).mem_iff, mem_readsIn]
    refine exists_congr fun path => ?_
    rw [h.reachable_iff]
    exact ⟨fun hmem => ⟨hmem, (h.has _ hmem).index_lt⟩, And.left⟩
  rw [hread, List.mem_map]
  constructor
  · rintro ⟨⟨_, r⟩, hr, rfl⟩
    exact ⟨r, hr, fun _ hr' => eq_of_mem_resolved Course.written_faithful h.nodup hr' hr⟩
  · rintro ⟨r, hr, -⟩
    exact ⟨(e, r), hr, rfl⟩

/-- A session that succeeds leaves every read of a variable referring to what it does in the order
that hoisting leaves, and that is what it referred to before exactly in templates that are kept. -/
theorem canonicalize_resolved (ht : t.Parsed) (hread : t.read = .ok b) {x : String}
    (hx : IsVariable x) (hpassing : Governed (Pipe.Passing x) b) {config : Config}
    (hvalid : config.validate = .ok ()) :
    (∀ e, (∃ path, t.Reachable (.expr e (.atom (.var (x :: path))))) ↔
      ∃! r, (e, r) ∈ blockResolved (.written x t.exprs.size) none b) ∧
    ∃ outcome b', t.canonicalize config = .ok outcome ∧ outcome.tree.read = .ok b' ∧
      (config.maxPasses = none → ∃ stats, outcome.result = .ok stats) ∧
      (Kept x t.exprs.size b →
        (blockResolved (.written (respell config.userTag x) t.exprs.size) none b').Perm
          (blockResolved (.written x t.exprs.size) none b)) ∧
      ∀ stats, outcome.result = .ok stats →
        (blockResolved (.written (respell config.userTag x) t.exprs.size) none b').Perm
          (blockResolved (.hoisted x t.exprs.size) none b) ∧
        ((blockResolved (.written (respell config.userTag x) t.exprs.size) none b').Perm
          (blockResolved (.written x t.exprs.size) none b) ↔ Kept x t.exprs.size b) := by
  have hconfig := Config.valid_of_validate hvalid
  obtain ⟨b₀, hproper, hb⟩ := ht.holds
  obtain rfl := Except.ok.inj (hb.read.symm.trans hread)
  obtain ⟨outcome, m, d, d', hrun, h⟩ := hb.canonicalize hvalid
  have hnamed : Governed (Pipe.Named (Apart (respell config.userTag) x)) b₀ :=
    (named_of_proper hproper).imp fun p hp e he =>
      (hp e he).mono fun y hy heq => hconfig.respell_inj hy hx heq
  have hd : Governed (Pipe.Passing (respell config.userTag x)) d.block := by
    rw [h.block]
    exact governed_blockRename
      (P := fun p => p.Named (Apart (respell config.userTag) x) ∧ p.Passing x)
      (fun p hp => Pipe.passing_rename hp.1 hp.2)
      fun s hs p hp => ⟨hnamed s hs p hp, hpassing s hs p hp⟩
  obtain ⟨hkept, hresolved⟩ := h.resolved (n := t.exprs.size) (Nat.le_refl _)
    (fun k => hconfig.respell_ne_temporary x k) hd
  rw [h.block, kept_rename hnamed hb.nodup, written_rename hnamed] at hkept
  rw [h.block, hoisted_rename hnamed] at hresolved
  refine ⟨fun e => hb.resolved_iff x, outcome, d'.block, hrun, h.holds.read,
    h.succeeds, hkept, fun stats hstats => ⟨hresolved stats hstats, fun hperm => ?_, hkept⟩⟩
  exact (kept_iff hb.nodup).mp ((hresolved stats hstats).symm.trans hperm)

def redeclaration : Tree :=
  let number (n : String) : List (Command Untagged) := [.mk () (.atom () (.number n)) []]
  .ofBlock "" [.action () (.mk () ["$x"] (number "0")),
    .action () (.mk () [] [.mk () (.atom () (.identifier "print"))
      [.atom () (.var ["$x"]), .paren () (.mk () ["$x"] (number "1"))]])]

theorem parse_redeclaration :
    Tree.parse (delimited "$x := 0" ++ delimited "print $x ($x := 1)") = .ok redeclaration := by
  cbv

def compareScopes (x : String) (t : Tree) :
    Except Fault (List (ExprId × Option PipeId) × List (ExprId × Option PipeId)) := do
  let b ← t.read
  let outcome ← t.canonicalize {}
  let b' ← outcome.tree.read
  return (blockResolved (.written x t.exprs.size) none b,
    blockResolved (.written (respell "tpl_" x) t.exprs.size) none b')

theorem canonicalize_redeclaration :
    redeclaration.Parsed ∧ ∃ b outcome stats b' e p p', redeclaration.read = .ok b ∧
      redeclaration.canonicalize {} = .ok outcome ∧ outcome.result = .ok stats ∧
      outcome.tree.read = .ok b' ∧
      (e, some p) ∈ blockResolved (.written "$x" redeclaration.exprs.size) none b ∧
      (e, some p') ∈ blockResolved
        (.written (respell "tpl_" "$x") redeclaration.exprs.size) none b' ∧
      (e, some p) ∉ blockResolved
        (.written (respell "tpl_" "$x") redeclaration.exprs.size) none b' := by
  have hparsed := parsed_of_parse parse_redeclaration
  obtain ⟨b, -, hb⟩ := hparsed.holds
  obtain ⟨outcome, n, d, d', hrun, h⟩ :=
    hb.canonicalize Config.validate_default
  obtain ⟨stats, hstats⟩ := h.succeeds rfl
  have hscopes : compareScopes "$x" redeclaration =
      .ok ([(⟨2⟩, some ⟨0⟩)], [(⟨2⟩, some ⟨1⟩)]) := by
    rw [compareScopes, Tree.canonicalize, Config.validate_default]
    cbv
  rw [compareScopes, hb.read, ok_bind, hrun, ok_bind, h.holds.read, ok_bind] at hscopes
  obtain ⟨hbefore, hafter⟩ := Prod.mk.inj (Except.ok.inj hscopes)
  refine ⟨hparsed, b, outcome, stats, d'.block, ⟨2⟩, ⟨0⟩, ⟨1⟩, hb.read, hrun, hstats,
    h.holds.read, ?_, ?_, ?_⟩
  · rw [hbefore]
    exact List.mem_cons_self
  · rw [hafter]
    exact List.mem_cons_self
  · rw [hafter]
    decide

def parenthesized : Tree :=
  let declaring (n : String) : Pipe Untagged := .mk () ["$x"] [.mk () (.atom () (.number n)) []]
  let read : Expr Untagged := .atom () (.var ["$x"])
  .ofBlock "" [
    .action () (declaring "0"),
    .action () (.mk () [] [.mk () (.atom () (.identifier "print"))
      [.paren () (declaring "1"), read]]),
    .action () (.mk () [] [.mk () (.paren () (declaring "2")) [],
      .mk () (.atom () (.identifier "up")) []]),
    .action () (.mk () [] [.mk () read []])]

theorem parse_parenthesized : Tree.parse (delimited "$x := 0" ++
    delimited "print ($x := 1) $x" ++ delimited "($x := 2) | up" ++ delimited "$x") =
      .ok parenthesized := by cbv

theorem canonicalize_resolved_parenthesized :
    ∃ outcome b', parenthesized.canonicalize {} = .ok outcome ∧ outcome.tree.read = .ok b' ∧
      (blockResolved (.written "$tpl_x" 9) none b').Perm
        [(⟨4⟩, some ⟨1⟩), (⟨8⟩, some ⟨3⟩)] := by
  have hparsed := parsed_of_parse parse_parenthesized
  obtain ⟨b, -, hb⟩ := hparsed.holds
  have hshape : parenthesized.read.map (fun b => (decide (Governed (Pipe.Passing "$x") b),
      decide (Kept "$x" 9 b), blockResolved (.written "$x" 9) none b)) =
        .ok (true, true, [(⟨4⟩, some ⟨1⟩), (⟨8⟩, some ⟨3⟩)]) := by cbv
  rw [hb.read] at hshape
  obtain ⟨hpassing, hrest⟩ := Prod.mk.inj (Except.ok.inj hshape)
  obtain ⟨hkept, hresolved⟩ := Prod.mk.inj hrest
  have hsize : parenthesized.exprs.size = 9 := by cbv
  obtain ⟨-, outcome, b', hrun, hread, -, hperm, -⟩ := canonicalize_resolved hparsed hb.read
    ⟨['x'], by decide⟩ (of_decide_eq_true hpassing) Config.validate_default
  rw [hsize, hresolved, show respell ({} : Config).userTag "$x" = "$tpl_x" by cbv] at hperm
  exact ⟨outcome, b', hrun, hread, hperm (of_decide_eq_true hkept)⟩

end Tree

end FlatTemplate

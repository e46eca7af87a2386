import FlatTemplate.Proofs.Parser.Parsed
import FlatTemplate.Proofs.Session.Canonicalizing
import FlatTemplate.Proofs.Tree.Ownership

namespace FlatTemplate

variable {t : Tree}

namespace Session

variable {s s' : Session}

inductive Passes (s : Session) : Session → Prop where
  | none : Passes s s
  | pass {s' s'' rewrote} (h : Passes s s') (hpass : s'.pass = .ok (s'', rewrote)) : Passes s s''

theorem start_singlyOwned (h : t.SinglyOwned) (config : Config) :
    ∃ s, start config t = .ok s ∧ s.tree.SinglyOwned := by
  obtain ⟨b, hb⟩ := h.exists_holds
  obtain ⟨s, hstart, hs, -⟩ := hb.start config
  exact ⟨s, hstart, hs.singlyOwned⟩

theorem pass_singlyOwned (h : s.tree.SinglyOwned) :
    ∃ s' rewrote, s.pass = .ok (s', rewrote) ∧ s'.tree.SinglyOwned := by
  obtain ⟨b, hb⟩ := h.exists_holds
  cases hr : blockRewrite? (s.tree.fresh s.names.next) b with
  | none => exact ⟨_, false, pass_of_none hb hr, h⟩
  | some r =>
    obtain ⟨s', hpass, hholds, -⟩ := pass_of_some hb hr
    exact ⟨s', true, hpass, hholds.singlyOwned⟩

theorem Passes.singlyOwned (hs : s.Passes s') (h : s.tree.SinglyOwned) : s'.tree.SinglyOwned := by
  induction hs with
  | none => exact h
  | pass _ hpass ih =>
    obtain ⟨s', rewrote, hpass', h'⟩ := pass_singlyOwned ih
    obtain ⟨rfl, -⟩ := Prod.mk.inj (Except.ok.inj (hpass.symm.trans hpass'))
    exact h'

end Session

/-- The nodes that respelling leaves are singly owned, so are those that every pass leaves, and
there is no fault in between. -/
theorem Tree.canonicalize_singlyOwned (ht : t.Parsed ∨ t.SinglyOwned) (config : Config) :
    t.SinglyOwned ∧
    (∃ s, Session.start config t = .ok s ∧ s.tree.SinglyOwned ∧
      ∀ s', s.Passes s' → s'.tree.SinglyOwned ∧
        ∃ s'' rewrote, s'.pass = .ok (s'', rewrote) ∧ s''.tree.SinglyOwned) ∧
    ∃ outcome, t.canonicalize config = .ok outcome ∧ outcome.tree.SinglyOwned := by
  have h : t.SinglyOwned := ht.elim Parsed.singlyOwned id
  obtain ⟨s, hstart, hs⟩ := Session.start_singlyOwned h config
  refine ⟨h, ⟨s, hstart, hs, fun s' hpasses => ?_⟩, ?_⟩
  · have hs' := hpasses.singlyOwned hs
    exact ⟨hs', Session.pass_singlyOwned hs'⟩
  · cases hvalid : config.validate with
    | error e =>
      refine ⟨⟨t, .error e⟩, ?_, h⟩
      rw [Tree.canonicalize, hvalid]
      rfl
    | ok _ =>
      obtain ⟨b, hb⟩ := h.exists_holds
      obtain ⟨outcome, _, _, _, hrun, hcanonicalized⟩ := hb.canonicalize hvalid
      exact ⟨outcome, hrun, hcanonicalized.holds.singlyOwned⟩

def pipedSubject : Tree :=
  let subject : Pipe Untagged :=
    .mk () [] [.mk () (.atom () (.field ["A"])) [], .mk () (.atom () (.identifier "f")) []]
  .ofBlock "" [.branch () .cond subject [.text () "a"] []]

theorem parse_pipedSubject :
    Tree.parse (delimited "if .A | f" ++ "a" ++ delimited "end") = .ok pipedSubject := by cbv

theorem canonicalize_singlyOwned_pipedSubject :
    pipedSubject.SinglyOwned ∧
      ∃ outcome, pipedSubject.canonicalize {} = .ok outcome ∧ outcome.tree.SinglyOwned :=
  have ⟨h, _, hrun⟩ :=
    Tree.canonicalize_singlyOwned (.inl (Tree.parsed_of_parse parse_pipedSubject)) {}
  ⟨h, hrun⟩

end FlatTemplate

import FlatTemplate.Proofs.Parser.Parsed
import FlatTemplate.Proofs.Session.Canonicalizing
import FlatTemplate.Proofs.Template.Canonical

namespace FlatTemplate

theorem Canonicalized.governed {config : Config} {b : Block Handle} {bound : NodeKind → Nat}
    {outcome : Outcome} {n : Nat} {d d' : Draft} (h : Canonicalized config b bound outcome n d d')
    {P : Pipe Handle → Prop} (hrename : ∀ (g : String → String) p, P p → P (p.rename g))
    (hstep : ∀ f b r, blockRewrite? f b = some r → Governed P b → Governed P r.block)
    (hb : Governed P b) : Governed P d'.block := by
  have hd : Governed P d.block := h.block ▸ governed_blockRename (hrename _) hb
  exact h.run.preserves (P := fun d => Governed P d.block)
    (fun d d' r hnext hd => hnext.block ▸ hstep _ _ _ hnext.rewrite hd) hd

namespace Tree

variable {t : Tree} {b : Block Handle}

/-- Where no pipeline in parentheses declares a variable, functions, paths and dot alone take
arguments, and what is passed on is no boolean and is passed to calls, a session leaves a flat
template. -/
theorem canonicalize_flat (ht : t.SinglyOwned) (hread : t.read = .ok b)
    (hquiet : Governed Pipe.Quiet b) (hcalls : Governed Pipe.Calling b) (config : Config) :
    ∃ outcome, t.canonicalize config = .ok outcome ∧
      (config.validate = .ok () → config.maxPasses = none →
        ∃ stats, outcome.result = .ok stats) ∧
      ∀ stats, outcome.result = .ok stats → ∃ b', outcome.tree.read = .ok b' ∧
        (∀ p ∈ blockPipes b', p.Flat) ∧ ∀ s ∈ blockStmts b', s.Flat := by
  obtain ⟨b₀, hb⟩ := ht.exists_holds
  obtain rfl := Except.ok.inj (hb.read.symm.trans hread)
  cases hvalid : config.validate with
  | error e =>
    refine ⟨⟨t, .error e⟩, ?_, nofun, nofun⟩
    rw [Tree.canonicalize, hvalid]
    rfl
  | ok _ =>
    obtain ⟨outcome, n, d, d', hrun, h⟩ := hb.canonicalize hvalid
    refine ⟨outcome, hrun, fun _ => h.succeeds, fun stats hstats => ?_⟩
    rcases h.ends with ⟨_, -, -, hnone⟩ | ⟨_, _, _, _, hresult⟩
    · refine ⟨d'.block, h.holds.read, flat_of_blockRewrite? hnone fun s hs p hp => ?_⟩
      have hquiet' := h.governed (fun g _ => Pipe.quiet_rename g)
        (fun _ _ _ => quiet_blockRewrite?) hquiet
      have hcalls' := h.governed (fun g _ => Pipe.formed_rename stable_callsIn g)
        (fun _ _ _ => formed_blockRewrite? stable_callsIn) hcalls
      have hsound := (governed_entries (fun _ _ => trivial) d'.block).mpr h.holds.sound
      exact ⟨hquiet' s hs p hp, hcalls' s hs p hp, hsound s hs p hp⟩
    · cases hresult.symm.trans hstats

def pipedLoop : Tree :=
  let key : Pipe Untagged :=
    .mk () [] [.mk () (.atom () (.identifier "key")) [.atom () (.field ["Name"])]]
  .ofBlock "" [.branch () .range
    (.mk () [] [.mk () (.atom () (.field ["Items"])) [],
      .mk () (.atom () (.identifier "sort")) [.paren () key]])
    [.action () (.mk () [] [.mk () (.atom () (.identifier "show")) [.atom () .dot]])] []]

theorem parse_pipedLoop : Tree.parse (delimited "range .Items | sort (key .Name)" ++
    delimited "show ." ++ delimited "end") = .ok pipedLoop := by cbv

theorem canonicalize_flat_pipedLoop :
    ∃ outcome b, pipedLoop.canonicalize {} = .ok outcome ∧ outcome.tree.read = .ok b ∧
      (∀ p ∈ blockPipes b, p.Flat) ∧ ∀ s ∈ blockStmts b, s.Flat := by
  have hparsed := parsed_of_parse parse_pipedLoop
  obtain ⟨b, -, hb⟩ := hparsed.holds
  have hshape : pipedLoop.read.map (fun b =>
      decide (Governed Pipe.Quiet b ∧ Governed Pipe.Calling b)) = .ok true := by cbv
  rw [hb.read] at hshape
  obtain ⟨hquiet, hcalls⟩ := of_decide_eq_true (Except.ok.inj hshape)
  obtain ⟨outcome, hrun, hok, hflat⟩ := canonicalize_flat hparsed.singlyOwned hb.read hquiet hcalls {}
  obtain ⟨stats, hstats⟩ := hok Config.validate_default rfl
  obtain ⟨b', hread, hflat⟩ := hflat stats hstats
  exact ⟨outcome, b', hrun, hread, hflat⟩

end Tree

end FlatTemplate

import FlatTemplate.Proofs.Parser.Parsed
import FlatTemplate.Proofs.Session.Canonicalizing

namespace FlatTemplate

theorem countKind_blockRename (kind : NodeKind) (g : String → String) (b : Block Handle) :
    countKind kind (blockEntries (blockRename g b)) = countKind kind (blockEntries b) := by
  rw [blockEntries_rename, countKind, countKind, List.countP_map]
  refine List.countP_congr fun e _ => ?_
  rw [Function.comp_apply, Entry.key_rename]

/-- One pass, and more for every statement, command and expression. -/
def passesWithin (b : Block Handle) : Nat :=
  1 + countKind .stmt (blockEntries b) + 3 * countKind .command (blockEntries b) +
    countKind .expr (blockEntries b)

theorem Canonicalized.length_lt {config : Config} {b : Block Handle} {bound : NodeKind → Nat}
    {outcome : Outcome} {n : Nat} {d d' : Draft} (h : Canonicalized config b bound outcome n d d') :
    n < passesWithin b := by
  have hlength := h.run.length_le
  have hweight := blockWeight_le d.block
  rw [h.block, countKind_blockRename, countKind_blockRename, countKind_blockRename, ← h.block]
    at hweight
  rw [passesWithin]
  omega

theorem Config.validate_ne_passLimit (config : Config) (name : String) (limit : Nat) :
    config.validate ≠ .error (.passLimit name limit) := by
  unfold Config.validate
  repeat' split
  all_goals simp [throw, throwThe, MonadExceptOf.throw]

namespace Tree

variable {t : Tree}

/-- The last pass of a session finds nothing to rewrite, and a session whose limit leaves it the
passes that the size of the template asks for gets there. -/
theorem canonicalize_passes (ht : t.SinglyOwned) (config : Config) :
    ∃ b outcome, t.read = .ok b ∧ t.canonicalize config = .ok outcome ∧
      (∀ stats, outcome.result = .ok stats →
        stats.passes ≤ passesWithin b ∧ outcome.tree.plan? = .ok none) ∧
      ((∀ limit, config.maxPasses = some limit → passesWithin b ≤ limit) →
        (config.validate = .ok () → ∃ stats, outcome.result = .ok stats) ∧
          ∀ name limit, outcome.result ≠ .error (.passLimit name limit)) := by
  obtain ⟨b, hb⟩ := ht.exists_holds
  cases hvalid : config.validate with
  | error e =>
    refine ⟨b, ⟨t, .error e⟩, hb.read, ?_, nofun, fun _ => ⟨nofun, fun name limit heq => ?_⟩⟩
    · rw [Tree.canonicalize, hvalid]
      rfl
    · exact config.validate_ne_passLimit name limit (Except.error.inj heq ▸ hvalid)
  | ok _ =>
    obtain ⟨outcome, n, d, d', hrun, h⟩ := hb.canonicalize hvalid
    have hlt := h.length_lt
    refine ⟨b, outcome, hb.read, hrun, fun stats hstats => ?_, fun hlimit => ?_⟩
    · rcases h.ends with ⟨stats', hresult, hpasses, hnone⟩ | ⟨_, _, _, _, hresult⟩
      · obtain rfl := Except.ok.inj (hresult.symm.trans hstats)
        refine ⟨hpasses ▸ hlt, ?_⟩
        rw [h.holds.plan? (d'.fresh config.tempStem), hnone]
        rfl
      · cases hresult.symm.trans hstats
    · rcases h.ends with ⟨stats, hresult, -, -⟩ | ⟨limit, _, hmax, hn, -⟩
      · exact ⟨fun _ => ⟨stats, hresult⟩, fun _ _ heq => by cases hresult.symm.trans heq⟩
      · have := hlimit limit hmax
        omega

def nestedCall : Tree :=
  let inner : Pipe Untagged :=
    .mk () [] [.mk () (.atom () (.identifier "g")) [.atom () (.field ["Y"])]]
  .ofBlock "" [.action () (.mk () []
    [.mk () (.atom () (.identifier "f")) [.atom () (.field ["X"]), .paren () inner]])]

theorem parse_nestedCall : Tree.parse (delimited "f .X (g .Y)") = .ok nestedCall := by cbv

theorem canonicalize_passes_nestedCall :
    ∃ outcome stats, nestedCall.canonicalize {} = .ok outcome ∧ outcome.result = .ok stats ∧
      stats.passes ≤ 1 + 1 + 3 * 2 + 5 ∧ outcome.tree.plan? = .ok none := by
  obtain ⟨b, outcome, hread, hrun, hdone, hlimit⟩ :=
    canonicalize_passes (parsed_of_parse parse_nestedCall).singlyOwned {}
  obtain ⟨hok, -⟩ := hlimit nofun
  obtain ⟨stats, hstats⟩ := hok Config.validate_default
  obtain ⟨hpasses, hnone⟩ := hdone stats hstats
  have hcount : nestedCall.read.map passesWithin = .ok (1 + 1 + 3 * 2 + 5) := by cbv
  rw [hread] at hcount
  exact ⟨outcome, stats, hrun, hstats, Except.ok.inj hcount ▸ hpasses, hnone⟩

end Tree

end FlatTemplate

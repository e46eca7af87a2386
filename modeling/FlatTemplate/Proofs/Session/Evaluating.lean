import FlatTemplate.Proofs.Ordering.Attributing
import FlatTemplate.Proofs.Ordering.Exactness
import FlatTemplate.Proofs.Session.Flattening

namespace FlatTemplate

theorem Canonicalized.blockTrace_eq {config : Config} {b : Block Handle} {bound : NodeKind → Nat}
    {outcome : Outcome} {n : Nat} {d d' : Draft} (h : Canonicalized config b bound outcome n d d')
    (hbound : ∀ id ∈ stmtIds b, id.index < bound .stmt) (hquiet : Governed Pipe.Quiet b)
    (hacting : Governed Pipe.Acting b) :
    blockTrace Pipe.hoisted (stmtIds b) d'.block = blockTrace Pipe.hoisted (stmtIds b) b := by
  refine (h.run.preserves (P := fun d => Governed Pipe.Quiet d.block ∧
    Governed Pipe.Acting d.block ∧ bound .stmt ≤ d.bound .stmt ∧
      blockTrace Pipe.hoisted (stmtIds b) d.block = blockTrace Pipe.hoisted (stmtIds b) b)
    (fun d d' r hnext ⟨hquiet, hacting, hle, htrace⟩ => ?_) ⟨?_, ?_, h.bound .stmt, ?_⟩).2.2.2
  · have hfresh : (d.fresh config.tempStem).stmt ∉ stmtIds b := fun hmem =>
      absurd (hbound _ hmem) (Nat.not_lt.mpr hle)
    rw [hnext.block]
    exact ⟨quiet_blockRewrite? hnext.rewrite hquiet,
      formed_blockRewrite? stable_actionsIn hnext.rewrite hacting,
      Nat.le_trans hle (hnext.bound .stmt),
      (blockTrace_blockRewrite? hnext.rewrite hfresh hquiet hacting).trans htrace⟩
  · exact h.block ▸ governed_blockRename (fun _ => Pipe.quiet_rename _) hquiet
  · exact h.block ▸ governed_blockRename (fun _ => Pipe.formed_rename stable_actionsIn _) hacting
  · rw [h.block, blockTrace_rename]

namespace Tree

variable {t : Tree} {b : Block Handle}

theorem Holds.index_lt_of_mem_stmtIds (hb : t.Holds b) :
    ∀ id ∈ stmtIds b, id.index < t.arenaSize .stmt := by
  intro id hid
  obtain ⟨s, hs, rfl⟩ := List.mem_map.mp hid
  have hkey : s.tag.key ∈ blockKeys b :=
    (sublist_blockStmts b).subset (List.mem_map_of_mem hs)
  obtain ⟨e, he, hkey⟩ := List.mem_map.mp hkey
  have hlt := (hb.has e he).index_lt
  rw [hkey] at hlt
  exact hlt

/-- When a session is over, the inserted actions and what governs a statement evaluate the calls and
reads that governed it before. They do so in the same order if and only if no method call among them
has arguments in parentheses behind paths. -/
theorem canonicalize_evaluated (ht : t.SinglyOwned) (hread : t.read = .ok b)
    (hquiet : Governed Pipe.Quiet b) (hacting : Governed Pipe.Acting b) (config : Config) :
    ∃ outcome, t.canonicalize config = .ok outcome ∧
      (config.validate = .ok () → config.maxPasses = none →
        ∃ stats, outcome.result = .ok stats) ∧
      ∀ stats, outcome.result = .ok stats → ∃ b', outcome.tree.read = .ok b' ∧
        ∀ s ∈ blockStmts b, ∀ p ∈ s.governing?,
          evaluated s.tag [] (blockTrace Pipe.events (stmtIds b) b') = p.hoisted ∧
            (p.hoisted = p.events ↔ ∀ q ∈ p.pipes, q.Orderly) := by
  obtain ⟨b₀, hb⟩ := ht.exists_holds
  obtain rfl := Except.ok.inj (hb.read.symm.trans hread)
  cases hvalid : config.validate with
  | error e =>
    refine ⟨⟨t, .error e⟩, ?_, nofun, nofun⟩
    rw [Tree.canonicalize, hvalid]
    rfl
  | ok _ =>
    obtain ⟨outcome, n, d, d', hrun, h⟩ := hb.canonicalize hvalid
    refine ⟨outcome, hrun, fun _ => h.succeeds, fun stats hstats => ⟨d'.block, h.holds.read,
      fun s hs p hp => ⟨?_, p.hoisted_eq_iff
        (hb.nodup.sublist ((sublist_governing_block _ hs hp).map _))⟩⟩⟩
    rcases h.ends with ⟨_, -, -, hnone⟩ | ⟨_, _, _, _, hresult⟩
    · have hquiet' := h.governed (fun g _ => Pipe.quiet_rename g)
        (fun _ _ _ => quiet_blockRewrite?) hquiet
      have hacting' := h.governed (fun g _ => Pipe.formed_rename stable_actionsIn g)
        (fun _ _ _ => formed_blockRewrite? stable_actionsIn) hacting
      rw [blockTrace_of_blockRewrite? hnone hquiet' hacting',
        h.blockTrace_eq hb.index_lt_of_mem_stmtIds hquiet hacting,
        evaluated_blockTrace (nodup_stmtIds hb.nodup) hs hp]
    · cases hresult.symm.trans hstats

def methodCall : Tree :=
  let call : Pipe Untagged :=
    .mk () [] [.mk () (.atom () (.identifier "f")) [.atom () (.number "1")]]
  .ofBlock "" [.action () (.mk () []
    [.mk () (.atom () (.field ["M"])) [.atom () (.field ["A"]), .paren () call]])]

theorem parse_methodCall : Tree.parse (delimited ".M .A (f 1)") = .ok methodCall := by cbv

def compareOrders (t : Tree) : Except Fault (List (Option (List ExprId) × List ExprId)) := do
  let b ← t.read
  let outcome ← t.canonicalize {}
  let b' ← outcome.tree.read
  return (blockStmts b).map fun s => (s.governing?.map Pipe.events,
    evaluated s.tag [] (blockTrace Pipe.events (stmtIds b) b'))

theorem canonicalize_methodCall :
    methodCall.Parsed ∧ ∃ b s p outcome stats b', methodCall.read = .ok b ∧
      Governed Pipe.Quiet b ∧ Governed Pipe.Acting b ∧ s ∈ blockStmts b ∧
      p ∈ s.governing? ∧ methodCall.canonicalize {} = .ok outcome ∧ outcome.result = .ok stats ∧
      outcome.tree.read = .ok b' ∧
      evaluated s.tag [] (blockTrace Pipe.events (stmtIds b) b') ≠ p.events := by
  have hparsed := parsed_of_parse parse_methodCall
  obtain ⟨b, -, hb⟩ := hparsed.holds
  obtain ⟨outcome, n, d, d', hrun, h⟩ :=
    hb.canonicalize Config.validate_default
  obtain ⟨stats, hstats⟩ := h.succeeds rfl
  have hshape : methodCall.read.map (fun b =>
      decide (Governed Pipe.Quiet b ∧ Governed Pipe.Acting b)) = .ok true := by cbv
  rw [hb.read] at hshape
  obtain ⟨hquiet, hacting⟩ := of_decide_eq_true (Except.ok.inj hshape)
  have horders : compareOrders methodCall =
      .ok [(some [⟨1⟩, ⟨2⟩, ⟨0⟩], [⟨2⟩, ⟨1⟩, ⟨0⟩])] := by
    rw [compareOrders, Tree.canonicalize, Config.validate_default]
    cbv
  rw [compareOrders, hb.read, ok_bind, hrun, ok_bind, h.holds.read, ok_bind] at horders
  obtain ⟨s, rest, hb', hs, -⟩ := List.map_eq_cons_iff.mp (Except.ok.inj horders)
  obtain ⟨hevents, hevaluated⟩ := Prod.mk.inj hs
  obtain ⟨p, hp, hevents⟩ := Option.map_eq_some_iff.mp hevents
  refine ⟨hparsed, b, s, p, outcome, stats, d'.block, hb.read, hquiet, hacting, ?_, hp, hrun,
    hstats, h.holds.read, ?_⟩
  · rw [hb']
    exact List.mem_cons_self
  · rw [hevaluated, hevents]
    decide

def orderlyCall : Tree :=
  let call : Pipe Untagged :=
    .mk () [] [.mk () (.atom () (.identifier "f")) [.atom () (.number "1")]]
  .ofBlock "" [.branch () .within (.mk () [] [.mk () (.atom () (.field ["A"])) []])
    [.action () (.mk () [] [.mk () (.atom () (.field ["M"]))
      [.paren () call, .atom () (.field ["B"])]])] []]

theorem parse_orderlyCall : Tree.parse (delimited "with .A" ++ delimited ".M (f 1) .B" ++
    delimited "end") = .ok orderlyCall := by cbv

theorem canonicalize_evaluated_orderlyCall :
    ∃ b outcome b', orderlyCall.read = .ok b ∧ orderlyCall.canonicalize {} = .ok outcome ∧
      outcome.tree.read = .ok b' ∧ ∀ s ∈ blockStmts b, ∀ p ∈ s.governing?,
        evaluated s.tag [] (blockTrace Pipe.events (stmtIds b) b') = p.events := by
  have hparsed := parsed_of_parse parse_orderlyCall
  obtain ⟨b, -, hb⟩ := hparsed.holds
  have hshape : orderlyCall.read.map (fun b =>
      decide (Governed Pipe.Quiet b ∧ Governed Pipe.Acting b ∧
        Governed (fun p => p.hoisted = p.events) b)) = .ok true := by cbv
  rw [hb.read] at hshape
  obtain ⟨hquiet, hacting, horder⟩ := of_decide_eq_true (Except.ok.inj hshape)
  obtain ⟨outcome, hrun, hok, h⟩ :=
    canonicalize_evaluated hparsed.singlyOwned hb.read hquiet hacting {}
  obtain ⟨stats, hstats⟩ := hok Config.validate_default rfl
  obtain ⟨b', hread, h⟩ := h stats hstats
  exact ⟨b, outcome, b', hb.read, hrun, hread,
    fun s hs p hp => (h s hs p hp).1.trans (horder s hs p hp)⟩

end Tree

end FlatTemplate

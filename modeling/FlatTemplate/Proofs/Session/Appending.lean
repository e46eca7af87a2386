import FlatTemplate.Proofs.Session.Resuming
import FlatTemplate.Proofs.Session.Safety
import FlatTemplate.Proofs.Template.Appending

namespace FlatTemplate

theorem getD_lookup_cons (rule r : Rule) (n : Nat) (counts : List (Rule × Nat)) :
    (((r, n) :: counts).lookup rule).getD 0 =
      if r = rule then n else (counts.lookup rule).getD 0 := by
  rw [List.lookup_cons]
  by_cases h : r = rule
  · rw [if_pos h, beq_iff_eq.mpr h.symm]
    rfl
  · rw [if_neg h, beq_eq_false_iff_ne.mpr (Ne.symm h)]

theorem getD_lookup_tally (rule r : Rule) (counts : List (Rule × Nat)) :
    ((tally r counts).lookup rule).getD 0 =
      (counts.lookup rule).getD 0 + if r = rule then 1 else 0 := by
  induction counts with
  | nil =>
    rw [tally, getD_lookup_cons]
    exact (Nat.zero_add _).symm
  | cons count counts ih =>
    obtain ⟨r', n⟩ := count
    rw [tally]
    split
    · next heq =>
      subst heq
      rw [getD_lookup_cons, getD_lookup_cons]
      split <;> rfl
    · next hne =>
      rw [getD_lookup_cons, getD_lookup_cons, ih]
      by_cases h : r' = rule
      · rw [if_pos h, if_pos h, if_neg fun hr => hne (h.trans hr.symm), Nat.add_zero]
      · rw [if_neg h, if_neg h]

namespace Stats

def count (stats : Stats) (rule : Rule) : Nat := (stats.byRule.lookup rule).getD 0

theorem count_after (stats : Stats) (rules : List Rule) (finished : Bool) (rule : Rule) :
    (stats.after rules finished).count rule = stats.count rule + rules.count rule := by
  induction rules generalizing stats with
  | nil => rfl
  | cons r rules ih =>
    have hr : (stats.after [r] false).count rule = stats.count rule + if r = rule then 1 else 0 :=
      getD_lookup_tally rule r stats.byRule
    rw [← after_cons, ih, hr, List.count_cons]
    simp only [beq_iff_eq]
    omega

theorem count_summary (rules : List Rule) (renamed taken : Nat) (rule : Rule) :
    { Stats.after { renamed } rules true with temporaries := taken }.count rule =
      rules.count rule :=
  (count_after { renamed } rules true rule).trans (Nat.zero_add _)

structure IsSum (stats stats₁ stats₂ : Stats) : Prop where
  passes : stats.passes + 1 = stats₁.passes + stats₂.passes
  rewrites : stats.rewrites = stats₁.rewrites + stats₂.rewrites
  temporaries : stats.temporaries = stats₁.temporaries + stats₂.temporaries
  renamed : stats.renamed = stats₁.renamed + stats₂.renamed
  byRule : ∀ rule, stats.count rule = stats₁.count rule + stats₂.count rule

theorem isSum_after (rules₁ rules₂ : List Rule) (renamed₁ renamed₂ taken₁ taken₂ : Nat) :
    IsSum { Stats.after { renamed := renamed₁ + renamed₂ } (rules₁ ++ rules₂) true with
        temporaries := taken₁ + taken₂ }
      { Stats.after { renamed := renamed₁ } rules₁ true with temporaries := taken₁ }
      { Stats.after { renamed := renamed₂ } rules₂ true with temporaries := taken₂ } := by
  constructor
  · simp only [after, List.length_append, Bool.toNat_true]
    omega
  · simp only [after, List.length_append]
    omega
  · rfl
  · rfl
  · intro rule
    rw [count_summary, count_summary, count_summary, List.count_append]

end Stats

namespace Tree

variable {t : Tree} {b : Block Handle} {front back : List StmtId}

theorem Holds.of_append (h : t.Holds b) (hroot : t.root = front ++ back) :
    ∃ b₁ b₂, b = b₁ ++ b₂ ∧ { t with root := front }.Holds b₁ ∧
      { t with root := back }.Holds b₂ := by
  obtain ⟨b₁, b₂, rfl, rfl, rfl⟩ := List.map_eq_append_iff.mp (h.root.symm.trans hroot)
  have hhas := h.has
  have hnodup := h.nodup
  have hsound := h.sound
  rw [blockKeys_append, List.nodup_append] at hnodup
  rw [blockEntries_append, List.forall_mem_append] at hhas hsound
  exact ⟨b₁, b₂, rfl, ⟨rfl, hhas.1, hnodup.1, hsound.1⟩, ⟨rfl, hhas.2, hnodup.2.1, hsound.2⟩⟩

/-- A session without a limit on one list of statements behind another does what a session on the
one does and then what a session on the other does, with the temporaries that are left. -/
theorem canonicalize_append (ht : t.SinglyOwned) (hroot : t.root = front ++ back) {config : Config}
    (hvalid : config.validate = .ok ()) (hmax : config.maxPasses = none) :
    ∃ t' t₁ t₂ stats stats₁ stats₂ b b₁ b₂, t.canonicalize config = .ok ⟨t', .ok stats⟩ ∧
      { t with root := front }.canonicalize config = .ok ⟨t₁, .ok stats₁⟩ ∧
      { t with root := back }.canonicalize config = .ok ⟨t₂, .ok stats₂⟩ ∧
      t'.read = .ok b ∧ t₁.read = .ok b₁ ∧ t₂.read = .ok b₂ ∧
      blockErase b = blockErase b₁ ++
        blockErase (blockRename (renumber config.tempStem stats₁.temporaries) b₂) ∧
      stats.IsSum stats₁ stats₂ := by
  have hconfig := Config.valid_of_validate hvalid
  obtain ⟨b, hb⟩ := ht.exists_holds
  obtain ⟨b₁, b₂, rfl, hb₁, hb₂⟩ := hb.of_append hroot
  obtain ⟨s, _, rules, d, d', hs, w⟩ := hb.session config
  obtain ⟨s₁, _, rules₁, d₁, d₁', hs₁, w₁⟩ := hb₁.session config
  obtain ⟨s₂, _, rules₂, d₂, d₂', hs₂, w₂⟩ := hb₂.session config
  obtain rfl := w.finishes hmax
  obtain rfl := w₁.finishes hmax
  obtain rfl := w₂.finishes hmax
  -- The statements in front are rewritten as they are on their own.
  have hstart : d = d₁.append (blockRename (respell config.userTag) b₂) := by
    rw [w.start, w₁.start, Draft.append, blockRename_eq_map, List.map_append]
    simp only [← blockRename_eq_map]
    rfl
  obtain ⟨rest, _, rfl, hrest, rfl⟩ := Draft.inStep_append.trace w₁.trace w.trace (w.done rfl) hstart
  -- Those behind them go on with the temporaries that are left.
  have hfollows : Draft.Follows d₁'.block (renumber config.tempStem d₁'.taken) d₁'.taken d₂
      (d₁'.append (blockRename (respell config.userTag) b₂)) := by
    refine ⟨⟨_, rfl, ?_⟩, by rw [w₂.start, Nat.zero_add]; rfl⟩
    rw [w₂.start, blockRename_rename, show renumber config.tempStem d₁'.taken ∘
      respell config.userTag = respell config.userTag from funext (hconfig.renumber_respell _)]
  obtain ⟨rfl, ⟨rest, hblock, herase⟩, htaken⟩ :=
    (Draft.inStep_follows (renumber_temporary _ _)
      (blockRewrite?_eq_none_of_fresh (w₁.done rfl))).trace_eq
      (fun _ _ h => h.done (blockRewrite?_eq_none_of_fresh (w₁.done rfl)))
      w₂.trace (w₂.done rfl) hrest (w.done rfl) hfollows
  refine ⟨s.tree, s₁.tree, s₂.tree, s.summary, s₁.summary, s₂.summary, d'.block, d₁'.block,
    d₂'.block, canonicalize_of_session hvalid hs, canonicalize_of_session hvalid hs₁,
    canonicalize_of_session hvalid hs₂, w.holds.read, w₁.holds.read, w₂.holds.read, ?_, ?_⟩
  · rw [hblock, blockErase_append, herase, w₁.summary_eq]
  · rw [w.summary_eq, w₁.summary_eq, w₂.summary_eq, htaken, Nat.add_comm, blockEntries_append,
      countNames_append]
    exact Stats.isSum_after ..

theorem canonicalize_declaration :
    (Tree.canonicalize {} { declaredCall with root := [⟨0⟩] }).map
      (·.result.toOption.map Stats.temporaries) = .ok (some 2) := by
  rw [Tree.canonicalize, Config.validate_default]
  cbv

theorem canonicalize_append_declaredCall :
    ∃ t' t₁ t₂ stats stats₁ stats₂ b b₁ b₂, declaredCall.canonicalize {} = .ok ⟨t', .ok stats⟩ ∧
      { declaredCall with root := [⟨0⟩] }.canonicalize {} = .ok ⟨t₁, .ok stats₁⟩ ∧
      { declaredCall with root := [⟨1⟩] }.canonicalize {} = .ok ⟨t₂, .ok stats₂⟩ ∧
      t'.read = .ok b ∧ t₁.read = .ok b₁ ∧ t₂.read = .ok b₂ ∧
      blockErase b = blockErase b₁ ++ blockErase (blockRename (renumber "var" 2) b₂) ∧
      stats.IsSum stats₁ stats₂ := by
  obtain ⟨t', t₁, t₂, stats, stats₁, stats₂, b, b₁, b₂, hrun, hrun₁, hrun₂, hb, hb₁, hb₂, hblock,
    hsum⟩ := canonicalize_append (parsed_of_parse parse_declaredCall).singlyOwned
      (by cbv : declaredCall.root = [⟨0⟩] ++ [⟨1⟩]) Config.validate_default rfl
  have htwo : stats₁.temporaries = 2 := by
    have hcount := canonicalize_declaration
    rw [hrun₁] at hcount
    exact Option.some.inj (Except.ok.inj hcount)
  rw [htwo] at hblock
  exact ⟨t', t₁, t₂, stats, stats₁, stats₂, b, b₁, b₂, hrun, hrun₁, hrun₂, hb, hb₁, hb₂, hblock,
    hsum⟩

end Tree

end FlatTemplate

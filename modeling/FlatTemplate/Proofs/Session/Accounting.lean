import FlatTemplate.Proofs.Session.Appending
import FlatTemplate.Proofs.Session.Conserving
import FlatTemplate.Proofs.Temporaries.Counting
import Mathlib.Data.Set.Card

namespace FlatTemplate

theorem encard_eq_length {α : Type} [DecidableEq α] {s : Set α} {l : List α} (hl : l.Nodup)
    (hs : ∀ x, x ∈ s ↔ x ∈ l) : s.encard = l.length := by
  have heq : s = l.toFinset := by
    ext x
    simp [hs x]
  rw [heq, Set.encard_coe_eq_coe_finsetCard, List.toFinset_card_of_nodup hl]

section Tally

variable (rule : Rule) {counts : List (Rule × Nat)}

theorem mem_map_fst_tally {r : Rule} :
    r ∈ (tally rule counts).map Prod.fst ↔ r = rule ∨ r ∈ counts.map Prod.fst := by
  induction counts with
  | nil => simp [tally]
  | cons count counts ih =>
    rw [tally]
    split
    · next heq => simp [heq]
    · rw [List.map_cons, List.mem_cons, ih, List.map_cons, List.mem_cons]
      exact or_left_comm

theorem nodup_tally (h : (counts.map Prod.fst).Nodup) :
    ((tally rule counts).map Prod.fst).Nodup := by
  induction counts with
  | nil => exact List.nodup_singleton rule
  | cons count counts ih =>
    obtain ⟨hnot, hcounts⟩ := List.nodup_cons.mp h
    rw [tally]
    split
    · exact h
    · next hne =>
      exact List.nodup_cons.mpr ⟨fun hmem =>
        ((mem_map_fst_tally rule).mp hmem).elim hne hnot, ih hcounts⟩

theorem sum_tally (counts : List (Rule × Nat)) :
    ((tally rule counts).map Prod.snd).sum = (counts.map Prod.snd).sum + 1 := by
  induction counts with
  | nil => rfl
  | cons count counts ih =>
    rw [tally]
    split
    · simp only [List.map_cons, List.sum_cons]
      omega
    · simp only [List.map_cons, List.sum_cons, ih]
      omega

theorem pos_of_mem_tally (h : ∀ count ∈ counts, 0 < count.2) :
    ∀ count ∈ tally rule counts, 0 < count.2 := by
  induction counts with
  | nil => simp [tally]
  | cons count counts ih =>
    obtain ⟨hcount, hcounts⟩ := List.forall_mem_cons.mp h
    rw [tally]
    split
    · exact List.forall_mem_cons.mpr ⟨Nat.succ_pos _, hcounts⟩
    · exact List.forall_mem_cons.mpr ⟨hcount, ih hcounts⟩

end Tally

namespace Stats

structure Tallied (stats : Stats) : Prop where
  nodup : (stats.byRule.map Prod.fst).Nodup
  positive : ∀ count ∈ stats.byRule, 0 < count.2
  sum : stats.rewrites = (stats.byRule.map Prod.snd).sum

theorem tallied_start (renamed : Nat) : Tallied { renamed } := ⟨List.nodup_nil, nofun, rfl⟩

theorem Tallied.after {stats : Stats} (h : stats.Tallied) (rules : List Rule) (finished : Bool) :
    (stats.after rules finished).Tallied := by
  induction rules generalizing stats with
  | nil => exact ⟨h.nodup, h.positive, h.sum⟩
  | cons rule rules ih =>
    rw [← after_cons]
    exact ih ⟨nodup_tally rule h.nodup, pos_of_mem_tally rule h.positive,
      (congrArg (· + 1) h.sum).trans (sum_tally rule stats.byRule).symm⟩

end Stats

namespace Session.Worked

variable {config : Config} {b : Block Handle} {bound : NodeKind → Nat} {s : Session}
  {rules : List Rule} {d d' : Draft} (w : s.Worked config b bound true rules d d')
include w

theorem passes_eq : s.summary.passes = s.summary.rewrites + 1 := by
  simp [w.summary_eq, Stats.after]

theorem rewrites_eq : s.summary.rewrites = rules.length := by simp [w.summary_eq, Stats.after]

theorem temporaries_eq : s.summary.temporaries = d'.taken := by rw [w.summary_eq]

theorem count_eq (rule : Rule) : s.summary.count rule = rules.count rule := by
  rw [w.summary_eq]
  exact Stats.count_summary ..

theorem tallied : s.summary.Tallied := by
  have h := (Stats.tallied_start (countNames (blockEntries b))).after rules true
  rw [w.summary_eq]
  exact ⟨h.nodup, h.positive, h.sum⟩

end Session.Worked

namespace Tree

def statements (t : Tree) : Set StmtId := {id | ∃ node, t.Reachable (.stmt id node)}

def temporaries (stem : String) (t : Tree) : Set String :=
  {x | isTemporary stem x = true ∧ ∃ id node, t.Reachable (.pipe id node) ∧ x ∈ node.decls}

def turned (t t' : Tree) : Set PipeId :=
  {id | (∃ x, t.Encloses id x) ∧ ∃ host, t'.Reachable (.stmt host (.action id))}

/-- What the figures of a session tell of the rules that it applied, and of the number of statements
at its beginning and at its end. -/
structure Accounts (config : Config) (t t' : Tree) (stats : Stats) (before after : Nat) : Prop where
  passes : stats.passes = stats.rewrites + 1
  tallied : stats.Tallied
  begins : t.statements.encard = before
  ends : t'.statements.encard = after
  inserted : after + stats.count .foldPipedValue + stats.count .redundantParens =
    before + stats.rewrites
  temporaries : (t'.temporaries config.tempStem).encard = stats.temporaries
  turned : ∃ n : Nat, (t.turned t').encard = n ∧ after = before + stats.temporaries + n

variable {t t' : Tree} {b b' : Block Handle} {config : Config} {stats : Stats}

theorem Holds.encard_statements (h : t.Holds b) : t.statements.encard = (blockStmts b).length := by
  have hkeys : ((blockStmts b).map fun s => s.tag.key).Nodup := by
    have hperm := (perm_entries_heads b).map Entry.key
    have hnodup := hperm.nodup_iff.mp h.nodup
    rw [List.map_append, List.nodup_append, List.map_map] at hnodup
    exact hnodup.1
  have htags : ((blockStmts b).map Stmt.tag).Nodup := by
    rw [show (fun s : Stmt Handle => s.tag.key) = Handle.key ∘ Stmt.tag from rfl,
      ← List.map_map] at hkeys
    exact hkeys.of_map _
  rw [encard_eq_length htags fun id => ?_, List.length_map]
  simp only [statements, Set.mem_ofPred_eq, h.reachable_iff, stmt_mem_blockEntries, List.mem_map]
  exact ⟨fun ⟨_, s, hs, htag, _⟩ => ⟨s, hs, htag⟩, fun ⟨s, hs, htag⟩ => ⟨_, s, hs, htag, rfl⟩⟩

theorem Holds.mem_temporaries_iff (h : t.Holds b) {stem x : String} :
    x ∈ t.temporaries stem ↔ isTemporary stem x = true ∧ x ∈ declsIn (blockEntries b) := by
  refine and_congr_right fun _ => ?_
  simp only [h.reachable_iff, declsIn, List.mem_flatMap]
  constructor
  · rintro ⟨id, node, he, hx⟩
    exact ⟨_, he, hx⟩
  · rintro ⟨e, he, hx⟩
    cases e with
    | pipe id node => exact ⟨id, node, he, hx⟩
    | stmt | command | expr => cases hx

theorem Holds.encard_temporaries (h : t.Holds b) {d₀ d : Draft} {n : Nat} (hconfig : config.Valid)
    (hstart : d₀.block = blockRename (respell config.userTag) b') (htaken : d₀.taken = 0)
    (hrun : Draft.Run config.tempStem n d₀ d) (hend : d.block = b) :
    (t.temporaries config.tempStem).encard = d.taken := by
  have hperm := hrun.perm_declsIn htaken
  rw [hstart, hend] at hperm
  have hnodup : ((List.range d.taken).map (temporary config.tempStem)).Nodup :=
    List.nodup_range.map fun _ _ => temporary_inj
  rw [encard_eq_length hnodup fun x => ?_, List.length_map, List.length_range]
  rw [h.mem_temporaries_iff, hperm.mem_iff, List.mem_append]
  constructor
  · rintro ⟨htemp, hx | hx⟩
    · exact hx
    · rw [blockEntries_rename, declsIn_rename] at hx
      obtain ⟨y, -, rfl⟩ := List.mem_map.mp hx
      cases htemp.symm.trans (hconfig.isTemporary_respell y)
  · intro hx
    obtain ⟨k, -, rfl⟩ := List.mem_map.mp hx
    exact ⟨isTemporary_temporary .., .inl hx⟩

theorem Conserves.length_added {taken : Nat} {added : List (ExprId × String)}
    {turned : List (PipeId × String)} (h : t.Conserves config t' taken added turned) :
    added.length = taken + turned.length := by
  have hnames := h.names.length_eq
  simpa only [List.length_append, List.length_map, List.length_range] using hnames

theorem Conserves.encard_turned {taken : Nat} {added : List (ExprId × String)}
    {turned : List (PipeId × String)} (h : t.Conserves config t' taken added turned) :
    (t.turned t').encard = turned.length := by
  rw [encard_eq_length h.nodup_turned fun id => ?_, List.length_map]
  simp only [Tree.turned, Set.mem_ofPred_eq, List.mem_map, Prod.exists, exists_eq_right,
    h.turned_iff, exists_and_right]

theorem validate_of_canonicalize (h : t.canonicalize config = .ok ⟨t', .ok stats⟩) :
    config.validate = .ok () := by
  rw [Tree.canonicalize] at h
  cases hvalid : config.validate with
  | error e =>
    rw [hvalid] at h
    cases h
  | ok => rfl

/-- The figures of a session that succeeds account for what it did to the tree. -/
theorem canonicalize_accounts (ht : t.SinglyOwned)
    (hrun : t.canonicalize config = .ok ⟨t', .ok stats⟩) :
    ∃ before after, t.Accounts config t' stats before after := by
  have hvalid := validate_of_canonicalize hrun
  obtain ⟨b, hb⟩ := ht.exists_holds
  obtain ⟨s, finished, rules, d, d', hsession, w⟩ := hb.session config
  obtain ⟨rfl, hfinished⟩ := of_canonicalize hvalid hsession hrun
  obtain rfl : true = finished := hfinished
  rw [canonicalize_of_session hvalid hsession] at hrun
  obtain rfl : s.summary = stats := by cases hrun; rfl
  have htaken : d.taken = 0 := by rw [w.start]
  have hstart : d.block = blockRename (respell config.userTag) b := by rw [w.start]
  obtain ⟨added, turned, hd⟩ := w.trace.run.conserves htaken
  obtain ⟨turned, hconserves⟩ := hb.conserves w.holds hstart rfl hd
  have hadded := hconserves.length_added
  have hinserts := w.trace.countP_inserts hd
  have hrules := count_add_countP_inserts rules
  have hgrown := w.trace.grows.1
  rw [hstart, blockStmts_rename, List.length_map] at hgrown
  refine ⟨_, _, w.passes_eq, w.tallied, hb.encard_statements, w.holds.encard_statements, ?_, ?_,
    turned.length, hconserves.encard_turned, ?_⟩
  · rw [w.count_eq, w.count_eq, w.rewrites_eq]
    omega
  · rw [w.temporaries_eq]
    exact w.holds.encard_temporaries (Config.valid_of_validate hvalid) hstart htaken w.trace.run rfl
  · rw [w.temporaries_eq]
    omega

theorem canonicalize_enclosedCall : (Tree.canonicalize {} enclosedCall).map
    (·.result.toOption.map fun stats => (stats.rewrites, stats.temporaries)) =
      .ok (some (5, 4)) := by
  rw [Tree.canonicalize, Config.validate_default]
  cbv

theorem canonicalize_accounts_enclosedCall : ∃ t' stats before after,
    enclosedCall.canonicalize {} = .ok ⟨t', .ok stats⟩ ∧
      enclosedCall.Accounts {} t' stats before after ∧
        (stats.rewrites, stats.temporaries) = (5, 4) := by
  have hfigures := canonicalize_enclosedCall
  match hrun : enclosedCall.canonicalize {} with
  | .ok ⟨t', .ok stats⟩ =>
    obtain ⟨before, after, haccounts⟩ :=
      canonicalize_accounts (parsed_of_parse parse_enclosedCall).singlyOwned hrun
    rw [hrun] at hfigures
    exact ⟨t', stats, before, after, rfl, haccounts, Option.some.inj (Except.ok.inj hfigures)⟩
  | .ok ⟨t', .error e⟩ | .error fault =>
    rw [hrun] at hfigures
    cases hfigures

end Tree

end FlatTemplate

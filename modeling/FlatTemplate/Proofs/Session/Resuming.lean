import FlatTemplate.Proofs.Parser.Parsed
import FlatTemplate.Proofs.Session.Canonicalizing
import FlatTemplate.Proofs.Template.Translating

/-!
Sessions under other names, and sessions that go on where another one has stopped.
-/

namespace FlatTemplate

theorem exists_perm_of_injOn {A : Set String} (hA : A.Finite) {g : String → String}
    (hg : Set.InjOn g A) : ∃ ρ : Equiv.Perm String, ∀ x ∈ A, ρ x = g x := by
  have : Infinite String := .of_injective (temporary "") fun _ _ => temporary_inj
  have hlt : Cardinal.mk A < Cardinal.mk String :=
    (Cardinal.lt_aleph0_iff_set_finite.mpr hA).trans_le (Cardinal.aleph0_le_mk String)
  obtain ⟨ρ, hρ⟩ := Cardinal.extend_function_of_lt
    ⟨fun x : A => g x, fun x y heq => Subtype.ext (hg x.2 y.2 heq)⟩ hlt ⟨.refl String⟩
  exact ⟨ρ, fun x hx => hρ ⟨x, hx⟩⟩

namespace Tree

variable {t t' : Tree} {b : Block Handle}

def SameButNames (t t' : Tree) : Prop :=
  ∃ (b : Block Handle) (ρ : Equiv.Perm String), t.read = .ok b ∧
    t'.read = .ok (blockRename ρ b) ∧ ρ rootVariable = rootVariable

theorem Holds.sameButNames {g : String → String} {A : String → Prop} (h : t.Holds b)
    (h' : t'.Holds (blockRename g b)) (hb : Governed (Pipe.Named A) b) (hA : A rootVariable)
    (hg : Set.InjOn g A) (hroot : g rootVariable = rootVariable) : t.SameButNames t' := by
  have hnames := governed_named.mp hb
  have hsubset : {x | x ∈ rootVariable :: (blockEntries b).flatMap Entry.names} ⊆ A := by
    intro x hx
    rcases List.mem_cons.mp hx with rfl | hx
    · exact hA
    · obtain ⟨e, he, hx⟩ := List.mem_flatMap.mp hx
      exact Entry.named_iff.mp (hnames e he) x hx
  obtain ⟨ρ, hρ⟩ := exists_perm_of_injOn (List.finite_toSet _) (hg.mono hsubset)
  refine ⟨b, ρ, h.read, ?_, (hρ _ List.mem_cons_self).trans hroot⟩
  rw [h'.read, blockRename_congr b fun e he => Entry.named_iff.mpr fun x hx =>
    (hρ x (List.mem_cons_of_mem _ (List.mem_flatMap.mpr ⟨e, he, hx⟩))).symm]

end Tree

namespace Session.Worked

variable {config : Config} {b : Block Handle} {bound : NodeKind → Nat} {s : Session}
  {finished : Bool} {rules rules' : List Rule} {d d' d'' : Draft} {A : String → Prop}
  {φ g : String → String} {stem : String} {m : Nat}

theorem finishes (w : s.Worked config b bound finished rules d d')
    (hmax : config.maxPasses = none) : finished = true := by
  by_contra hstopped
  obtain ⟨limit, hlimit, -⟩ := w.stopped (by simpa using hstopped)
  cases hmax.symm.trans hlimit

theorem summary_eq (w : s.Worked config b bound finished rules d d') :
    s.summary = { Stats.after { renamed := countNames (blockEntries b) } rules finished with
      temporaries := d'.taken } := by
  rw [summary, w.stats, ← congrArg Draft.taken w.left]
  rfl

theorem named (w : s.Worked config b bound finished rules d d') (hb : Governed (Pipe.Named A) b) :
    Governed (Pipe.Named (config.InUse A d'.taken)) d'.block := by
  refine w.trace.run.named ?_
  rw [w.start]
  exact (named_blockRename _ hb).imp fun p hp e he => (hp e he).mono fun x hx => .inl hx

theorem inStep (w : s.Worked config b bound finished rules d d')
    (hg : config.Translates A φ stem m g) (hb : Governed (Pipe.Named A) b)
    (htrace : Draft.Trace stem rules' ⟨blockRename φ b, m, bound⟩ d'') (hdone : d''.Done stem) :
    ∃ rest, rules' = rules ++ rest ∧ Draft.Trace stem rest (d'.rename g m) d'' := by
  have hstart : ⟨blockRename φ b, m, bound⟩ = d.rename g m := by
    rw [w.start, Draft.rename, hg.blockRename_respell hb, Nat.zero_add]
  obtain ⟨rest, _, hrules, hrest, rfl⟩ :=
    (Draft.inStep_rename hg.temporary).trace w.trace htrace hdone hstart
  exact ⟨rest, hrules, hrest⟩

theorem inStep_of_finished (w : s.Worked config b bound true rules d d')
    (hg : config.Translates A φ stem m g) (hb : Governed (Pipe.Named A) b)
    (htrace : Draft.Trace stem rules' ⟨blockRename φ b, m, bound⟩ d'') (hdone : d''.Done stem) :
    rules' = rules ∧ d'' = d'.rename g m := by
  obtain ⟨rest, rfl, hrest⟩ := w.inStep hg hb htrace hdone
  obtain ⟨rfl, hd⟩ := (Draft.done_rename.mpr (w.done rfl)).trace hrest
  exact ⟨List.append_nil _, hd⟩

end Session.Worked

namespace Tree

variable {t t' : Tree} {b : Block Handle} {config : Config} {s : Session} {finished : Bool}

theorem of_canonicalize (hvalid : config.validate = .ok ())
    (h : t.session config = .ok (s, finished)) {result : Except CanonError Stats}
    (hrun : t.canonicalize config = .ok ⟨t', result⟩) : s.tree = t' ∧ result.isOk = finished := by
  rw [canonicalize_of_session hvalid h] at hrun
  cases finished <;> cases hrun <;> exact ⟨rfl, rfl⟩

variable {c₁ c₂ c₃ : Config}

theorem Holds.canonicalize_sameButNames (h : t.Holds b) (hb : Governed (Pipe.Named IsVariable) b)
    (h₁ : c₁.validate = .ok ()) (h₂ : c₂.validate = .ok ()) (hmax₁ : c₁.maxPasses = none)
    (hmax₂ : c₂.maxPasses = none) :
    ∃ t₁ t₂ stats, t.canonicalize c₁ = .ok ⟨t₁, .ok stats⟩ ∧
      t.canonicalize c₂ = .ok ⟨t₂, .ok stats⟩ ∧ t₁.SameButNames t₂ := by
  obtain ⟨s₁, _, rules₁, d₁, d₁', hs₁, w₁⟩ := h.session c₁
  obtain ⟨s₂, _, rules₂, d₂, d₂', hs₂, w₂⟩ := h.session c₂
  obtain rfl := w₁.finishes hmax₁
  obtain rfl := w₂.finishes hmax₂
  obtain ⟨g, hg, hroot, hinj⟩ :=
    (Config.valid_of_validate h₁).exists_translates_respell (Config.valid_of_validate h₂)
  obtain ⟨rfl, rfl⟩ := w₁.inStep_of_finished hg hb (w₂.start ▸ w₂.trace) (w₂.done rfl)
  have hsummary : s₁.summary = s₂.summary := by
    rw [w₁.summary_eq, w₂.summary_eq]
    rfl
  refine ⟨s₁.tree, s₂.tree, s₂.summary, ?_, canonicalize_of_session h₂ hs₂, ?_⟩
  · rw [← hsummary]
    exact canonicalize_of_session h₁ hs₁
  · exact w₁.holds.sameButNames w₂.holds (w₁.named hb)
      (Config.inUse_root ⟨[], toList_rootVariable⟩ _) (hinj _) hroot

theorem Holds.canonicalize_resumed (h : t.Holds b) (hb : Governed (Pipe.Named IsVariable) b)
    (h₁ : c₁.validate = .ok ()) (h₂ : c₂.validate = .ok ()) (h₃ : c₃.validate = .ok ())
    (hmax₂ : c₂.maxPasses = none) (hmax₃ : c₃.maxPasses = none)
    (hs : t.session c₁ = .ok (s, finished)) :
    ∃ t₂ t₃ stats₂ stats₃, s.tree.canonicalize c₂ = .ok ⟨t₂, .ok stats₂⟩ ∧
      t.canonicalize c₃ = .ok ⟨t₃, .ok stats₃⟩ ∧ t₂.SameButNames t₃ ∧
      s.stats.rewrites + stats₂.rewrites = stats₃.rewrites := by
  have hc₃ := Config.valid_of_validate h₃
  obtain ⟨_, _, rules₁, d₁, d₁', hs₁, w₁⟩ := h.session c₁
  obtain ⟨rfl, rfl⟩ := Prod.mk.inj (Except.ok.inj (hs.symm.trans hs₁))
  obtain ⟨s₃, _, rules₃, d₃, d₃', hs₃, w₃⟩ := h.session c₃
  obtain rfl := w₃.finishes hmax₃
  -- The single session begins with what the first one does.
  obtain ⟨g, hg, hroot, hinj⟩ := (Config.valid_of_validate h₁).exists_translates_respell hc₃
  obtain ⟨rest, hrules, hrest⟩ := w₁.inStep hg hb (w₃.start ▸ w₃.trace) (w₃.done rfl)
  -- What it still does then is what the second one does.
  have hb₁ := w₁.named hb
  obtain ⟨s₂, _, rules₂, d₂, d₂', hs₂, w₂⟩ := w₁.holds.session c₂
  obtain rfl := w₂.finishes hmax₂
  rw [show s.tree.arenaSize = d₁'.bound from congrArg Draft.bound w₁.left] at w₂
  obtain ⟨g₂, hg₂, hroot₂, hinj₂⟩ :=
    hg.exists_onward hroot d₁'.taken (hinj _) (Config.valid_of_validate h₂) hc₃
  obtain ⟨rfl, rfl⟩ := w₂.inStep_of_finished hg₂ hb₁ hrest (w₃.done rfl)
  refine ⟨s₂.tree, s₃.tree, s₂.summary, s₃.summary, canonicalize_of_session h₂ hs₂,
    canonicalize_of_session h₃ hs₃, ?_, ?_⟩
  · exact w₂.holds.sameButNames w₃.holds (w₂.named hb₁)
      (Config.inUse_root (Config.inUse_root ⟨[], toList_rootVariable⟩ _) _) (hinj₂ _) hroot₂
  · simp [w₁.stats, w₂.summary_eq, w₃.summary_eq, hrules, Stats.after]

theorem Holds.canonicalize_again (h : t.Holds b) (h₂ : c₂.validate = .ok ())
    (hs : t.session c₁ = .ok (s, true)) :
    ∃ t₂ stats₂, s.tree.canonicalize c₂ = .ok ⟨t₂, .ok stats₂⟩ ∧ stats₂.rewrites = 0 ∧
      stats₂.passes = 1 := by
  obtain ⟨_, _, rules₁, d₁, d₁', hs₁, w₁⟩ := h.session c₁
  obtain ⟨rfl, rfl⟩ := Prod.mk.inj (Except.ok.inj (hs.symm.trans hs₁))
  obtain ⟨s₂, finished, rules₂, d₂, d₂', hs₂, w₂⟩ := w₁.holds.session c₂
  have hdone : d₂.Done c₂.tempStem := by
    rw [w₂.start, Draft.Done, ← blockRelabel_ofNames]
    exact (blockRewrite?_relabel_eq_none _).mpr (w₁.done rfl)
  obtain ⟨rfl, rfl⟩ := hdone.trace w₂.trace
  have hfinished : finished = true := by
    by_contra hstopped
    obtain ⟨limit, -, hlength⟩ := w₂.stopped (by simpa using hstopped)
    rw [List.length_nil] at hlength
    omega
  subst hfinished
  refine ⟨s₂.tree, s₂.summary, canonicalize_of_session h₂ hs₂, ?_, ?_⟩ <;>
    simp [w₂.summary_eq, Stats.after]

/-- The names that a configuration gives do not matter to what a session does. A session that is
stopped may be followed by another one, which does the rest, and one that is over by one that does
nothing. -/
theorem Parsed.canonicalize_resumable (ht : t.Parsed) :
    (∀ c₁ c₂ : Config, c₁.validate = .ok () → c₂.validate = .ok () → c₁.maxPasses = none →
      c₂.maxPasses = none → ∃ t₁ t₂ stats, t.canonicalize c₁ = .ok ⟨t₁, .ok stats⟩ ∧
        t.canonicalize c₂ = .ok ⟨t₂, .ok stats⟩ ∧ t₁.SameButNames t₂) ∧
    (∀ c₁ c₂ c₃ : Config, c₁.validate = .ok () → c₂.validate = .ok () → c₃.validate = .ok () →
      c₂.maxPasses = none → c₃.maxPasses = none → ∀ t₁ name limit,
      t.canonicalize c₁ = .ok ⟨t₁, .error (.passLimit name limit)⟩ →
      ∃ s t₂ t₃ stats₂ stats₃, t.session c₁ = .ok (s, false) ∧ s.tree = t₁ ∧
        t₁.canonicalize c₂ = .ok ⟨t₂, .ok stats₂⟩ ∧ t.canonicalize c₃ = .ok ⟨t₃, .ok stats₃⟩ ∧
        t₂.SameButNames t₃ ∧ s.stats.rewrites + stats₂.rewrites = stats₃.rewrites) ∧
    (∀ c₁ c₂ : Config, c₁.validate = .ok () → c₂.validate = .ok () → ∀ t₁ stats₁,
      t.canonicalize c₁ = .ok ⟨t₁, .ok stats₁⟩ →
      ∃ t₂ stats₂, t₁.canonicalize c₂ = .ok ⟨t₂, .ok stats₂⟩ ∧ stats₂.rewrites = 0 ∧
        stats₂.passes = 1) := by
  obtain ⟨b, hproper, h⟩ := ht.holds
  have hb := named_of_proper hproper
  refine ⟨fun c₁ c₂ h₁ h₂ hmax₁ hmax₂ => h.canonicalize_sameButNames hb h₁ h₂ hmax₁ hmax₂, ?_, ?_⟩
  · intro c₁ c₂ c₃ h₁ h₂ h₃ hmax₂ hmax₃ t₁ name limit hrun
    obtain ⟨s, finished, _, _, _, hs, -⟩ := h.session c₁
    obtain ⟨rfl, hfinished⟩ := of_canonicalize h₁ hs hrun
    obtain rfl : false = finished := hfinished
    obtain ⟨t₂, t₃, stats₂, stats₃, hresumed⟩ :=
      h.canonicalize_resumed hb h₁ h₂ h₃ hmax₂ hmax₃ hs
    exact ⟨s, t₂, t₃, stats₂, stats₃, hs, rfl, hresumed⟩
  · intro c₁ c₂ h₁ h₂ t₁ stats₁ hrun
    obtain ⟨s, finished, _, _, _, hs, -⟩ := h.session c₁
    obtain ⟨rfl, hfinished⟩ := of_canonicalize h₁ hs hrun
    obtain rfl : true = finished := hfinished
    exact h.canonicalize_again h₂ hs

def declaredCall : Tree :=
  let read (x : String) : Expr Untagged := .atom () (.var [x])
  .ofBlock "" [.action () (.mk () ["$x"] [.mk () (.atom () (.identifier "f"))
      [.paren () (.mk () [] [.mk () (.atom () (.identifier "g")) [.atom () (.field ["A"])]])]]),
    .action () (.mk () [] [.mk () (.atom () (.identifier "h")) [read "$x"]])]

theorem parse_declaredCall :
    Tree.parse (delimited "$x := f (g .A)" ++ delimited "h $x") = .ok declaredCall := by cbv

theorem validate_onePass : ({ maxPasses := some 1 } : Config).validate = .ok () := rfl

theorem canonicalize_declaredCall :
    (declaredCall.canonicalize { maxPasses := some 1 }).map Outcome.result =
        .ok (.error (.passLimit "" 1)) ∧
      (declaredCall.canonicalize {}).map (·.result.toOption.map Stats.rewrites) = .ok (some 3) := by
  constructor
  · rw [Tree.canonicalize, validate_onePass]
    cbv
  · rw [Tree.canonicalize, Config.validate_default]
    cbv

theorem canonicalize_resumable_declaredCall :
    ∃ t₁ t₂ stats, declaredCall.canonicalize {} = .ok ⟨t₁, .ok stats⟩ ∧ stats.rewrites = 3 ∧
      declaredCall.canonicalize { tempStem := "v", userTag := "u" } = .ok ⟨t₂, .ok stats⟩ ∧
      t₁.SameButNames t₂ ∧
      (∃ s t₃ stats₃, declaredCall.session { maxPasses := some 1 } = .ok (s, false) ∧
        s.tree.canonicalize { tempStem := "v", userTag := "u" } = .ok ⟨t₃, .ok stats₃⟩ ∧
        t₃.SameButNames t₁ ∧ s.stats.rewrites + stats₃.rewrites = 3) ∧
      ∃ t₄ stats₄, t₁.canonicalize { tempStem := "v", userTag := "u" } = .ok ⟨t₄, .ok stats₄⟩ ∧
        stats₄.rewrites = 0 ∧ stats₄.passes = 1 := by
  have hshort : ({ tempStem := "v", userTag := "u" } : Config).validate = .ok () := rfl
  obtain ⟨hnames, hresumed, hagain⟩ :=
    (parsed_of_parse parse_declaredCall).canonicalize_resumable
  obtain ⟨hlimit, hrewrites⟩ := canonicalize_declaredCall
  obtain ⟨t₁, t₂, stats, hrun₁, hrun₂, hsame⟩ := hnames _ _ Config.validate_default hshort rfl rfl
  have hthree : stats.rewrites = 3 := by
    rw [hrun₁] at hrewrites
    exact Option.some.inj (Except.ok.inj hrewrites)
  cases hrun : declaredCall.canonicalize { maxPasses := some 1 } with
  | error => rw [hrun] at hlimit; cases hlimit
  | ok outcome =>
    obtain ⟨left, result⟩ := outcome
    rw [hrun] at hlimit
    obtain rfl : result = .error (.passLimit "" 1) := Except.ok.inj hlimit
    obtain ⟨s, t₃, _, stats₃, _, hs, rfl, hrun₃, hrun₁', hsame₃, hsum⟩ :=
      hresumed _ _ _ validate_onePass hshort Config.validate_default rfl rfl _ _ _ hrun
    obtain ⟨rfl, hstats⟩ := Outcome.mk.inj (Except.ok.inj (hrun₁.symm.trans hrun₁'))
    obtain rfl := Except.ok.inj hstats
    exact ⟨t₁, t₂, stats, hrun₁, hthree, hrun₂, hsame,
      ⟨s, t₃, stats₃, hs, hrun₃, hsame₃, hsum.trans hthree⟩,
      hagain _ _ Config.validate_default hshort _ _ hrun₁⟩

end Tree

end FlatTemplate

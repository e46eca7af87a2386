import FlatTemplate.Proofs.Session.Safety

namespace FlatTemplate

namespace Session

inductive Rewrites (s : Session) : Nat → Session → Prop where
  | none : Rewrites s 0 s
  | pass {n s' s''} (h : Rewrites s n s') (hpass : s'.pass = .ok (s'', true)) :
      Rewrites s (n + 1) s''

inductive Loops (limit : Option Nat) : Session → Session → Bool → Prop where
  | done {s s'} (hpass : s.pass = .ok (s', false)) : Loops limit s s' true
  | stop {s s' m} (hpass : s.pass = .ok (s', true)) (hlimit : limit = some m)
      (hreached : m ≤ s'.stats.passes) : Loops limit s s' false
  | next {s s' s'' finished} (hpass : s.pass = .ok (s', true))
      (hlimit : ∀ m ∈ limit, s'.stats.passes < m) (h : Loops limit s' s'' finished) :
      Loops limit s s'' finished

variable {s s' s'' : Session} {limit : Option Nat} {m n : Nat} {finished rewrote : Bool}

theorem passes_of_pass (h : s.pass = .ok (s', rewrote)) :
    s'.stats.passes = s.stats.passes + 1 := by
  obtain ⟨plan, -, h⟩ := bind_eq_ok_iff.mp h
  cases plan with
  | none =>
    obtain ⟨rfl, -⟩ := Prod.mk.inj (Except.ok.inj h)
    rfl
  | some plan =>
    obtain ⟨s'', hrewrite, h⟩ := bind_eq_ok_iff.mp h
    obtain ⟨rfl, -⟩ := Prod.mk.inj (Except.ok.inj h)
    obtain ⟨changed, -, hrewrite⟩ := bind_eq_ok_iff.mp hrewrite
    obtain rfl := Except.ok.inj hrewrite
    rfl

theorem Rewrites.passes (h : s.Rewrites n s') : s'.stats.passes = s.stats.passes + n := by
  induction h with
  | none => rfl
  | pass _ hpass ih => rw [passes_of_pass hpass, ih, Nat.add_assoc]

theorem Rewrites.cons (hpass : s.pass = .ok (s', true)) (h : s'.Rewrites n s'') :
    s.Rewrites (n + 1) s'' := by
  induction h with
  | none => exact .pass .none hpass
  | pass _ hlast ih => exact .pass ih hlast

theorem Rewrites.split (h : s.Rewrites n s') (hle : m ≤ n) :
    ∃ s₁, s.Rewrites m s₁ ∧ s₁.Rewrites (n - m) s' := by
  induction h with
  | none =>
    obtain rfl := Nat.le_zero.mp hle
    exact ⟨s, .none, .none⟩
  | @pass n s₂ s₃ h hpass ih =>
    rcases Nat.le_succ_iff.mp hle with hle | rfl
    · obtain ⟨s₁, h₁, h₂⟩ := ih hle
      refine ⟨s₁, h₁, ?_⟩
      rw [Nat.succ_sub hle]
      exact .pass h₂ hpass
    · refine ⟨s₃, .pass h hpass, ?_⟩
      rw [Nat.sub_self]
      exact .none

theorem Loops.run_of_limit (h : Loops (some m) s s' finished) :
    s.run (max (m - s.stats.passes) 1) = .ok (s', finished) := by
  generalize hlimit : some m = limit at h
  induction h with
  | done hpass =>
    obtain ⟨k, hk⟩ := Nat.exists_eq_add_of_le' (Nat.le_max_right (m - _) 1)
    rw [hk, run, hpass]
    rfl
  | @stop s s' m' hpass hlimit' hreached =>
    obtain rfl := Option.some.inj (hlimit.trans hlimit')
    have hpasses := passes_of_pass hpass
    rw [Nat.max_eq_right (by omega), run, hpass]
    rfl
  | @next s s' s'' finished hpass hbelow h ih =>
    have hpasses := passes_of_pass hpass
    have hlt := hbelow m hlimit.symm
    have hmax : max (m - s.stats.passes) 1 = max (m - s'.stats.passes) 1 + 1 := by omega
    rw [hmax, run, hpass]
    exact ih

theorem Loops.of_run (h : Loops none s s' finished) (hrun : s.run n = .ok (s'', true)) :
    s' = s'' ∧ finished = true := by
  generalize hlimit : none = limit at h
  induction h generalizing n with
  | done hpass =>
    cases n with
    | zero => cases hrun
    | succ n =>
      rw [run, hpass] at hrun
      obtain ⟨rfl, -⟩ := Prod.mk.inj (Except.ok.inj hrun)
      exact ⟨rfl, rfl⟩
  | stop hpass hlimit' => cases hlimit.trans hlimit'
  | next hpass _ _ ih =>
    cases n with
    | zero => cases hrun
    | succ n =>
      rw [run, hpass] at hrun
      exact ih hrun

theorem exists_run_of_complete (h : s.complete limit = .ok (s', true)) :
    ∃ n, s.run n = .ok (s', true) := by
  cases limit with
  | some m => exact ⟨max m 1, h⟩
  | none =>
    obtain ⟨n, -, h⟩ := bind_eq_ok_iff.mp h
    obtain ⟨⟨s₁, finished⟩, hrun, h⟩ := bind_eq_ok_iff.mp h
    cases finished with
    | true => exact ⟨n, hrun.trans h⟩
    | false => cases h

theorem Loops.complete {b : Block Handle} (h : Loops limit s s' finished)
    (hstart : s.stats.passes = 0) (hb : s.tree.Holds b) :
    s.complete limit = .ok (s', finished) := by
  cases limit with
  | some m =>
    have hrun := h.run_of_limit
    rwa [hstart, Nat.sub_zero] at hrun
  | none =>
    obtain ⟨s'', finished', _, _, _, hcomplete, -, -, hfinished⟩ := complete_of_holds hb none
    obtain rfl := hfinished rfl
    obtain ⟨n, hrun⟩ := exists_run_of_complete hcomplete
    obtain ⟨rfl, rfl⟩ := h.of_run hrun
    exact hcomplete

theorem exists_rewrites_of_run (h : s.run n = .ok (s', true)) :
    ∃ k s₁, s.Rewrites k s₁ ∧ s₁.pass = .ok (s', false) := by
  induction n generalizing s with
  | zero => cases h
  | succ n ih =>
    obtain ⟨⟨s₁, rewrote⟩, hpass, h⟩ := bind_eq_ok_iff.mp h
    cases rewrote with
    | false =>
      obtain ⟨rfl, -⟩ := Prod.mk.inj (Except.ok.inj h)
      exact ⟨0, s, .none, hpass⟩
    | true =>
      obtain ⟨k, s₂, hrewrites, hlast⟩ := ih h
      exact ⟨k + 1, s₂, hrewrites.cons hpass, hlast⟩

theorem Loops.of_rewrites (h : s.Rewrites n s') (hlimit : ∀ m ∈ limit, s'.stats.passes < m ∨ n = 0)
    (hloops : Loops limit s' s'' finished) : Loops limit s s'' finished := by
  induction h with
  | none => exact hloops
  | @pass n s₁ s₂ h hpass ih =>
    have hbelow : ∀ m ∈ limit, s₂.stats.passes < m := fun m hm =>
      (hlimit m hm).resolve_right (Nat.succ_ne_zero n)
    refine ih (fun m hm => .inl ?_) (.next hpass hbelow hloops)
    have := hbelow m hm
    have := passes_of_pass hpass
    omega

end Session

namespace Tree

variable {t : Tree}

theorem canonicalize_of_loops (config : Config) (hvalid : config.validate = .ok ())
    {b : Block Handle} {s s' : Session} {finished : Bool}
    (hstart : Session.start config t = .ok s) (hzero : s.stats.passes = 0) (hb : s.tree.Holds b)
    (h : Session.Loops config.maxPasses s s' finished) :
    t.canonicalize config = .ok ⟨s'.tree, if finished then .ok s'.summary
      else .error (.passLimit t.name (config.maxPasses.getD 0))⟩ := by
  refine canonicalize_of_session hvalid ?_
  rw [Tree.session, hstart]
  exact h.complete hzero hb

theorem canonicalize_of_invalid {config : Config} {e : CanonError}
    (h : config.validate = .error e) (t : Tree) : t.canonicalize config = .ok ⟨t, .error e⟩ := by
  rw [Tree.canonicalize, h]
  rfl

end Tree

theorem TemplateSet.canonicalize_of_invalid {config : Config} {e : CanonError}
    (h : config.validate = .error e) (set : TemplateSet) :
    set.canonicalize config = .ok (set, .error e) := by
  let refused : List Outcome := set.defined.map fun t => ⟨t, .error e⟩
  have htrees : refused.map Outcome.tree = set.defined := by
    simp [refused, Function.comp_def]
  have hdefined : set.defined.mapM (·.canonicalize config) = .ok refused := by
    rw [← htrees]
    refine mapM_map_eq_ok fun outcome houtcome => ?_
    obtain ⟨t, -, rfl⟩ := List.mem_map.mp houtcome
    exact Tree.canonicalize_of_invalid h t
  rw [TemplateSet.canonicalize, Tree.canonicalize_of_invalid h, ok_bind, hdefined, ok_bind, htrees,
    List.mapM_cons, error_bind]
  rfl

/-- Without a limit, a session makes `n` rewrites, one in each pass, and then a pass that finds
nothing. With a limit that leaves it as many passes it does the same; with a lower one it stops
behind the pass that reaches it, which is the first one if the limit is zero. A configuration that
is refused changes nothing. -/
theorem Tree.canonicalize_limited {t : Tree} (ht : t.SinglyOwned) :
    (∀ config : Config, config.validate = .ok () → ∃ s₀ n s₁ s,
      Session.start config t = .ok s₀ ∧ s₀.Rewrites n s₁ ∧ s₁.pass = .ok (s, false) ∧
      s.summary.passes = n + 1 ∧
      t.canonicalize { config with maxPasses := none } = .ok ⟨s.tree, .ok s.summary⟩ ∧
      ∀ limit,
        (n + 1 ≤ max limit 1 → t.canonicalize { config with maxPasses := some limit } =
          .ok ⟨s.tree, .ok s.summary⟩) ∧
        (max limit 1 < n + 1 → ∃ s', s₀.Rewrites (max limit 1) s' ∧
          s'.Rewrites (n - max limit 1) s₁ ∧
          t.canonicalize { config with maxPasses := some limit } =
            .ok ⟨s'.tree, .error (.passLimit t.name limit)⟩)) ∧
    ∀ (config : Config) (e : CanonError), config.validate = .error e →
      t.canonicalize config = .ok ⟨t, .error e⟩ ∧
        ∀ set : TemplateSet, set.canonicalize config = .ok (set, .error e) := by
  refine ⟨fun config hvalid => ?_, fun config e h =>
    ⟨Tree.canonicalize_of_invalid h t, TemplateSet.canonicalize_of_invalid h⟩⟩
  obtain ⟨b, hb⟩ := ht.exists_holds
  obtain ⟨s₀, hstart, h₀, -, hstats, -⟩ := hb.start config
  have hzero : s₀.stats.passes = 0 := by rw [hstats]
  obtain ⟨s, finished, _, _, _, hcomplete, -, -, hfinished⟩ := Session.complete_of_holds h₀ none
  obtain rfl := hfinished rfl
  obtain ⟨_, hrun⟩ := Session.exists_run_of_complete hcomplete
  obtain ⟨n, s₁, hrewrites, hlast⟩ := Session.exists_rewrites_of_run hrun
  have hpasses : s₁.stats.passes = n := by rw [hrewrites.passes, hzero, Nat.zero_add]
  refine ⟨s₀, n, s₁, s, hstart, hrewrites, hlast, ?_, ?_, fun limit => ⟨fun hle => ?_,
    fun hlt => ?_⟩⟩
  · exact (Session.passes_of_pass hlast).trans (congrArg Nat.succ hpasses)
  · exact canonicalize_of_loops { config with maxPasses := none } hvalid hstart hzero h₀
      (.of_rewrites hrewrites nofun (.done hlast))
  · refine canonicalize_of_loops { config with maxPasses := some limit } hvalid hstart
      hzero h₀ (.of_rewrites hrewrites (fun m hm => ?_) (.done hlast))
    obtain rfl := Option.some.inj hm
    omega
  · obtain ⟨s', hreached, hrest⟩ := hrewrites.split (Nat.le_of_lt_succ hlt)
    refine ⟨s', hreached, hrest, ?_⟩
    obtain ⟨k, hk⟩ := Nat.exists_eq_add_of_le' (Nat.le_max_right limit 1)
    rw [hk] at hreached
    cases hreached with
    | pass hbefore hpass =>
      have hbehind := hbefore.passes
      have hreached := Session.passes_of_pass hpass
      refine canonicalize_of_loops { config with maxPasses := some limit } hvalid hstart hzero h₀
        (.of_rewrites hbefore (fun m hm => ?_) (.stop hpass rfl (by omega)))
      obtain rfl := Option.some.inj hm
      omega

def passedText : Tree :=
  let text : Command Untagged := .mk () (.atom () (.str "son")) []
  .ofBlock "" [.action () (.mk () [] [text,
    .mk () (.atom () (.identifier "split")) [.atom () (.str "wat")]])]

theorem parse_passedText :
    Tree.parse (delimited "\"son\" | split \"wat\"") = .ok passedText := by
  cbv

theorem canonicalize_passedText :
    (passedText.canonicalize {}).map (·.result.toOption.map Stats.passes) = .ok (some 3) := by
  rw [Tree.canonicalize, Config.validate_default]
  cbv

def overlapping : Config := { tempStem := "x", userTag := "x" }

theorem canonicalize_limited_passedText :
    (∃ s₀ s s₁ s₂ : Session, Session.start {} passedText = .ok s₀ ∧
      passedText.canonicalize {} = .ok ⟨s.tree, .ok s.summary⟩ ∧
      passedText.canonicalize { maxPasses := some 3 } = .ok ⟨s.tree, .ok s.summary⟩ ∧
      s₀.Rewrites 2 s₂ ∧ passedText.canonicalize { maxPasses := some 2 } =
        .ok ⟨s₂.tree, .error (.passLimit "" 2)⟩ ∧
      s₀.Rewrites 1 s₁ ∧ passedText.canonicalize { maxPasses := some 0 } =
        .ok ⟨s₁.tree, .error (.passLimit "" 0)⟩) ∧
    passedText.canonicalize overlapping = .ok ⟨passedText, .error (.overlap "x" "x")⟩ := by
  obtain ⟨hlimited, hrefused⟩ :=
    Tree.canonicalize_limited (Tree.parsed_of_parse parse_passedText).singlyOwned
  refine ⟨?_, (hrefused overlapping _ rfl).1⟩
  obtain ⟨s₀, n, s₁, s, hstart, -, -, hpasses, hrun, hlimit⟩ := hlimited {} Config.validate_default
  obtain rfl : n = 2 := by
    have hcount := canonicalize_passedText
    rw [hrun] at hcount
    have hthree := Option.some.inj (Except.ok.inj hcount)
    omega
  obtain ⟨s₂, htwo, -, hstopped₂⟩ := (hlimit 2).2 (by decide)
  obtain ⟨s₁, hone, -, hstopped₁⟩ := (hlimit 0).2 (by decide)
  exact ⟨s₀, s, s₁, s₂, hstart, hrun, (hlimit 3).1 (by decide), htwo, hstopped₂, hone, hstopped₁⟩

end FlatTemplate

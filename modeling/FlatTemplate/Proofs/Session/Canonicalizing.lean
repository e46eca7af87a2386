import FlatTemplate.Proofs.Session.Running
import FlatTemplate.Proofs.Termination.Lowering
import FlatTemplate.Proofs.Tree.Respelling

namespace FlatTemplate

theorem weight_lt_passBound (b : Block Handle) :
    blockWeight b < 3 * (blockSize b + 1) * (blockSize b + 1) := by
  have hle := blockWeight_le b
  have hcount := countKind_add_le (blockEntries b)
  rw [length_blockEntries] at hcount
  have hsquare : 3 * (blockSize b + 1) * 1 ≤ 3 * (blockSize b + 1) * (blockSize b + 1) :=
    Nat.mul_le_mul_left _ (by omega)
  omega

namespace Session

variable {s : Session} {b : Block Handle}

theorem complete_of_holds (h : s.tree.Holds b) (limit : Option Nat) :
    ∃ s' finished passes rules b', s.complete limit = .ok (s', finished) ∧
      Ran s b passes s' finished rules b' ∧ (∀ m, limit = some m → passes = max m 1) ∧
      (limit = none → finished = true) := by
  cases limit with
  | some m =>
    obtain ⟨s', finished, rules, b', hrun, ran⟩ := run_of_holds (max m 1) h
    exact ⟨s', finished, _, rules, b', hrun, ran, by simp, by simp⟩
  | none =>
    have hbound : s.passBound = .ok (3 * (blockSize b + 1) * (blockSize b + 1)) := by
      rw [passBound, h.read]
      rfl
    obtain ⟨s', finished, rules, b', hrun, ran⟩ :=
      run_of_holds (3 * (blockSize b + 1) * (blockSize b + 1)) h
    have hfinished : finished = true := by
      by_contra hstopped
      have hn := ran.stopped (by simpa using hstopped)
      have hle := ran.trace.run.length_le
      have hlt := weight_lt_passBound b
      simp only [draft] at hle
      omega
    refine ⟨s', finished, _, rules, b', ?_, ran, by simp, fun _ => hfinished⟩
    simp [complete, hbound, hrun, hfinished]

end Session

theorem Config.validate_default : ({} : Config).validate = .ok () := rfl

structure Session.Worked (config : Config) (b : Block Handle) (bound : NodeKind → Nat)
    (s : Session) (finished : Bool) (rules : List Rule) (d d' : Draft) : Prop where
  start : d = ⟨blockRename (respell config.userTag) b, 0, bound⟩
  trace : Draft.Trace config.tempStem rules d d'
  holds : s.tree.Holds d'.block
  left : s.draft d'.block = d'
  stats : s.stats = Stats.after { renamed := countNames (blockEntries b) } rules finished
  done : finished = true → blockRewrite? (d'.fresh config.tempStem) d'.block = none
  stopped : finished = false → ∃ limit, config.maxPasses = some limit ∧ rules.length = max limit 1

structure Canonicalized (config : Config) (b : Block Handle) (bound : NodeKind → Nat)
    (outcome : Outcome) (n : Nat) (d d' : Draft) : Prop where
  block : d.block = blockRename (respell config.userTag) b
  taken : d.taken = 0
  bound : ∀ kind, bound kind ≤ d.bound kind
  run : Draft.Run config.tempStem n d d'
  holds : outcome.tree.Holds d'.block
  ends : (∃ stats, outcome.result = .ok stats ∧ stats.passes = n + 1 ∧
      blockRewrite? (d'.fresh config.tempStem) d'.block = none) ∨
    ∃ limit name, config.maxPasses = some limit ∧ n = max limit 1 ∧
      outcome.result = .error (.passLimit name limit)
  temporaries : ∀ stats, outcome.result = .ok stats → stats.temporaries = d'.taken

theorem Canonicalized.succeeds {config : Config} {b : Block Handle} {bound : NodeKind → Nat}
    {outcome : Outcome} {n : Nat} {d d' : Draft} (h : Canonicalized config b bound outcome n d d')
    (hmax : config.maxPasses = none) : ∃ stats, outcome.result = .ok stats := by
  rcases h.ends with ⟨stats, hresult, -⟩ | ⟨limit, _, hlimit, -⟩
  · exact ⟨stats, hresult⟩
  · cases hmax.symm.trans hlimit

namespace Tree

variable {t : Tree} {b : Block Handle}

def session (config : Config) (t : Tree) : Except Fault (Session × Bool) := do
  (← Session.start config t).complete config.maxPasses

theorem Holds.start (h : t.Holds b) (config : Config) : ∃ s, Session.start config t = .ok s ∧
    s.tree.Holds (blockRename (respell config.userTag) b) ∧ s.names = ⟨config.tempStem, 0⟩ ∧
    s.stats = { renamed := countNames (blockEntries b) } ∧ s.tree.arenaSize = t.arenaSize := by
  obtain ⟨t₀, hrespell, h₀, hsize⟩ := h.respellVariables config.userTag
  refine ⟨⟨t₀, ⟨config.tempStem, 0⟩, { renamed := countNames (blockEntries b) }⟩, ?_, h₀, rfl, rfl,
    funext hsize⟩
  rw [Session.start, hrespell]
  rfl

theorem Holds.session (h : t.Holds b) (config : Config) :
    ∃ s finished rules d d', t.session config = .ok (s, finished) ∧
      s.Worked config b t.arenaSize finished rules d d' := by
  obtain ⟨s₀, hstart, h₀, hnames, hstats, hsize⟩ := h.start config
  obtain ⟨s, finished, passes, rules, b', hcomplete, ran, hlimit, hnone⟩ :=
    Session.complete_of_holds h₀ config.maxPasses
  have htrace := ran.trace
  have hdone := ran.done
  rw [← Session.draft_fresh, ran.stem] at hdone
  rw [hnames] at htrace hdone
  refine ⟨s, finished, rules, _, _, ?_, ?_, htrace, ran.holds, rfl, hstats ▸ ran.stats,
    fun hfinished => (hdone hfinished).1, fun hstopped => ?_⟩
  · rw [Tree.session, hstart]
    exact hcomplete
  · rw [Session.draft, hnames, hsize]
  · cases hmax : config.maxPasses with
    | none => cases (hnone hmax).symm.trans hstopped
    | some limit => exact ⟨limit, rfl, (ran.stopped hstopped).trans (hlimit limit hmax)⟩

theorem canonicalize_of_session {config : Config} (hvalid : config.validate = .ok ())
    {s : Session} {finished : Bool} (h : t.session config = .ok (s, finished)) :
    t.canonicalize config = .ok ⟨s.tree, if finished then .ok s.summary
      else .error (.passLimit t.name (config.maxPasses.getD 0))⟩ := by
  rw [Tree.canonicalize, hvalid]
  obtain ⟨s₀, hstart, hcomplete⟩ := bind_eq_ok_iff.mp h
  simp only [hstart, ok_bind, hcomplete]
  cases finished <;> rfl

theorem Holds.canonicalize (h : t.Holds b) {config : Config} (hvalid : config.validate = .ok ()) :
    ∃ outcome n d d', t.canonicalize config = .ok outcome ∧
      Canonicalized config b t.arenaSize outcome n d d' := by
  obtain ⟨s, finished, rules, d, d', hsession, worked⟩ := h.session config
  have hrun := canonicalize_of_session hvalid hsession
  have hstart := worked.start
  refine ⟨_, rules.length, d, d', hrun, by rw [hstart], by rw [hstart], by simp [hstart],
    worked.trace.run, worked.holds, ?_, ?_⟩
  · cases finished with
    | true =>
      refine .inl ⟨s.summary, rfl, ?_, worked.done rfl⟩
      simp [Session.summary, worked.stats, Stats.after]
    | false =>
      obtain ⟨limit, hmax, hlength⟩ := worked.stopped rfl
      exact .inr ⟨limit, t.name, hmax, hlength, by rw [hmax]; rfl⟩
  · intro stats hstats
    cases finished with
    | true =>
      obtain rfl := Except.ok.inj hstats
      exact congrArg Draft.taken worked.left
    | false => cases hstats

end Tree

end FlatTemplate

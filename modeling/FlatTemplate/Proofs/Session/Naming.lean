import FlatTemplate.Proofs.Session.Resuming
import FlatTemplate.Proofs.Session.Safety

namespace FlatTemplate

/-- Where a name comes from. A name of the template stands without its dollar sign. -/
inductive Origin where
  | root
  | user (bare : String)
  | temporary (number : Nat)
  deriving DecidableEq, Repr

namespace Origin

def spelling (config : Config) : Origin → String
  | .root => rootVariable
  | .user bare => "$" ++ config.userTag ++ bare
  | .temporary k => FlatTemplate.temporary config.tempStem k

variable {config : Config}

theorem toList_spelling_user (config : Config) (bare : String) :
    ((user bare).spelling config).toList = '$' :: (config.userTag.toList ++ bare.toList) := by
  simp [spelling]

theorem spelling_user_of_respell {bare : String} (hbare : bare ≠ "") :
    respell config.userTag ("$" ++ bare) = (user bare).spelling config :=
  respell_variable _ hbare

end Origin

namespace Config.Valid

open Origin

variable {config : Config} (h : config.Valid)
include h

theorem spelling_user_ne_root (bare : String) : (user bare).spelling config ≠ rootVariable := by
  intro heq
  have hlist := toList_spelling_user config bare
  rw [heq, toList_rootVariable, List.cons_inj_right, eq_comm, List.append_eq_nil_iff] at hlist
  exact h.tag hlist.1

theorem temporary_ne_root (k : Nat) : FlatTemplate.temporary config.tempStem k ≠ rootVariable := by
  intro heq
  have hlist := toList_temporary config.tempStem k
  rw [heq, toList_rootVariable, List.cons_inj_right, eq_comm, List.append_eq_nil_iff] at hlist
  exact h.stem hlist.1

theorem not_prefix_user (bare : List Char) :
    ¬config.tempStem.toList <+: config.userTag.toList ++ bare := by
  intro hstem
  have htag : config.userTag.toList <+: config.userTag.toList ++ bare := List.prefix_append ..
  exact (List.prefix_or_prefix_of_prefix htag hstem).elim h.apart.1 h.apart.2

theorem spelling_user_ne_temporary (bare : String) (k : Nat) :
    (user bare).spelling config ≠ FlatTemplate.temporary config.tempStem k := by
  intro heq
  refine h.not_prefix_user bare.toList ?_
  have hlist := toList_spelling_user config bare
  rw [heq, toList_temporary, List.cons_inj_right] at hlist
  exact ⟨_, hlist⟩

theorem spelling_injective : Function.Injective (Origin.spelling config) := by
  intro o o' heq
  match o, o' with
  | .root, .root => rfl
  | .user x, .user y =>
    have hlist := congrArg String.toList heq
    rw [toList_spelling_user, toList_spelling_user, List.cons_inj_right,
      List.append_cancel_left_eq, String.toList_inj] at hlist
    rw [hlist]
  | .temporary j, .temporary k => rw [temporary_inj heq]
  | .user x, .root => exact absurd heq (h.spelling_user_ne_root x)
  | .root, .user y => exact absurd heq.symm (h.spelling_user_ne_root y)
  | .temporary j, .root => exact absurd heq (h.temporary_ne_root j)
  | .root, .temporary k => exact absurd heq.symm (h.temporary_ne_root k)
  | .user x, .temporary k => exact absurd heq (h.spelling_user_ne_temporary x k)
  | .temporary j, .user y => exact absurd heq.symm (h.spelling_user_ne_temporary y j)

theorem isTemporary_spelling (o : Origin) :
    isTemporary config.tempStem (o.spelling config) = true ↔ ∃ k, o = .temporary k := by
  match o with
  | .temporary k => simp [Origin.spelling, isTemporary_temporary]
  | .root => simp [Origin.spelling, isTemporary, toList_rootVariable, List.isPrefixOf?, h.stem]
  | .user bare =>
    simp only [isTemporary, toList_spelling_user, reduceCtorEq, exists_false, iff_false]
    split
    · next digits hdigits =>
      exact absurd ⟨digits, List.isPrefixOf?_eq_some_iff_append_eq.mp hdigits⟩
        (h.not_prefix_user bare.toList)
    · exact Bool.false_ne_true

end Config.Valid

namespace Session

variable {s s' s'' : Session} {b : Block Handle}

theorem Passes.cons {rewrote : Bool} (hpass : s.pass = .ok (s', rewrote)) (h : s'.Passes s'') :
    s.Passes s'' := by
  induction h with
  | none => exact .pass .none hpass
  | pass _ hpass' ih => exact .pass ih hpass'

theorem passes_of_run {limit : Nat} {finished : Bool} (h : s.run limit = .ok (s', finished)) :
    s.Passes s' := by
  induction limit generalizing s with
  | zero =>
    obtain ⟨rfl, -⟩ := Prod.mk.inj (Except.ok.inj h)
    exact .none
  | succ limit ih =>
    obtain ⟨⟨s₁, rewrote⟩, hpass, h⟩ := bind_eq_ok_iff.mp h
    cases rewrote with
    | true => exact .cons hpass (ih h)
    | false =>
      obtain ⟨rfl, -⟩ := Prod.mk.inj (Except.ok.inj h)
      exact .pass .none hpass

theorem passes_of_complete {limit : Option Nat} {finished : Bool}
    (h : s.complete limit = .ok (s', finished)) : s.Passes s' := by
  unfold complete at h
  split at h
  · exact passes_of_run h
  · obtain ⟨bound, -, h⟩ := bind_eq_ok_iff.mp h
    obtain ⟨⟨s₁, ended⟩, hrun, h⟩ := bind_eq_ok_iff.mp h
    cases ended with
    | true =>
      obtain ⟨rfl, -⟩ := Prod.mk.inj (Except.ok.inj h)
      exact passes_of_run hrun
    | false => cases h

theorem Passes.run (hs : s.Passes s') (h : s.tree.Holds b) : ∃ n b', s'.tree.Holds b' ∧
    s'.names.stem = s.names.stem ∧ Draft.Run s.names.stem n (s.draft b) (s'.draft b') := by
  induction hs with
  | none => exact ⟨0, b, h, rfl, .refl (valid_draft h)⟩
  | @pass s₁ s₂ rewrote _ hpass ih =>
    obtain ⟨n, b₁, h₁, hstem, hrun⟩ := ih
    cases hr : blockRewrite? (s₁.tree.fresh s₁.names.next) b₁ with
    | none =>
      have hnone := pass_of_none h₁ hr
      obtain ⟨rfl, -⟩ := Prod.mk.inj (Except.ok.inj (hpass.symm.trans hnone))
      exact ⟨n, b₁, h₁, hstem, hrun⟩
    | some r =>
      obtain ⟨s₂', hsome, h₂, hstem', -, hnext⟩ := pass_of_some h₁ hr
      obtain ⟨rfl, -⟩ := Prod.mk.inj (Except.ok.inj (hpass.symm.trans hsome))
      rw [hstem] at hstem' hnext
      exact ⟨n + 1, r.block, h₂, hstem', hrun.concat hnext⟩

end Session

namespace Tree

def Uses (t : Tree) (name : String) : Prop := ∃ e, t.Reachable e ∧ name ∈ e.names

def Admits (t : Tree) (taken : Nat) : Origin → Prop
  | .root => True
  | .user bare => bare ≠ "" ∧ t.Uses ("$" ++ bare)
  | .temporary k => k < taken

variable {t : Tree} {b : Block Handle} {config : Config} {name : String}

theorem Holds.uses_iff (h : t.Holds b) : t.Uses name ↔ ∃ e ∈ blockEntries b, name ∈ e.names := by
  simp only [Uses, h.reachable_iff]

theorem Holds.named (h : t.Holds b) (hb : Governed (Pipe.Named IsVariable) b) :
    Governed (Pipe.Named fun name => t.Uses name ∧ IsVariable name) b := by
  rw [governed_named] at hb ⊢
  intro e he
  have hvariable := Entry.named_iff.mp (hb e he)
  exact Entry.named_iff.mpr fun name hname =>
    ⟨h.uses_iff.mpr ⟨e, he, hname⟩, hvariable name hname⟩

theorem exists_origin {taken : Nat} (h : config.InUse (fun x => t.Uses x ∧ IsVariable x) taken name) :
    ∃ o, t.Admits taken o ∧ o.spelling config = name := by
  rcases h with ⟨x, ⟨huses, cs, hcs⟩, rfl⟩ | ⟨k, hk, rfl⟩
  · by_cases hroot : x = rootVariable
    · exact ⟨.root, trivial, by rw [hroot, respell_root, Origin.spelling]⟩
    · obtain rfl : x = "$" ++ String.ofList cs := by
        rw [← String.toList_inj, hcs]
        simp
      have hbare : String.ofList cs ≠ "" := by
        rintro hnil
        exact hroot (by rw [hnil]; rfl)
      exact ⟨.user (String.ofList cs), ⟨hbare, huses⟩, (Origin.spelling_user_of_respell hbare).symm⟩
  · exact ⟨.temporary k, hk, rfl⟩

theorem Holds.passes_named {A : String → Prop} (h : t.Holds b) (hb : Governed (Pipe.Named A) b)
    (config : Config) : ∃ s₀, Session.start config t = .ok s₀ ∧ ∀ s, s₀.Passes s →
      ∃ b', s.tree.Holds b' ∧ Governed (Pipe.Named (config.InUse A s.names.taken)) b' := by
  obtain ⟨s₀, hstart, h₀, hnames, -⟩ := h.start config
  refine ⟨s₀, hstart, fun s hs => ?_⟩
  obtain ⟨n, b', hb', -, hrun⟩ := hs.run h₀
  rw [hnames] at hrun
  have hstart := named_blockRename (respell config.userTag) hb
  have hnamed := hrun.named (hstart.imp fun _ hp e he => (hp e he).mono fun _ hx => Or.inl hx)
  exact ⟨b', hb', hnamed⟩

theorem Holds.exists_outcome (h : t.Holds b) (hvalid : config.validate = .ok ()) {s₀ : Session}
    (hstart : Session.start config t = .ok s₀) : ∃ outcome s, t.canonicalize config = .ok outcome ∧
      s₀.Passes s ∧ outcome.tree = s.tree ∧
        ∀ stats, outcome.result = .ok stats → stats.temporaries = s.names.taken := by
  obtain ⟨s, finished, rules, d, d', hsession, worked⟩ := h.session config
  obtain ⟨s₁, hstart', hcomplete⟩ := bind_eq_ok_iff.mp hsession
  obtain rfl := Except.ok.inj (hstart.symm.trans hstart')
  refine ⟨_, s, canonicalize_of_session hvalid hsession, Session.passes_of_complete hcomplete, rfl,
    fun stats hstats => ?_⟩
  cases finished with
  | true =>
    obtain rfl := Except.ok.inj hstats
    rfl
  | false => cases hstats

/-- In all that a session on the tree goes through, a name has one origin, and temporaries are told
by their spelling. -/
theorem Parsed.session_names (ht : t.Parsed) (hvalid : config.validate = .ok ()) :
    Function.Injective (Origin.spelling config) ∧
    ∃ s₀, Session.start config t = .ok s₀ ∧
      (∀ s, s₀.Passes s → ∀ name, s.tree.Uses name →
        (∃! o, t.Admits s.names.taken o ∧ o.spelling config = name) ∧
        (isTemporary config.tempStem name = true ↔
          ∃ k < s.names.taken, temporary config.tempStem k = name)) ∧
      ∃ outcome s, t.canonicalize config = .ok outcome ∧ s₀.Passes s ∧ outcome.tree = s.tree ∧
        ∀ stats, outcome.result = .ok stats → stats.temporaries = s.names.taken := by
  have hconfig := Config.valid_of_validate hvalid
  have hinj := hconfig.spelling_injective
  obtain ⟨b, hproper, hb⟩ := ht.holds
  obtain ⟨s₀, hstart, hpasses⟩ := hb.passes_named (hb.named (named_of_proper hproper)) config
  refine ⟨hinj, s₀, hstart, fun s hs name huses => ?_, hb.exists_outcome hvalid hstart⟩
  obtain ⟨b', hb', hnamed⟩ := hpasses s hs
  obtain ⟨e, he, hname⟩ := hb'.uses_iff.mp huses
  obtain ⟨o, ho, rfl⟩ :=
    exists_origin (Entry.named_iff.mp (governed_named.mp hnamed e he) name hname)
  refine ⟨⟨o, ⟨ho, rfl⟩, fun o' ho' => hinj ho'.2⟩, ?_⟩
  rw [hconfig.isTemporary_spelling]
  constructor
  · rintro ⟨k, rfl⟩
    exact ⟨k, ho, rfl⟩
  · rintro ⟨k, -, hk⟩
    exact ⟨k, (hinj (show (Origin.temporary k).spelling config = _ from hk)).symm⟩

def digitNames : Config := { tempStem := "1", userTag := "21", maxPasses := some 1 }

theorem session_names_declaredCall : digitNames.validate = .ok () ∧
    ∃ s₀, Session.start digitNames declaredCall = .ok s₀ ∧ ∀ s, s₀.Passes s → ∀ name,
      s.tree.Uses name →
        ∃! o, declaredCall.Admits s.names.taken o ∧ o.spelling digitNames = name := by
  have hvalid : digitNames.validate = .ok () := rfl
  obtain ⟨-, s₀, hstart, hnames, -⟩ := (parsed_of_parse parse_declaredCall).session_names hvalid
  exact ⟨hvalid, s₀, hstart, fun s hs name huses => (hnames s hs name huses).1⟩

end Tree

end FlatTemplate

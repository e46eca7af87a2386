import FlatTemplate.Proofs.Template.Hygiene
import FlatTemplate.Proofs.Template.Lockstep
import Mathlib.SetTheory.Cardinal.Arithmetic

namespace FlatTemplate

section Congr

variable {g h : String → String}

theorem Atom.rename_congr {id : ExprId} {a : Atom}
    (ha : (Entry.expr id (.atom a)).Named fun x => g x = h x) : a.rename g = a.rename h := by
  match a with
  | .var (first :: path) => rw [rename, rename, ha first rfl]
  | .var [] | .field _ | .dot | .identifier _ | .str _ | .number _ | .bool _ => rfl

mutual

theorem Expr.rename_congr (e : Expr Handle) (he : ∀ x ∈ e.entries, x.Named fun x => g x = h x) :
    e.rename g = e.rename h := by
  cases e with
  | atom id a => rw [Expr.rename, Expr.rename, Atom.rename_congr (he _ (List.mem_singleton_self _))]
  | paren id inner =>
    rw [Expr.rename, Expr.rename, inner.rename_congr fun x hx => he x (List.mem_cons_of_mem _ hx)]

theorem argRename_congr (es : List (Expr Handle))
    (hes : ∀ x ∈ argEntries es, x.Named fun x => g x = h x) : argRename g es = argRename h es := by
  cases es with
  | nil => rfl
  | cons e es =>
    rw [argEntries, List.forall_mem_append] at hes
    rw [argRename, argRename, e.rename_congr hes.1, argRename_congr es hes.2]

theorem Command.rename_congr (c : Command Handle)
    (hc : ∀ x ∈ c.entries, x.Named fun x => g x = h x) : c.rename g = c.rename h := by
  obtain ⟨id, head, args⟩ := c
  rw [Command.entries, List.forall_mem_cons, List.forall_mem_append] at hc
  rw [Command.rename, Command.rename, head.rename_congr hc.2.1, argRename_congr args hc.2.2]

theorem commandRename_congr (cs : List (Command Handle))
    (hcs : ∀ x ∈ commandEntries cs, x.Named fun x => g x = h x) :
    commandRename g cs = commandRename h cs := by
  cases cs with
  | nil => rfl
  | cons c cs =>
    rw [commandEntries, List.forall_mem_append] at hcs
    rw [commandRename, commandRename, c.rename_congr hcs.1, commandRename_congr cs hcs.2]

theorem Pipe.rename_congr (p : Pipe Handle) (hp : ∀ x ∈ p.entries, x.Named fun x => g x = h x) :
    p.rename g = p.rename h := by
  obtain ⟨id, decls, commands⟩ := p
  rw [Pipe.entries, List.forall_mem_cons] at hp
  rw [Pipe.rename, Pipe.rename, commandRename_congr commands hp.2, List.map_congr_left hp.1]

end

mutual

theorem Stmt.rename_congr (s : Stmt Handle) (hs : ∀ x ∈ s.entries, x.Named fun x => g x = h x) :
    s.rename g = s.rename h := by
  match s with
  | .text .. | .invoke _ _ none => rfl
  | .action _ p | .invoke _ _ (some p) =>
    rw [Stmt.entries, List.forall_mem_cons] at hs
    rw [Stmt.rename, Stmt.rename, p.rename_congr hs.2]
  | .branch _ _ p body elseBody =>
    rw [Stmt.entries, List.forall_mem_cons, List.forall_mem_append, List.forall_mem_append] at hs
    rw [Stmt.rename, Stmt.rename, p.rename_congr hs.2.1.1, blockRename_congr body hs.2.1.2,
      blockRename_congr elseBody hs.2.2]

theorem blockRename_congr (b : Block Handle)
    (hb : ∀ x ∈ blockEntries b, x.Named fun x => g x = h x) : blockRename g b = blockRename h b := by
  cases b with
  | nil => rfl
  | cons s b =>
    rw [blockEntries, List.forall_mem_append] at hb
    rw [blockRename, blockRename, s.rename_congr hb.1, blockRename_congr b hb.2]

end

end Congr

namespace Draft

variable {g : String → String} {m : Nat} {stem₁ stem₂ : String} {d : Draft}

def rename (g : String → String) (m : Nat) (d : Draft) : Draft :=
  ⟨blockRename g d.block, d.taken + m, d.bound⟩

theorem fresh_rename (hg : g (temporary stem₁ d.taken) = temporary stem₂ (d.taken + m)) :
    (d.rename g m).fresh stem₂ = (d.fresh stem₁).relabel (.ofNames g) := by
  rw [fresh, Fresh.relabel]
  exact congrArg (Fresh.mk _ _ _ _) hg.symm

theorem done_rename : (d.rename g m).Done stem₂ ↔ d.Done stem₁ := by
  rw [Done, Done, rename, ← blockRelabel_ofNames]
  exact blockRewrite?_relabel_eq_none _

theorem inStep_rename (hg : ∀ k, g (temporary stem₁ k) = temporary stem₂ (k + m)) :
    InStep (fun d₁ d₂ => d₂ = d₁.rename g m) stem₁ stem₂ := by
  rintro d₁ d₁' r₁ _ hnext rfl
  have hrewrite := blockRewrite?_relabel (.ofNames g) (d₁.fresh stem₁) d₁.block
  rw [← fresh_rename (hg d₁.taken), blockRelabel_ofNames, hnext.rewrite, Option.map_some]
    at hrewrite
  refine ⟨_, hrewrite, rfl, fun d₂' hnext₂ => ?_⟩
  refine Draft.ext ?_ (hnext.taken_eq hnext₂ rfl rfl) (hnext.bound_eq hnext₂ rfl fun kind => ?_)
  · rw [hnext₂.block, BlockRewriting.block_relabel, blockRelabel_ofNames, rename, hnext.block]
  · rw [BlockRewriting.block_relabel, blockRelabel_ofNames, blockKeys_rename]

end Draft

def Config.InUse (config : Config) (A : String → Prop) (taken : Nat) : String → Prop :=
  FlatTemplate.InUse (fun name => ∃ x, A x ∧ respell config.userTag x = name) config.tempStem taken

structure Config.Translates (config : Config) (A : String → Prop) (φ : String → String)
    (stem : String) (m : Nat) (g : String → String) : Prop where
  temporary : ∀ k, g (temporary config.tempStem k) = temporary stem (k + m)
  respelled : ∀ x, A x → g (respell config.userTag x) = φ x

namespace Config

variable {config : Config} {A : String → Prop} {φ g : String → String} {stem : String} {m : Nat}

theorem Valid.exists_translates (h : config.Valid) (hA : ∀ x, A x → IsVariable x)
    (φ : String → String) (stem : String) (m : Nat) :
    ∃ g, config.Translates A φ stem m g := by
  classical
  refine ⟨fun name => if hk : ∃ k, name = FlatTemplate.temporary config.tempStem k then
      FlatTemplate.temporary stem (hk.choose + m)
    else if hx : ∃ x, A x ∧ respell config.userTag x = name then φ hx.choose else name,
    fun k => ?_, fun x hx => ?_⟩
  · have hk : ∃ j, FlatTemplate.temporary config.tempStem k =
        FlatTemplate.temporary config.tempStem j := ⟨k, rfl⟩
    rw [dif_pos hk, ← temporary_inj hk.choose_spec]
  · have hk : ¬∃ k, respell config.userTag x = FlatTemplate.temporary config.tempStem k :=
      fun ⟨k, hk⟩ => h.respell_ne_temporary x k hk
    have hy : ∃ y, A y ∧ respell config.userTag y = respell config.userTag x := ⟨x, hx, rfl⟩
    rw [dif_neg hk, dif_pos hy,
      h.respell_inj (hA _ hy.choose_spec.1) (hA x hx) hy.choose_spec.2]

theorem Translates.injOn (hg : config.Translates A φ stem m g)
    (hφ : ∀ x y, A x → A y → φ x = φ y → x = y)
    (hapart : ∀ x k, A x → φ x ≠ FlatTemplate.temporary stem (k + m)) (taken : Nat) :
    Set.InjOn g (config.InUse A taken) := by
  rintro _ (⟨x, hx, rfl⟩ | ⟨j, -, rfl⟩) _ (⟨y, hy, rfl⟩ | ⟨k, -, rfl⟩) heq
  · rw [hg.respelled x hx, hg.respelled y hy] at heq
    rw [hφ x y hx hy heq]
  · rw [hg.respelled x hx, hg.temporary] at heq
    exact absurd heq (hapart x k hx)
  · rw [hg.respelled y hy, hg.temporary] at heq
    exact absurd heq.symm (hapart y j hy)
  · rw [hg.temporary, hg.temporary] at heq
    rw [Nat.add_right_cancel (temporary_inj heq)]

theorem inUse_root (hA : A rootVariable) (taken : Nat) : config.InUse A taken rootVariable :=
  .inl ⟨rootVariable, hA, respell_root _⟩

theorem isVariable_of_inUse (hA : ∀ x, A x → IsVariable x) {taken : Nat} {x : String}
    (hx : config.InUse A taken x) : IsVariable x := by
  rcases hx with ⟨y, hy, rfl⟩ | ⟨k, -, rfl⟩
  · obtain rfl | ⟨-, cs, -, hcs⟩ := respell_cases config.userTag (hA y hy)
    · exact ⟨[], by rw [respell_root, toList_rootVariable]⟩
    · exact ⟨_, hcs⟩
  · exact ⟨_, toList_temporary _ k⟩

theorem Valid.exists_translates_injOn (h : config.Valid) (hA : ∀ x, A x → IsVariable x)
    (hroot : A rootVariable) (hφroot : φ rootVariable = rootVariable)
    (hφ : ∀ x y, A x → A y → φ x = φ y → x = y)
    (hapart : ∀ x k, A x → φ x ≠ FlatTemplate.temporary stem (k + m)) :
    ∃ g, config.Translates A φ stem m g ∧ g rootVariable = rootVariable ∧
      ∀ taken, Set.InjOn g (config.InUse A taken) := by
  obtain ⟨g, hg⟩ := h.exists_translates hA φ stem m
  refine ⟨g, hg, ?_, hg.injOn hφ hapart⟩
  have hgroot := hg.respelled rootVariable hroot
  rwa [respell_root, hφroot] at hgroot

variable {c₁ c₂ c₃ : Config}

theorem Valid.exists_translates_respell (h₁ : c₁.Valid) (h₂ : c₂.Valid) :
    ∃ g, c₁.Translates IsVariable (respell c₂.userTag) c₂.tempStem 0 g ∧
      g rootVariable = rootVariable ∧ ∀ taken, Set.InjOn g (c₁.InUse IsVariable taken) :=
  h₁.exists_translates_injOn (fun _ hx => hx) ⟨[], toList_rootVariable⟩ (respell_root _)
    (fun _ _ hx hy => h₂.respell_inj hx hy) fun x k _ => h₂.respell_ne_temporary x (k + 0)

theorem Translates.exists_onward
    (hg : c₁.Translates IsVariable (respell c₃.userTag) c₃.tempStem 0 g)
    (hgroot : g rootVariable = rootVariable) (taken : Nat)
    (hinj : Set.InjOn g (c₁.InUse IsVariable taken)) (h₂ : c₂.Valid) (h₃ : c₃.Valid) :
    ∃ g₂, c₂.Translates (c₁.InUse IsVariable taken) g c₃.tempStem taken g₂ ∧
      g₂ rootVariable = rootVariable ∧
      ∀ n, Set.InjOn g₂ (c₂.InUse (c₁.InUse IsVariable taken) n) := by
  refine h₂.exists_translates_injOn (fun x => isVariable_of_inUse fun _ hx => hx)
    (inUse_root ⟨[], toList_rootVariable⟩ _) hgroot (fun _ _ hx hy => hinj hx hy) ?_
  rintro _ k (⟨y, hy, rfl⟩ | ⟨j, hj, rfl⟩) heq
  · rw [hg.respelled y hy] at heq
    exact h₃.respell_ne_temporary y _ heq
  · rw [hg.temporary] at heq
    have := temporary_inj heq
    omega

theorem Translates.blockRename_respell (hg : config.Translates A φ stem m g) {b : Block Handle}
    (hb : Governed (Pipe.Named A) b) :
    blockRename g (blockRename (respell config.userTag) b) = blockRename φ b := by
  rw [blockRename_rename]
  exact blockRename_congr b fun e he => (governed_named.mp hb e he).mono hg.respelled

end Config

end FlatTemplate

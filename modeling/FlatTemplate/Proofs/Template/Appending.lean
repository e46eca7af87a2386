import FlatTemplate.Proofs.Template.Hygiene
import FlatTemplate.Proofs.Template.Lockstep

namespace FlatTemplate

def temporaryNumber (stem name : String) : Nat :=
  Nat.ofDigitChars 10 (name.toList.drop (stem.toList.length + 1)) 0

def renumber (stem : String) (m : Nat) (name : String) : String :=
  if isTemporary stem name then temporary stem (temporaryNumber stem name + m) else name

theorem renumber_temporary (stem : String) (m k : Nat) :
    renumber stem m (temporary stem k) = temporary stem (k + m) := by
  rw [renumber, if_pos (isTemporary_temporary stem k), temporaryNumber, toList_temporary,
    List.drop_succ_cons, List.drop_left, Nat.ofDigitChars_ten_toDigits]

theorem Config.Valid.renumber_respell {config : Config} (h : config.Valid) (m : Nat) (x : String) :
    renumber config.tempStem m (respell config.userTag x) = respell config.userTag x := by
  rw [renumber, h.isTemporary_respell, if_neg Bool.false_ne_true]

section

variable {f : Fresh} {as bs : Block Handle}

theorem blockRewrite?_append_of_some {r : BlockRewriting} (h : blockRewrite? f as = some r) :
    blockRewrite? f (as ++ bs) = some { r with block := r.block ++ bs } := by
  induction as generalizing r with
  | nil => cases h
  | cons s as ih =>
    rw [List.cons_append, blockRewrite?]
    rw [blockRewrite?] at h
    cases hs : s.rewrite? f with
    | some r' =>
      rw [hs] at h
      obtain rfl := Option.some.inj h
      simp only [List.append_assoc]
    | none =>
      rw [hs] at h
      obtain ⟨r', hr', rfl⟩ := Option.map_eq_some_iff.mp h
      rw [ih hr']
      rfl

theorem blockRewrite?_append_of_none (h : blockRewrite? f as = none) :
    blockRewrite? f (as ++ bs) =
      (blockRewrite? f bs).map fun r => { r with block := as ++ r.block } := by
  induction as with
  | nil => cases hr : blockRewrite? f bs <;> simp [hr]
  | cons s as ih =>
    rw [blockRewrite?] at h
    rw [List.cons_append, blockRewrite?]
    cases hs : s.rewrite? f with
    | some r => rw [hs] at h; cases h
    | none =>
      rw [hs] at h
      rw [ih (Option.map_eq_none_iff.mp h), Option.map_map]
      rfl

end

theorem blockErase_append {ι : NodeKind → Type} (as bs : Block ι) :
    blockErase (as ++ bs) = blockErase as ++ blockErase bs := by
  simp only [← blockRelabel_untagging, blockRelabel_eq_map, List.map_append]

section

variable {g : String → String} {b₁ b₂ : Block Handle}

def Relabelling.zeroing {ι : NodeKind → Type} (g : String → String) : Relabelling ι Handle :=
  ⟨fun _ => ⟨0⟩, g⟩

theorem blockErase_eq_iff : blockErase b₂ = blockErase (blockRename g b₁) ↔
    blockRelabel (.zeroing id) b₂ = blockRelabel (.zeroing g) b₁ := by
  rw [← blockRelabel_untagging, ← blockRelabel_untagging, ← blockRelabel_ofNames,
    blockRelabel_relabel]
  constructor
  · intro h
    have hzero := congrArg (blockRelabel (.zeroing id)) h
    rwa [blockRelabel_relabel, blockRelabel_relabel] at hzero
  · intro h
    have htag := congrArg (blockRelabel .untagging) h
    rwa [blockRelabel_relabel, blockRelabel_relabel] at htag

theorem blockRewrite?_of_erase_eq {f₁ f₂ : Fresh} (hname : f₂.name = g f₁.name)
    (h : blockErase b₂ = blockErase (blockRename g b₁)) {r₁ : BlockRewriting}
    (hr₁ : blockRewrite? f₁ b₁ = some r₁) :
    ∃ r₂, blockRewrite? f₂ b₂ = some r₂ ∧ r₂.plan.rule = r₁.plan.rule ∧ r₂.taken = r₁.taken ∧
      blockErase r₂.block = blockErase (blockRename g r₁.block) := by
  have hfresh : f₂.relabel (.zeroing id) = f₁.relabel (.zeroing g) :=
    congrArg (Fresh.mk _ _ _ _) hname
  have hcongr := blockRewrite?_congr hfresh (blockErase_eq_iff.mp h)
  rw [hr₁] at hcongr
  obtain ⟨r₂, hr₂, heq⟩ := Option.map_eq_some_iff.mp hcongr
  obtain ⟨hplan, hblock, htaken⟩ := BlockRewriting.mk.inj heq
  exact ⟨r₂, hr₂, congrArg (·.rule) hplan, htaken, blockErase_eq_iff.mpr hblock⟩

theorem blockRewrite?_eq_none_of_erase_eq {f₁ f₂ : Fresh}
    (h : blockErase b₂ = blockErase (blockRename g b₁)) :
    blockRewrite? f₂ b₂ = none ↔ blockRewrite? f₁ b₁ = none := by
  have hzero : blockRewrite? f₂ b₂ = none ↔
      blockRewrite? f₁ (blockRelabel (.zeroing g) b₁) = none := by
    rw [← blockErase_eq_iff.mp h, blockRewrite?_relabel_eq_none]
  exact hzero.trans (blockRewrite?_relabel_eq_none _)

end

namespace Draft

variable {stem : String} {front rest : Block Handle} {g : String → String} {m : Nat}

def append (rest : Block Handle) (d : Draft) : Draft := ⟨d.block ++ rest, d.taken, d.bound⟩

theorem inStep_append : InStep (fun d₁ d₂ => d₂ = d₁.append rest) stem stem := by
  rintro d₁ d₁' r₁ _ hnext rfl
  refine ⟨_, blockRewrite?_append_of_some hnext.rewrite, rfl, fun d₂' hnext₂ => ?_⟩
  have hunused (kind : NodeKind) : freshKey d₁.bound kind ∉ blockKeys rest := by
    intro hmem
    refine Nat.lt_irrefl _ (hnext₂.valid.used (freshKey d₁.bound kind) ?_)
    rw [append, blockKeys_append]
    exact List.mem_append_right _ hmem
  have hkeys (kind : NodeKind) : freshKey d₁.bound kind ∈ blockKeys (r₁.block ++ rest) ↔
      freshKey d₁.bound kind ∈ blockKeys r₁.block := by
    rw [blockKeys_append, List.mem_append, or_iff_left (hunused kind)]
  refine Draft.ext ?_ (hnext.taken_eq (m := 0) hnext₂ rfl rfl) (hnext.bound_eq hnext₂ rfl hkeys)
  rw [hnext₂.block, append, hnext.block]

structure Follows (front : Block Handle) (g : String → String) (m : Nat) (d₁ d₂ : Draft) : Prop where
  block : ∃ back, d₂.block = front ++ back ∧ blockErase back = blockErase (blockRename g d₁.block)
  taken : d₂.taken = d₁.taken + m

theorem inStep_follows (hg : ∀ k, g (temporary stem k) = temporary stem (k + m))
    (hfront : ∀ f, blockRewrite? f front = none) : InStep (Follows front g m) stem stem := by
  rintro d₁ d₁' r₁ d₂ hnext ⟨⟨back, hblock, hback⟩, htaken⟩
  have hname : (d₂.fresh stem).name = g (d₁.fresh stem).name := by
    rw [fresh, fresh, hg, htaken]
  obtain ⟨r₂, hr₂, hrule, htaken₂, hback₂⟩ := blockRewrite?_of_erase_eq hname hback hnext.rewrite
  refine ⟨{ r₂ with block := front ++ r₂.block }, ?_, hrule,
    fun d₂' hnext₂ => ⟨⟨r₂.block, hnext₂.block, ?_⟩,
      hnext.taken_eq hnext₂ htaken₂ htaken⟩⟩
  · rw [hblock, blockRewrite?_append_of_none (hfront _), hr₂]
    rfl
  · rw [hback₂, hnext.block]

theorem Follows.done {d₁ d₂ : Draft} (h : Follows front g m d₁ d₂)
    (hfront : ∀ f, blockRewrite? f front = none) (hdone : d₁.Done stem) : d₂.Done stem := by
  obtain ⟨back, hblock, hback⟩ := h.block
  rw [Done, hblock, blockRewrite?_append_of_none (hfront _), Option.map_eq_none_iff]
  exact (blockRewrite?_eq_none_of_erase_eq hback).mpr hdone

end Draft

end FlatTemplate

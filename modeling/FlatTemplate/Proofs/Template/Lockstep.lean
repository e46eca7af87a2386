import FlatTemplate.Proofs.Template.Equivariance
import FlatTemplate.Proofs.Template.Runs

/-!
Two templates that are rewritten in step with one another.
-/

namespace FlatTemplate

attribute [ext] Draft

namespace Draft

variable {stem stem₁ stem₂ : String} {rules rules₁ rules₂ : List Rule} {d d' d₁ d₁' d₂ d₂' : Draft}

def Done (stem : String) (d : Draft) : Prop := blockRewrite? (d.fresh stem) d.block = none

/-- Where `M` relates two drafts, each rewrite of the first is one of the second by the same rule,
and `M` relates what they lead to. -/
def InStep (M : Draft → Draft → Prop) (stem₁ stem₂ : String) : Prop :=
  ∀ ⦃d₁ d₁' r₁ d₂⦄, Next stem₁ d₁ d₁' r₁ → M d₁ d₂ → ∃ r₂,
    blockRewrite? (d₂.fresh stem₂) d₂.block = some r₂ ∧ r₂.plan.rule = r₁.plan.rule ∧
      ∀ d₂', Next stem₂ d₂ d₂' r₂ → M d₁' d₂'

section Next

variable {r₁ r₂ : BlockRewriting}

theorem Next.taken_eq {m : Nat} (h₁ : Next stem₁ d₁ d₁' r₁) (h₂ : Next stem₂ d₂ d₂' r₂)
    (hr : r₂.taken = r₁.taken) (h : d₂.taken = d₁.taken + m) : d₂'.taken = d₁'.taken + m := by
  rw [h₂.taken, h₁.taken, hr, h]
  by_cases ht : r₁.taken
  · rw [if_pos ht, if_pos ht, Nat.add_right_comm]
  · rw [if_neg ht, if_neg ht]

theorem Next.bound_eq (h₁ : Next stem₁ d₁ d₁' r₁) (h₂ : Next stem₂ d₂ d₂' r₂)
    (h : d₂.bound = d₁.bound) (hkeys : ∀ kind, freshKey d₁.bound kind ∈ blockKeys r₂.block ↔
      freshKey d₁.bound kind ∈ blockKeys r₁.block) : d₂'.bound = d₁'.bound := by
  funext kind
  rw [h₂.grown, h₁.grown, h]
  simp only [hkeys]

end Next

theorem Done.trace (hdone : d.Done stem) (h : Trace stem rules d d') : rules = [] ∧ d' = d := by
  cases h with
  | refl => exact ⟨rfl, rfl⟩
  | step hnext => cases hdone.symm.trans hnext.rewrite

theorem InStep.trace {M : Draft → Draft → Prop} (hM : InStep M stem₁ stem₂)
    (h₁ : Trace stem₁ rules₁ d₁ d₁') (h₂ : Trace stem₂ rules₂ d₂ d₂') (hdone : d₂'.Done stem₂)
    (h : M d₁ d₂) :
    ∃ rest d, rules₂ = rules₁ ++ rest ∧ Trace stem₂ rest d d₂' ∧ M d₁' d := by
  induction h₁ generalizing rules₂ d₂ with
  | refl => exact ⟨rules₂, d₂, rfl, h₂, h⟩
  | step hnext₁ _ ih =>
    obtain ⟨r₂, hr₂, hrule, hnext⟩ := hM hnext₁ h
    cases h₂ with
    | refl => cases hdone.symm.trans hr₂
    | step hnext₂ h₂ =>
      obtain rfl := Option.some.inj (hr₂.symm.trans hnext₂.rewrite)
      obtain ⟨rest, d, rfl, hrest, h⟩ := ih h₂ (hnext _ hnext₂)
      exact ⟨rest, d, by rw [hrule, List.cons_append], hrest, h⟩

theorem InStep.trace_eq {M : Draft → Draft → Prop} (hM : InStep M stem₁ stem₂)
    (hfinal : ∀ d₁ d₂, M d₁ d₂ → d₁.Done stem₁ → d₂.Done stem₂)
    (h₁ : Trace stem₁ rules₁ d₁ d₁') (hdone₁ : d₁'.Done stem₁)
    (h₂ : Trace stem₂ rules₂ d₂ d₂') (hdone₂ : d₂'.Done stem₂) (h : M d₁ d₂) :
    rules₂ = rules₁ ∧ M d₁' d₂' := by
  obtain ⟨rest, d, rfl, hrest, h⟩ := hM.trace h₁ h₂ hdone₂ h
  obtain ⟨rfl, rfl⟩ := (hfinal _ _ h hdone₁).trace hrest
  exact ⟨List.append_nil _, h⟩

end Draft

end FlatTemplate

import FlatTemplate.Proofs.Template.Contexts

namespace FlatTemplate

structure Draft where
  block : Block Handle
  taken : Nat
  bound : NodeKind → Nat

namespace Draft

def fresh (stem : String) (d : Draft) : Fresh :=
  ⟨⟨d.bound .stmt⟩, ⟨d.bound .pipe⟩, ⟨d.bound .command⟩, ⟨d.bound .expr⟩, temporary stem d.taken⟩

structure Valid (d : Draft) : Prop where
  nodup : (blockKeys d.block).Nodup
  sound : ∀ e ∈ blockEntries d.block, e.Sound
  used : ∀ k ∈ blockKeys d.block, k.2.index < d.bound k.1

structure Next (stem : String) (d d' : Draft) (r : BlockRewriting) : Prop where
  valid : d.Valid
  rewrite : blockRewrite? (d.fresh stem) d.block = some r
  valid' : d'.Valid
  block : d'.block = r.block
  taken : d'.taken = if r.taken then d.taken + 1 else d.taken
  grown : ∀ kind, d'.bound kind = d.bound kind +
    if freshKey d.bound kind ∈ blockKeys r.block then 1 else 0

theorem Next.bound {stem : String} {d d' : Draft} {r : BlockRewriting} (h : Next stem d d' r)
    (kind : NodeKind) : d.bound kind ≤ d'.bound kind := by
  have hgrown := h.grown kind
  omega

inductive Run (stem : String) : Nat → Draft → Draft → Prop where
  | refl {d} (h : d.Valid) : Run stem 0 d d
  | step {n d d' d'' r} (h : Next stem d d' r) (hrun : Run stem n d' d'') : Run stem (n + 1) d d''

inductive Trace (stem : String) : List Rule → Draft → Draft → Prop
  | refl {d} (h : d.Valid) : Trace stem [] d d
  | step {rules d d' d'' r} (h : Next stem d d' r) (htrace : Trace stem rules d' d'') :
    Trace stem (r.plan.rule :: rules) d d''

variable {stem : String} {n : Nat} {d d' : Draft}

theorem Trace.run {rules : List Rule} (h : Trace stem rules d d') :
    Run stem rules.length d d' := by
  induction h with
  | refl h => exact .refl h
  | step hnext _ ih => exact .step hnext ih

theorem Run.preserves {P : Draft → Prop} (h : Run stem n d d')
    (hstep : ∀ d d' r, Next stem d d' r → P d → P d') (hd : P d) : P d' := by
  induction h with
  | refl => exact hd
  | step hnext _ ih => exact ih (hstep _ _ _ hnext hd)

theorem Run.concat {d'' : Draft} {r : BlockRewriting} (h : Run stem n d d')
    (hnext : Next stem d' d'' r) : Run stem (n + 1) d d'' := by
  induction h with
  | refl _ => exact .step hnext (.refl hnext.valid')
  | step hfirst _ ih => exact .step hfirst (ih hnext)

end Draft

end FlatTemplate

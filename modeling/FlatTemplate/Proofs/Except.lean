import FlatTemplate.Tree.Fault

namespace FlatTemplate

variable {ε α β γ : Type}

@[simp] theorem ok_bind (a : α) (f : α → Except ε β) : (Except.ok a >>= f) = f a := rfl

@[simp] theorem error_bind (e : ε) (f : α → Except ε β) : (Except.error e >>= f) = .error e := rfl

@[simp] theorem pure_eq_ok (a : α) : (pure a : Except ε α) = .ok a := rfl

@[simp] theorem map_ok (f : α → β) (a : α) : f <$> (Except.ok a : Except ε α) = .ok (f a) := rfl

theorem bind_eq_ok_iff {x : Except ε α} {f : α → Except ε β} {b : β} :
    x >>= f = .ok b ↔ ∃ a, x = .ok a ∧ f a = .ok b := by
  cases x <;> simp

theorem mapM_map_eq_ok {f : α → Except ε β} {g : β → α} {bs : List β}
    (h : ∀ b ∈ bs, f (g b) = .ok b) : (bs.map g).mapM f = .ok bs := by
  induction bs with
  | nil => simp
  | cons b bs ih =>
    rw [List.map_cons, List.mapM_cons, h b (by simp), ok_bind,
      ih fun c hc => h c (List.mem_cons_of_mem _ hc), ok_bind, pure_eq_ok]

theorem eq_map_of_mapM {f : α → Except ε β} {g : β → α} (hg : ∀ a b, f a = .ok b → g b = a)
    {as : List α} {bs : List β} (h : as.mapM f = .ok bs) :
    as = bs.map g ∧ ∀ b ∈ bs, f (g b) = .ok b := by
  induction as generalizing bs with
  | nil =>
    obtain rfl : [] = bs := by simpa using h
    simp
  | cons a as ih =>
    rw [List.mapM_cons, bind_eq_ok_iff] at h
    obtain ⟨b, hb, h⟩ := h
    rw [bind_eq_ok_iff] at h
    obtain ⟨cs, hcs, h⟩ := h
    obtain rfl : b :: cs = bs := by simpa using h
    obtain ⟨rfl, hs⟩ := ih hcs
    obtain rfl := hg a b hb
    simp only [List.map_cons, List.mem_cons, forall_eq_or_imp, true_and]
    exact ⟨hb, hs⟩

theorem findSomeM?_map_eq_ok {f : α → Except ε (Option γ)} {g : β → α} {h : β → Option γ}
    {bs : List β} (hf : ∀ b ∈ bs, f (g b) = .ok (h b)) :
    (bs.map g).findSomeM? f = .ok (bs.findSome? h) := by
  induction bs with
  | nil => rfl
  | cons b bs ih =>
    rw [List.map_cons, List.findSomeM?, hf b (by simp), ok_bind, List.findSome?_cons]
    cases h b with
    | none => exact ih fun c hc => hf c (List.mem_cons_of_mem _ hc)
    | some c => rfl

theorem anyM_map_eq_ok {f : α → Except ε Bool} {g : β → α} {p : β → Bool} {bs : List β}
    (hf : ∀ b ∈ bs, f (g b) = .ok (p b)) : (bs.map g).anyM f = .ok (bs.any p) := by
  induction bs with
  | nil => rfl
  | cons b bs ih =>
    rw [List.map_cons, List.anyM, hf b (by simp), ok_bind, List.any_cons]
    cases p b with
    | true => rfl
    | false => exact ih fun c hc => hf c (List.mem_cons_of_mem _ hc)

end FlatTemplate

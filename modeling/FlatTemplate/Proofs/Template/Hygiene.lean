import FlatTemplate.Config
import FlatTemplate.Proofs.Template.Naming

namespace FlatTemplate

theorem toList_temporary (stem : String) (k : Nat) :
    (temporary stem k).toList = '$' :: (stem.toList ++ Nat.toDigits 10 k) := by
  simp [temporary]

theorem temporary_inj {stem : String} {j k : Nat} (h : temporary stem j = temporary stem k) :
    j = k := by
  have hlist := congrArg String.toList h
  rw [toList_temporary, toList_temporary, List.cons_inj_right, List.append_cancel_left_eq] at hlist
  rw [← Nat.ofDigitChars_ten_toDigits (n := j), hlist, Nat.ofDigitChars_ten_toDigits]

theorem isTemporary_temporary (stem : String) (k : Nat) :
    isTemporary stem (temporary stem k) = true := by
  rw [isTemporary, toList_temporary]
  simp only [List.isPrefixOf?_eq_some_iff_append_eq.mpr rfl, Bool.and_eq_true, Bool.not_eq_true',
    List.isEmpty_eq_false_iff, List.all_eq_true]
  exact ⟨Nat.toDigits_ne_nil, fun c hc => Nat.isDigit_of_mem_toDigits (by decide) (by decide) hc⟩

theorem respell_root (tag : String) : respell tag rootVariable = rootVariable := if_pos rfl

theorem toList_respell {tag name : String} {cs : List Char} (h : name.toList = '$' :: cs)
    (hroot : name ≠ rootVariable) : (respell tag name).toList = '$' :: (tag.toList ++ cs) := by
  rw [respell, if_neg hroot]
  split
  · next bare heq =>
    obtain rfl := (List.cons.inj (heq.symm.trans h)).2
    simp
  · next hne => exact absurd h (hne cs)

structure Config.Valid (config : Config) : Prop where
  stem : config.tempStem.toList ≠ []
  tag : config.userTag.toList ≠ []
  apart : ¬config.userTag.toList <+: config.tempStem.toList ∧
    ¬config.tempStem.toList <+: config.userTag.toList

theorem Config.valid_of_validate {config : Config} (h : config.validate = .ok ()) :
    config.Valid := by
  unfold Config.validate at h
  split at h
  · cases h
  · next hstem =>
    split at h
    · cases h
    · next htag =>
      split at h
      · cases h
      · split at h
        · cases h
        · split at h
          · cases h
          · next hapart =>
            simp only [String.isEmpty_iff] at hstem htag
            simp only [Bool.or_eq_true, not_or, List.isPrefixOf_iff_prefix] at hapart
            exact ⟨fun h => hstem (String.toList_eq_nil_iff.mp h),
              fun h => htag (String.toList_eq_nil_iff.mp h), hapart⟩

theorem respell_cases (tag : String) {x : String} (hx : IsVariable x) :
    x = rootVariable ∨ x ≠ rootVariable ∧
      ∃ cs, x.toList = '$' :: cs ∧ (respell tag x).toList = '$' :: (tag.toList ++ cs) := by
  obtain ⟨cs, hcs⟩ := hx
  by_cases hroot : x = rootVariable
  · exact .inl hroot
  · exact .inr ⟨hroot, cs, hcs, toList_respell hcs hroot⟩

theorem toList_rootVariable : rootVariable.toList = ['$'] := by simp [rootVariable]

theorem exists_toList_respell (tag : String) {name : String} (hroot : name ≠ rootVariable) :
    ∃ cs, (respell tag name).toList = '$' :: (tag.toList ++ cs) := by
  rw [respell, if_neg hroot]
  split
  · next bare _ => exact ⟨bare, by simp⟩
  · exact ⟨name.toList, by simp⟩

section Injective

variable {tag x y : String}

theorem respell_variable (tag : String) {bare : String} (hbare : bare ≠ "") :
    respell tag ("$" ++ bare) = "$" ++ tag ++ bare := by
  have hlist : ("$" ++ bare).toList = '$' :: bare.toList := by simp
  have hroot : "$" ++ bare ≠ rootVariable := by
    intro heq
    rw [heq, toList_rootVariable, List.cons_inj_right] at hlist
    exact hbare (String.toList_eq_nil_iff.mp hlist.symm)
  rw [← String.toList_inj, toList_respell hlist hroot]
  simp

theorem respell_ne_root (htag : tag.toList ≠ []) (hx : IsVariable x) (hroot : x ≠ rootVariable) :
    respell tag x ≠ rootVariable := by
  intro heq
  obtain hx | ⟨-, cs, -, hcs⟩ := respell_cases tag hx
  · exact hroot hx
  · rw [heq, toList_rootVariable, List.cons_inj_right, eq_comm, List.append_eq_nil_iff] at hcs
    exact htag hcs.1

theorem respell_inj (htag : tag.toList ≠ []) (hx : IsVariable x) (hy : IsVariable y)
    (heq : respell tag x = respell tag y) : x = y := by
  obtain rfl | ⟨hxroot, cs, hcs, hx'⟩ := respell_cases tag hx
  · rw [respell_root] at heq
    exact Decidable.byContradiction fun hne => respell_ne_root htag hy (Ne.symm hne) heq.symm
  · obtain rfl | ⟨hyroot, ds, hds, hy'⟩ := respell_cases tag hy
    · rw [respell_root] at heq
      exact absurd heq (respell_ne_root htag hx hxroot)
    · rw [heq, hy', List.cons_inj_right, List.append_cancel_left_eq] at hx'
      exact String.toList_inj.mp (by rw [hcs, hds, hx'])

end Injective

def IsRespelled (tag name : String) : Prop := ∃ x, IsVariable x ∧ respell tag x = name

namespace Config.Valid

variable {config : Config} {x y : String}

theorem respell_ne_root (h : config.Valid) (hx : IsVariable x) (hroot : x ≠ rootVariable) :
    respell config.userTag x ≠ rootVariable :=
  FlatTemplate.respell_ne_root h.tag hx hroot

theorem respell_inj (h : config.Valid) (hx : IsVariable x) (hy : IsVariable y)
    (heq : respell config.userTag x = respell config.userTag y) : x = y :=
  FlatTemplate.respell_inj h.tag hx hy heq

theorem not_prefix_respell (h : config.Valid) (x : String) :
    ¬ '$' :: config.tempStem.toList <+: (respell config.userTag x).toList := by
  intro hstem
  by_cases hroot : x = rootVariable
  · rw [hroot, respell_root, toList_rootVariable, List.cons_prefix_cons, List.prefix_nil] at hstem
    exact h.stem hstem.2
  · obtain ⟨cs, hcs⟩ := exists_toList_respell config.userTag hroot
    rw [hcs, List.cons_prefix_cons] at hstem
    have htag : config.userTag.toList <+: config.userTag.toList ++ cs := List.prefix_append ..
    exact (List.prefix_or_prefix_of_prefix htag hstem.2).elim h.apart.1 h.apart.2

theorem respell_ne_temporary (h : config.Valid) (x : String) (k : Nat) :
    respell config.userTag x ≠ temporary config.tempStem k := by
  intro heq
  refine h.not_prefix_respell x ?_
  rw [heq, toList_temporary, List.cons_prefix_cons]
  exact ⟨rfl, List.prefix_append ..⟩

theorem isTemporary_respell (h : config.Valid) (x : String) :
    isTemporary config.tempStem (respell config.userTag x) = false := by
  have hstem := h.not_prefix_respell x
  rw [isTemporary]
  split
  · next rest heq =>
    rw [heq, List.cons_prefix_cons, not_and] at hstem
    split
    · next digits hdigits =>
      exact absurd ⟨digits, List.isPrefixOf?_eq_some_iff_append_eq.mp hdigits⟩ (hstem rfl)
    · rfl
  · rfl

theorem not_inUse (h : config.Valid) (k : Nat) {user : String → Prop}
    (huser : ∀ name, user name → ∃ x, respell config.userTag x = name) :
    ¬InUse user config.tempStem k (temporary config.tempStem k) := by
  rintro (hname | ⟨j, hj, heq⟩)
  · obtain ⟨x, hx⟩ := huser _ hname
    exact h.respell_ne_temporary x k hx
  · exact absurd (temporary_inj heq) (Nat.ne_of_gt hj)

theorem named_ne_temporary (h : config.Valid) {d : Draft} {user : String → Prop}
    (huser : ∀ name, user name → ∃ x, respell config.userTag x = name)
    (hd : d.Named user config.tempStem) :
    Governed (Pipe.Named (· ≠ (d.fresh config.tempStem).name)) d.block :=
  hd.imp fun _ hp e he => (hp e he).mono fun x hx heq =>
    h.not_inUse d.taken huser ((show x = temporary config.tempStem d.taken from heq) ▸ hx)

theorem named_fresh (h : config.Valid) {d : Draft}
    (hd : d.Named (IsRespelled config.userTag) config.tempStem) :
    Governed (Pipe.Named (· ≠ (d.fresh config.tempStem).name)) d.block :=
  h.named_ne_temporary (fun _ ⟨x, _, hx⟩ => ⟨x, hx⟩) hd

end Config.Valid

end FlatTemplate

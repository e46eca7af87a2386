import FlatTemplate.Proofs.Parser.Parsed
import FlatTemplate.Proofs.Printing.Lexemes

namespace FlatTemplate

def ParseCause.IsMalformedString : ParseCause → Prop
  | .unterminatedString | .invalidEscape _ => True
  | _ => False

namespace Lexer

def simpleEscapes : List (Char × Char) :=
  [('n', '\n'), ('t', '\t'), ('r', '\r'), ('a', '\x07'), ('b', '\x08'), ('f', '\x0c'),
    ('v', '\x0b'), ('0', '\x00'), ('\\', '\\'), ('"', '"'), ('\'', '\'')]

def numberEscapes : List (Char × Nat) := [('x', 2), ('u', 4), ('U', 8)]

def hexDigits : List (Char × Nat) :=
  "0123456789abcdef".toList.zipIdx ++ "0123456789ABCDEF".toList.zipIdx

inductive Numeral : List Char → Nat → Prop where
  | nil : Numeral [] 0
  | snoc {ds : List Char} {m n : Nat} {d : Char} (hds : Numeral ds m) (hd : (d, n) ∈ hexDigits) :
      Numeral (ds ++ [d]) (m * 16 + n)

inductive Escape (signs : Bool) : List Char → Char → Prop where
  | simple {c d : Char} (h : (c, d) ∈ simpleEscapes) : Escape signs [c] d
  | number {c : Char} {width n : Nat} {ds : List Char} (h : (c, width) ∈ numberEscapes)
      (hlength : ds.length = width) (hds : Numeral ds n) (hn : n.isValidChar) :
      Escape signs (c :: ds) (Char.ofNat n)
  | signed {c : Char} {width n : Nat} {ds : List Char} (hsigns : signs = true)
      (h : (c, width) ∈ numberEscapes) (hlength : ds.length + 1 = width) (hds : Numeral ds n)
      (hn : n.isValidChar) : Escape signs (c :: '+' :: ds) (Char.ofNat n)

/-- What stands between the quotes of a string literal, and the text that it stands for. -/
inductive Spells (signs : Bool) : List Char → List Char → Prop where
  | nil : Spells signs [] []
  | plain {c : Char} {body text : List Char} (hc : c ≠ '"' ∧ c ≠ '\n' ∧ c ≠ '\\')
      (h : Spells signs body text) : Spells signs (c :: body) (c :: text)
  | escape {c : Char} {es body text : List Char} (hes : Escape signs es c)
      (h : Spells signs body text) : Spells signs ('\\' :: es ++ body) (c :: text)

theorem simpleEscape?_iff {c d : Char} : simpleEscape? c = some d ↔ (c, d) ∈ simpleEscapes := by
  constructor
  · intro h
    unfold simpleEscape? at h
    split at h <;> simp_all [simpleEscapes, eq_comm]
  · have hall : ∀ p ∈ simpleEscapes, simpleEscape? p.1 = some p.2 := by decide
    exact fun h => hall _ h

theorem escapeWidth?_iff {c : Char} {width : Nat} :
    escapeWidth? c = some width ↔ (c, width) ∈ numberEscapes := by
  constructor
  · intro h
    unfold escapeWidth? at h
    split at h <;> simp_all [numberEscapes]
  · have hall : ∀ p ∈ numberEscapes, escapeWidth? p.1 = some p.2 := by decide
    exact fun h => hall _ h

theorem mem_hexDigits (least count : Nat) {d : Char} {base : Nat}
    (hall : ∀ k < count, (Char.ofNat (base + k), k + least) ∈ hexDigits) (hlow : base ≤ d.toNat)
    (hhigh : d.toNat < base + count) : (d, d.toNat - base + least) ∈ hexDigits := by
  have hmem := hall (d.toNat - base) (Nat.sub_lt_left_of_lt_add hlow hhigh)
  rwa [Nat.add_sub_cancel' hlow, Char.ofNat_toNat] at hmem

theorem hexValue?_iff {d : Char} {n : Nat} : hexValue? d = some n ↔ (d, n) ∈ hexDigits := by
  constructor
  · intro h
    unfold hexValue? at h
    simp only [Bool.and_eq_true, decide_eq_true_eq] at h
    split at h
    · next hd =>
      obtain rfl := Option.some.inj h
      exact mem_hexDigits 0 10 (by decide) hd.1 (Nat.lt_succ_of_le hd.2)
    · split at h
      · next hd =>
        obtain rfl := Option.some.inj h
        exact mem_hexDigits 10 6 (by decide) hd.1 (Nat.lt_succ_of_le hd.2)
      · split at h
        · next hd =>
          obtain rfl := Option.some.inj h
          exact mem_hexDigits 10 6 (by decide) hd.1 (Nat.lt_succ_of_le hd.2)
        · cases h
  · have hall : ∀ p ∈ hexDigits, hexValue? p.1 = some p.2 := by decide
    exact fun h => hall _ h

theorem numeral_concat_iff {ds : List Char} {d : Char} {k : Nat} :
    Numeral (ds ++ [d]) k ↔ ∃ m n, Numeral ds m ∧ (d, n) ∈ hexDigits ∧ k = m * 16 + n := by
  constructor
  · intro h
    generalize heq : ds ++ [d] = cs at h
    cases h with
    | nil => exact absurd heq (by simp)
    | @snoc ds' m n d' hds hd =>
      obtain ⟨rfl, hlast⟩ := List.append_inj' heq rfl
      obtain rfl := List.singleton_inj.mp hlast
      exact ⟨m, n, hds, hd, rfl⟩
  · rintro ⟨m, n, hds, hd, rfl⟩
    exact .snoc hds hd

theorem hexDigits?_iff {ds : List Char} (hne : ds ≠ []) {n : Nat} :
    hexDigits? ds = some n ↔ Numeral ds n := by
  have hfold : hexDigits? ds = ds.foldlM (fun n c => (hexValue? c).map (n * 16 + ·)) 0 := by
    cases ds with
    | nil => exact absurd rfl hne
    | cons => rfl
  rw [hfold]
  clear hfold hne
  -- The fold takes the last digit last, as the numeral does.
  induction ds using List.reverseRecOn generalizing n with
  | nil =>
    constructor
    · rintro ⟨⟩
      exact .nil
    · intro h
      generalize heq : [] = cs at h
      cases h with
      | nil => rfl
      | snoc => exact absurd heq (by simp)
  | append_singleton ds d ih =>
    rw [numeral_concat_iff]
    simp only [List.foldlM_append, List.foldlM_cons, List.foldlM_nil, Option.bind_eq_bind,
      Option.bind_eq_some_iff, ih, Option.map_eq_some_iff, hexValue?_iff, Option.pure_def,
      Option.some.injEq]
    grind

theorem not_numeral_plus (ds : List Char) (n : Nat) : ¬Numeral ('+' :: ds) n := by
  induction ds using List.reverseRecOn generalizing n with
  | nil =>
    rw [show ['+'] = [] ++ ['+'] from rfl, numeral_concat_iff]
    rintro ⟨m, v, -, hd, -⟩
    cases hexValue?_iff.mpr hd
  | append_singleton ds d ih =>
    rw [← List.cons_append, numeral_concat_iff]
    rintro ⟨m, v, hds, -, -⟩
    exact ih m hds

theorem hexNumber?_append {ds : List Char} (hds : 2 ≤ ds.length) (rest : List Char) {n : Nat} :
    hexNumber? ds.length (ds ++ rest) = some n ↔
      Numeral ds n ∨ ∃ ds', ds = '+' :: ds' ∧ Numeral ds' n := by
  simp only [hexNumber?, List.take_left', Nat.lt_irrefl, if_false]
  split
  · next ds =>
    have hne : ds ≠ [] := by
      rintro rfl
      simp at hds
    rw [hexDigits?_iff hne]
    constructor
    · exact fun h => .inr ⟨ds, rfl, h⟩
    · rintro (h | ⟨ds', heq, h⟩)
      · exact absurd h (not_numeral_plus ds n)
      · exact (List.cons.inj heq).2 ▸ h
  · next hplus =>
    have hne : ds ≠ [] := List.ne_nil_of_length_pos (by omega)
    rw [hexDigits?_iff hne]
    constructor
    · exact .inl
    · rintro (h | ⟨ds', heq, -⟩)
      · exact h
      · exact absurd heq (hplus ds')

theorem exists_of_hexNumber? {width n : Nat} {cs : List Char} (hwidth : 2 ≤ width)
    (h : hexNumber? width cs = some n) : ∃ ds rest, cs = ds ++ rest ∧ ds.length = width ∧
      (Numeral ds n ∨ ∃ ds', ds = '+' :: ds' ∧ Numeral ds' n) := by
  have hle : width ≤ cs.length := by
    by_contra hlt
    have htake : (cs.take width).length < width := by simp; omega
    simp only [hexNumber?, if_pos htake] at h
    cases h
  obtain ⟨ds, rest, rfl, rfl⟩ : ∃ ds rest, cs = ds ++ rest ∧ ds.length = width :=
    ⟨cs.take width, cs.drop width, (List.take_append_drop width cs).symm, by simpa using hle⟩
  exact ⟨ds, rest, rfl, rfl, (hexNumber?_append hwidth rest).mp h⟩

theorem two_le_width {c : Char} {width : Nat} (h : (c, width) ∈ numberEscapes) : 2 ≤ width := by
  have hall : ∀ p ∈ numberEscapes, 2 ≤ p.2 := by decide
  exact hall _ h

theorem simpleEscape?_number {c : Char} {width : Nat} (h : (c, width) ∈ numberEscapes) :
    simpleEscape? c = none := by
  have hall : ∀ p ∈ numberEscapes, simpleEscape? p.1 = none := by decide
  exact hall _ h

theorem escape_cases (c : Char) (rest : List Char) :
    (∃ d, simpleEscape? c = some d ∧ apart <$> escape (c :: rest) = .ok (d, rest)) ∨
    (∃ width n, simpleEscape? c = none ∧ escapeWidth? c = some width ∧
      hexNumber? width rest = some n ∧ n.isValidChar ∧
      apart <$> escape (c :: rest) = .ok (Char.ofNat n, rest.drop width)) ∨
    (simpleEscape? c = none ∧ (∀ width n, escapeWidth? c = some width →
      hexNumber? width rest = some n → ¬n.isValidChar) ∧
      ∃ failure, escape (c :: rest) = .error failure ∧ failure.cause.IsMalformedString) := by
  have hnumber {width n : Nat} : ((escapeWidth? c).bind fun width =>
      (hexNumber? width rest).map (width, ·)) = some (width, n) ↔
        escapeWidth? c = some width ∧ hexNumber? width rest = some n := by
    simp only [Option.bind_eq_some_iff, Option.map_eq_some_iff, Prod.mk.injEq]
    constructor
    · rintro ⟨_, hw, _, hn, rfl, rfl⟩
      exact ⟨hw, hn⟩
    · rintro ⟨hw, hn⟩
      exact ⟨_, hw, _, hn, rfl, rfl⟩
  simp only [escape]
  split
  · next d hd => exact .inl ⟨d, hd, rfl⟩
  · next hsimple =>
    split
    · next width n hwn =>
      obtain ⟨hw, hn⟩ := hnumber.mp hwn
      split
      · next hvalid => exact .inr (.inl ⟨width, n, hsimple, hw, hn, hvalid, rfl⟩)
      · next hvalid =>
        refine .inr (.inr ⟨hsimple, fun width' n' hw' hn' => ?_, _, rfl, trivial⟩)
        obtain ⟨rfl, rfl⟩ := Prod.mk.inj (Option.some.inj (hwn.symm.trans (hnumber.mpr ⟨hw', hn'⟩)))
        exact hvalid
    · next hnone =>
      refine .inr (.inr ⟨hsimple, fun width n hw hn => ?_, _, rfl, trivial⟩)
      cases hnone.symm.trans (hnumber.mpr ⟨hw, hn⟩)

theorem escape_simple {c d : Char} (h : (c, d) ∈ simpleEscapes) (rest : List Char) :
    apart <$> escape (c :: rest) = .ok (d, rest) := by
  have hd : simpleEscape? c = some d := by rwa [simpleEscape?_iff]
  rcases escape_cases c rest with ⟨d', hd', h⟩ | ⟨_, _, hnone, -⟩ | ⟨hnone, -⟩
  · obtain rfl := Option.some.inj (hd.symm.trans hd')
    exact h
  · cases hd.symm.trans hnone
  · cases hd.symm.trans hnone

theorem escape_number {c : Char} {n : Nat} {ds : List Char} (h : (c, ds.length) ∈ numberEscapes)
    (rest : List Char) (hds : Numeral ds n ∨ ∃ ds', ds = '+' :: ds' ∧ Numeral ds' n)
    (hn : n.isValidChar) : apart <$> escape (c :: (ds ++ rest)) = .ok (Char.ofNat n, rest) := by
  have hwidth : escapeWidth? c = some ds.length := by rwa [escapeWidth?_iff]
  have hnumber := (hexNumber?_append (two_le_width h) rest).mpr hds
  rcases escape_cases c (ds ++ rest) with ⟨d, hd, -⟩ | ⟨width, m, -, hw, hm, -, hok⟩ | ⟨-, hnot, -⟩
  · cases (simpleEscape?_number h).symm.trans hd
  · obtain rfl := Option.some.inj (hwidth.symm.trans hw)
    obtain rfl := Option.some.inj (hnumber.symm.trans hm)
    rwa [List.drop_left] at hok
  · exact absurd hn (hnot _ _ hwidth hnumber)

theorem escape_eq_ok_iff {cs rest : List Char} {c : Char} :
    apart <$> escape cs = .ok (c, rest) ↔ ∃ es, cs = es ++ rest ∧ Escape true es c := by
  constructor
  · intro h
    cases cs with
    | nil => cases h
    | cons e tail =>
      rcases escape_cases e tail with ⟨d, hd, hok⟩ | ⟨width, n, -, hw, hnumber, hn, hok⟩ |
        ⟨-, -, failure, herror, -⟩
      · obtain ⟨rfl, rfl⟩ := Prod.mk.inj (Except.ok.inj (h.symm.trans hok))
        rw [simpleEscape?_iff] at hd
        exact ⟨[e], rfl, .simple hd⟩
      · obtain ⟨rfl, hrest⟩ := Prod.mk.inj (Except.ok.inj (h.symm.trans hok))
        rw [escapeWidth?_iff] at hw
        obtain ⟨ds, rest', rfl, rfl, hds⟩ := exists_of_hexNumber? (two_le_width hw) hnumber
        rw [List.drop_left] at hrest
        refine ⟨e :: ds, by rw [hrest, List.cons_append], ?_⟩
        rcases hds with hds | ⟨ds, rfl, hds⟩
        · exact .number hw rfl hds hn
        · exact .signed rfl hw rfl hds hn
      · rw [herror] at h
        cases h
  · rintro ⟨es, rfl, hes⟩
    cases hes with
    | simple h => exact escape_simple h rest
    | number h hlength hds hn =>
      subst hlength
      exact escape_number h rest (.inl hds) hn
    | @signed c width n ds _ h hlength hds hn =>
      have hlength : ('+' :: ds).length = width := hlength
      subst hlength
      exact escape_number h rest (.inr ⟨ds, rfl, hds⟩) hn

theorem escape_error {cs : List Char} {failure : Failure} (h : escape cs = .error failure) :
    failure.cause.IsMalformedString := by
  cases cs with
  | nil =>
    cases h
    trivial
  | cons e tail =>
    rcases escape_cases e tail with ⟨d, -, hok⟩ | ⟨width, n, -, -, -, -, hok⟩ |
      ⟨-, -, failure', herror, hcause⟩
    · rw [h] at hok
      cases hok
    · rw [h] at hok
      cases hok
    · obtain rfl := Except.error.inj (h.symm.trans herror)
      exact hcause

theorem quoted_of_spells (start rest : List Char) {body text : List Char}
    (h : Spells true body text) : apart <$> quoted start (body ++ '"' :: rest) = .ok (text, rest) := by
  induction h with
  | nil => exact quoted_quote start rest
  | plain hc _ ih => exact quoted_plain hc ih
  | escape hes _ ih =>
    rw [List.cons_append, List.cons_append, List.append_assoc]
    refine quoted_escape ?_ ih
    rw [escape_eq_ok_iff]
    exact ⟨_, rfl, hes⟩

theorem quoted_cases (start cs : List Char) :
    (∃ body text rest, cs = body ++ '"' :: rest ∧ Spells true body text ∧
        apart <$> quoted start cs = .ok (text, rest)) ∨
      ∃ failure, quoted start cs = .error failure ∧ failure.cause.IsMalformedString := by
  -- An escape is several characters long, so the induction is on the length.
  induction hn : cs.length using Nat.strongRecOn generalizing cs with | _ n ih
  subst hn
  cases cs with
  | nil => exact .inr ⟨⟨.unterminatedString, start⟩, by rw [quoted]; rfl, trivial⟩
  | cons c tail =>
    by_cases hquote : c = '"'
    · subst hquote
      exact .inl ⟨[], [], tail, rfl, .nil, quoted_quote start tail⟩
    by_cases hnewline : c = '\n'
    · subst hnewline
      exact .inr ⟨⟨.unterminatedString, start⟩, by rw [quoted]; rfl, trivial⟩
    by_cases hslash : c = '\\'
    · subst hslash
      cases hescape : escape tail with
      | error failure =>
        refine .inr ⟨failure, ?_, escape_error hescape⟩
        rw [quoted, hescape, error_bind]
      | ok r =>
        obtain ⟨d, mid, hle⟩ := r
        have hd : apart <$> escape tail = .ok (d, mid) := by rw [hescape]; rfl
        obtain ⟨es, rfl, hes⟩ : ∃ es, tail = es ++ mid ∧ Escape true es d := by
          rwa [← escape_eq_ok_iff]
        rcases ih mid.length (by simp) mid rfl with
          ⟨body, text, rest, rfl, hbody, hquoted⟩ | ⟨failure, hquoted, hcause⟩
        · exact .inl ⟨_, _, rest, by simp, .escape hes hbody, quoted_escape hd hquoted⟩
        · refine .inr ⟨failure, ?_, hcause⟩
          rw [quoted, hescape, ok_bind]
          simp only [hquoted, error_bind]
    · have hplain := And.intro hquote (And.intro hnewline hslash)
      rcases ih tail.length (by simp) tail rfl with
        ⟨body, text, rest, rfl, hbody, hquoted⟩ | ⟨failure, hquoted, hcause⟩
      · exact .inl ⟨_, _, rest, rfl, .plain hplain hbody, quoted_plain hplain hquoted⟩
      · refine .inr ⟨failure, ?_, hcause⟩
        rw [quoted, hquoted, error_bind]
        · exact hquote
        · exact hnewline
        · exact hslash

def Quoted (signs : Bool) (cs : List Char) (kind : TokenKind) (rest : List Char) : Prop :=
  ∃ body text, cs = body ++ '"' :: rest ∧ Spells signs body text ∧ kind = .str (String.ofList text)

theorem Escape.unsigned_imp {es : List Char} {c : Char} (h : Escape false es c) :
    Escape true es c := by
  cases h with
  | simple h => exact .simple h
  | number h hlength hds hn => exact .number h hlength hds hn
  | signed hsigns => cases hsigns

theorem Spells.unsigned_imp {body text : List Char} (h : Spells false body text) :
    Spells true body text := by
  induction h with
  | nil => exact .nil
  | plain hc _ ih => exact .plain hc ih
  | escape hes _ ih => exact .escape hes.unsigned_imp ih

theorem Escape.unsigned {es : List Char} {c : Char} (h : Escape true es c)
    (hes : ∀ p ∈ numberEscapes, ¬[p.1, '+'] <+: es) : Escape false es c := by
  cases h with
  | simple h => exact .simple h
  | number h hlength hds hn => exact .number h hlength hds hn
  | @signed c width n ds _ h => exact absurd (List.prefix_append [c, '+'] ds) (hes _ h)

theorem Spells.unsigned {body text : List Char} (h : Spells true body text)
    (hbody : ∀ p ∈ numberEscapes, ¬['\\', p.1, '+'] <:+: body) : Spells false body text := by
  induction h with
  | nil => exact .nil
  | @plain c body text hc _ ih =>
    refine .plain hc (ih fun p hp hinfix => hbody p hp ?_)
    exact hinfix.trans (List.suffix_cons c body).isInfix
  | @escape c es body text hes _ ih =>
    refine .escape (hes.unsigned fun p hp hprefix => hbody p hp ?_)
      (ih fun p hp hinfix => hbody p hp ?_)
    · have hslash : ['\\', p.1, '+'] <+: '\\' :: es := List.cons_prefix_cons.mpr ⟨rfl, hprefix⟩
      exact (hslash.trans (List.prefix_append _ body)).isInfix
    · exact hinfix.trans (List.suffix_append _ body).isInfix

theorem lexes_quote_iff {cs rest : List Char} {kind : TokenKind} :
    Lexes ('"' :: cs) kind rest ↔ Quoted true cs kind rest := by
  constructor
  · rintro ⟨_, _, ⟨⟩, h⟩
    rw [lexeme_quote] at h
    rcases quoted_cases ('"' :: cs) cs with
      ⟨body, text, rest', rfl, hbody, hquoted⟩ | ⟨failure, hquoted, -⟩
    · obtain ⟨_, hquoted⟩ := apart_eq_ok hquoted
      rw [hquoted] at h
      cases h
      exact ⟨body, text, rfl, hbody, rfl⟩
    · rw [hquoted] at h
      cases h
  · rintro ⟨body, text, rfl, hbody, rfl⟩
    obtain ⟨_, hquoted⟩ := apart_eq_ok (quoted_of_spells ('"' :: (body ++ '"' :: rest)) rest hbody)
    refine ⟨'"', _, rfl, ?_⟩
    rw [lexeme_quote, hquoted]
    rfl

theorem closing?_quote (cs : List Char) : closing? ('"' :: cs) = none := by
  unfold closing?
  split
  · next heq => cases heq
  · next heq =>
    rw [← (List.cons.inj heq).1]
    rfl
  · rfl

theorem actionTokens_quote_error (opened : List Char) {cs : List Char}
    (h : ∀ kind rest, ¬Quoted true cs kind rest) :
    ∃ failure, actionTokens opened ('"' :: cs) = .error failure ∧
      failure.cause.IsMalformedString := by
  rcases quoted_cases ('"' :: cs) cs with
    ⟨body, text, rest, hcs, hbody, -⟩ | ⟨failure, hquoted, hcause⟩
  · exact absurd ⟨body, text, hcs, hbody, rfl⟩ (h _ rest)
  · refine ⟨failure, ?_, hcause⟩
    rw [actionTokens]
    split
    · next hclosing => cases (closing?_quote cs).symm.trans hclosing
    · simp only [lexeme_quote, hquoted, error_bind]

/-- A text behind an opening quote is read as a string if and only if it goes on with the body of
one and a closing quote; otherwise the action is malformed where the string is. A plus sign is read
as the first digit of an escape by number; where none stands there, every escape is one of the
language. -/
theorem quote_read (opened cs : List Char) :
    (∀ kind rest, Lexes ('"' :: cs) kind rest ↔ Quoted true cs kind rest) ∧
      (∀ kind rest, Quoted false cs kind rest → Lexes ('"' :: cs) kind rest) ∧
      ((∀ p ∈ numberEscapes, ¬['\\', p.1, '+'] <:+: cs) →
        ∀ kind rest, Lexes ('"' :: cs) kind rest ↔ Quoted false cs kind rest) ∧
      ((∀ kind rest, ¬Lexes ('"' :: cs) kind rest) → ∃ failure,
        actionTokens opened ('"' :: cs) = .error failure ∧ failure.cause.IsMalformedString) := by
  have hunsigned (kind : TokenKind) (rest : List Char) (h : Quoted false cs kind rest) :
      Lexes ('"' :: cs) kind rest := by
    obtain ⟨body, text, hcs, hbody, hkind⟩ := h
    exact lexes_quote_iff.mpr ⟨body, text, hcs, hbody.unsigned_imp, hkind⟩
  refine ⟨fun _ _ => lexes_quote_iff, hunsigned, fun hsigns kind rest =>
    ⟨fun h => ?_, hunsigned kind rest⟩, fun h => ?_⟩
  · obtain ⟨body, text, rfl, hbody, hkind⟩ := lexes_quote_iff.mp h
    refine ⟨body, text, rfl, hbody.unsigned fun p hp hinfix => hsigns p hp ?_, hkind⟩
    exact hinfix.trans (List.prefix_append _ _).isInfix
  · exact actionTokens_quote_error opened fun kind rest hq => h kind rest (lexes_quote_iff.mpr hq)

theorem quote_read_hexEscape :
    (∀ p ∈ numberEscapes, ¬['\\', p.1, '+'] <:+: ['\\', 'x', '4', '1', '"']) ∧
      Lexes ['"', '\\', 'x', '4', '1', '"'] (.str "A") [] ∧
      Quoted false ['\\', 'x', '4', '1', '"'] (.str "A") [] := by
  have hsigns : ∀ p ∈ numberEscapes, ¬['\\', p.1, '+'] <:+: ['\\', 'x', '4', '1', '"'] := by decide
  have hlexes : Lexes ['"', '\\', 'x', '4', '1', '"'] (.str "A") [] := ⟨'"', _, rfl, by cbv⟩
  obtain ⟨-, -, hread, -⟩ := quote_read [] ['\\', 'x', '4', '1', '"']
  exact ⟨hsigns, hlexes, (hread hsigns _ _).mp hlexes⟩

theorem lexes_signedEscape :
    Lexes ['"', '\\', 'x', '+', 'f', '"'] (.str "\x0f") [] ∧
      ∀ kind rest, ¬Quoted false ['\\', 'x', '+', 'f', '"'] kind rest := by
  refine ⟨⟨'"', _, rfl, by cbv⟩, ?_⟩
  rintro kind rest ⟨body, text, hcs, hbody, -⟩
  cases hbody with
  | nil => cases hcs
  | plain hc => exact absurd (List.cons.inj hcs).1.symm hc.2.2
  | @escape c es body text hes =>
    cases hes with
    | @simple e d h =>
      obtain rfl : 'x' = e := (List.cons.inj (List.cons.inj hcs).2).1
      cases simpleEscape?_iff.mpr h
    | @number e width n ds h hlength hds =>
      obtain ⟨rfl, htail⟩ := List.cons.inj (List.cons.inj hcs).2
      obtain rfl : 2 = width := Option.some.inj (escapeWidth?_iff.mpr h)
      obtain ⟨d, d', rfl⟩ := List.length_eq_two.mp hlength
      obtain rfl : '+' = d := (List.cons.inj htail).1
      exact not_numeral_plus _ n hds
    | signed hsigns => cases hsigns

end Lexer

end FlatTemplate

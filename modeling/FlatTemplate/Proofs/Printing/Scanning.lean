import FlatTemplate.Proofs.Printing.Cutting
import FlatTemplate.Proofs.Printing.Merging

/-!
The tokens of a printed template are those of the template with neighbouring texts made one.
-/

namespace FlatTemplate

variable {ι : NodeKind → Type}

def actionKinds (inside : List TokenKind) : List TokenKind := .opening :: (inside ++ [.closing])

mutual

def Stmt.kinds : Stmt ι → List TokenKind
  | .text _ s => [.text s]
  | .action _ pipe => actionKinds pipe.kinds
  | .branch _ kind pipe body elseBody =>
    actionKinds (.keyword (.branch kind) :: pipe.kinds) ++ blockKinds body ++
      elseKinds elseBody ++ actionKinds [.keyword .finish]
  | .invoke _ name none => actionKinds [.keyword .template, .str name]
  | .invoke _ name (some pipe) => actionKinds (.keyword .template :: .str name :: pipe.kinds)

def blockKinds : Block ι → List TokenKind
  | [] => []
  | s :: rest => s.kinds ++ blockKinds rest

def elseKinds : Block ι → List TokenKind
  | [] => []
  | s :: rest => actionKinds [.keyword .otherwise] ++ s.kinds ++ blockKinds rest

end

def withText : List Char → List TokenKind → List TokenKind
  | [], kinds => kinds
  | text, .text s :: kinds => .text (String.ofList text ++ s) :: kinds
  | text, kinds => .text (String.ofList text) :: kinds

theorem withText_withText (text text' : List Char) (kinds : List TokenKind) :
    withText text (withText text' kinds) = withText (text ++ text') kinds := by
  match text, text', kinds with
  | [], _, _ => rfl
  | _ :: _, [], _ => rw [withText, List.append_nil]
  | _ :: _, _ :: _, [] => simp [withText, String.ofList_append, String.append_assoc]
  | _ :: _, _ :: _, kind :: _ =>
    cases kind <;> simp [withText, String.ofList_append, String.append_assoc]

theorem withText_blockKinds {id : ι .stmt} {s : String} (hs : s ≠ "") (b : Block ι)
    {kinds : List TokenKind} (hkinds : ∀ t ks, kinds ≠ .text t :: ks) :
    withText s.toList (blockKinds b ++ kinds) = blockKinds (joinText (.text id s) b) ++ kinds := by
  obtain ⟨c, cs, hcs⟩ : ∃ c cs, s.toList = c :: cs := by
    cases hcs : s.toList with
    | nil => exact absurd (String.toList_eq_nil_iff.mp hcs) hs
    | cons c cs => exact ⟨c, cs, rfl⟩
  have hspelling : String.ofList (c :: cs) = s := by rw [← hcs, String.ofList_toList]
  have hfront {ks : List TokenKind} (hks : ∀ t ks', ks ≠ .text t :: ks') :
      withText (c :: cs) ks = .text s :: ks := by
    rw [withText, hspelling]
    · nofun
    · exact fun t ks' h => hks t ks' h
  rw [hcs]
  match b with
  | [] => exact hfront hkinds
  | .text _ t :: b =>
    exact congrArg (fun s' => .text (s' ++ t) :: (blockKinds b ++ kinds)) hspelling
  | .action _ _ :: b | .branch _ _ _ _ _ :: b | .invoke _ _ none :: b
  | .invoke _ _ (some _) :: b => exact hfront nofun

theorem elseKinds_of_ne_nil {b : Block ι} (h : b ≠ []) :
    elseKinds b = actionKinds [.keyword .otherwise] ++ blockKinds b := by
  cases b with
  | nil => exact absurd rfl h
  | cons s b => rw [elseKinds, blockKinds, List.append_assoc]

theorem elseKinds_append_ne {b : Block ι} {kinds : List TokenKind} (t : String)
    (ks : List TokenKind) :
    elseKinds b ++ (actionKinds [.keyword .finish] ++ kinds) ≠ .text t :: ks := by
  cases b <;> simp [elseKinds, actionKinds]

namespace Lexer

inductive Scans : List Char → List TokenKind → Prop
  | done : Scans [] []
  | action {cs rest : List Char} {kinds kinds' : List TokenKind} :
    Cuts cs kinds ('}' :: '}' :: rest) → kinds ≠ [] → Scans rest kinds' →
    Scans ('{' :: '{' :: cs) (actionKinds kinds ++ kinds')
  | text {text cs : List Char} {kinds : List TokenKind} :
    opensIn text cs = false → Scans cs kinds → Scans (text ++ cs) (withText text kinds)

theorem splitAtOpening_append {text cs : List Char} (h : opensIn text cs = false) :
    splitAtOpening (text ++ cs) = (text ++ (splitAtOpening cs).1, (splitAtOpening cs).2) := by
  induction text with
  | nil => rfl
  | cons c text ih =>
    obtain ⟨hc, h⟩ := Bool.or_eq_false_iff.mp h
    rw [List.cons_append, splitAtOpening, ih h]
    · rfl
    · rintro rest rfl hrest
      rw [hrest] at hc
      cases hc

theorem map_kind_textToken (text start : List Char) :
    (textToken text start).map Token.kind = withText text [] := by
  cases text <;> rfl

def trimmed (front back : Bool) (text : List Char) : List Char :=
  let text := if front then trimStart text else text
  if back then trimEnd text else text

section TokensFrom

variable {cs text inner inside rest after : List Char} {trim trims : Bool} {ts ts' : List Token}

theorem tokensFrom_text (h : splitAtOpening cs = (text, none)) :
    tokensFrom trim cs = .ok (textToken (trimmed trim false text) cs) := by
  unfold tokensFrom
  split
  · next heq =>
    obtain ⟨rfl, -⟩ := Prod.mk.inj (heq.symm.trans h)
    rfl
  · next heq => cases (Prod.mk.inj (heq.symm.trans h)).2

theorem tokensFrom_action {h'} (h : splitAtOpening cs = (text, some inner))
    (hinside : (if opensTrimming inner then inner.drop 2 else inner) = inside)
    (hcomment : ∀ body, inside ≠ '/' :: '*' :: body)
    (haction : actionTokens ('{' :: '{' :: inner) inside = .ok (ts, trims, ⟨rest, h'⟩))
    (hrest : tokensFrom trims rest = .ok ts') :
    tokensFrom trim cs = .ok (textToken (trimmed trim (opensTrimming inner) text) cs ++
      ⟨.opening, '{' :: '{' :: inner⟩ :: ts ++ ts') := by
  rw [tokensFrom]
  split
  · next heq => cases (Prod.mk.inj (heq.symm.trans h)).2
  · next text' inner' heq =>
    obtain ⟨rfl, hinner⟩ := Prod.mk.inj (heq.symm.trans h)
    obtain rfl := Option.some.inj hinner
    extract_lets opened front kept inside' hin
    have hsame : inside' = inside := hinside
    clear_value hin inside'
    subst hsame
    split
    · next body => exact absurd rfl (hcomment body)
    · rw [haction, ok_bind]
      simp only
      rw [hrest]
      rfl

theorem tokensFrom_comment {body : List Char}
    (h : splitAtOpening cs = (text, some ('/' :: '*' :: body)))
    (hend : afterComment? body = some rest) (hclosing : closing? rest = some (trims, after))
    (hrest : tokensFrom trims after = .ok ts) :
    tokensFrom trim cs = .ok (textToken (trimmed trim false text) cs ++ ts) := by
  rw [tokensFrom]
  split
  · next heq => cases (Prod.mk.inj (heq.symm.trans h)).2
  · next text' inner' heq =>
    obtain ⟨rfl, hinner⟩ := Prod.mk.inj (heq.symm.trans h)
    obtain rfl := Option.some.inj hinner
    extract_lets opened front kept inside' hin
    have hsame : inside' = '/' :: '*' :: body := rfl
    clear_value hin inside'
    subst hsame
    split
    · next body' hbody =>
      obtain ⟨-, hbody⟩ := List.cons.inj hbody
      obtain ⟨-, rfl⟩ := List.cons.inj hbody
      split
      · next heq' => cases heq'.symm.trans hend
      · next heq' =>
        obtain rfl := Option.some.inj (heq'.symm.trans hend)
        split
        · next heq'' => cases heq''.symm.trans hclosing
        · next heq'' =>
          obtain ⟨rfl, rfl⟩ := Prod.mk.inj (Option.some.inj (heq''.symm.trans hclosing))
          rw [hrest]
          rfl
    · next hne => exact absurd rfl (hne body)

end TokensFrom

theorem Cuts.untrimmed {cs rest : List Char} {kinds : List TokenKind} (h : Cuts cs kinds rest)
    (hne : kinds ≠ []) : opensTrimming cs = false ∧ ∀ body, cs ≠ '/' :: '*' :: body := by
  cases h with
  | done => exact absurd rfl hne
  | space => exact ⟨rfl, nofun⟩
  | token hlexes =>
    obtain ⟨c, tail, rfl, hlexeme⟩ := hlexes
    constructor
    · unfold opensTrimming
      split
      · next heq =>
        obtain ⟨rfl, rfl⟩ := List.cons.inj heq
        -- A minus sign in front of a space is no number, so no lexeme begins like a trim marker.
        refine Bool.eq_false_iff.mpr fun hspace => ?_
        simp only [isMarkerSpace, Bool.or_eq_true, decide_eq_true_eq] at hspace
        rcases hspace with (((rfl | rfl) | rfl) | rfl) | rfl <;> cases hlexeme
      · rfl
    · rintro body heq
      obtain ⟨rfl, rfl⟩ := List.cons.inj heq
      cases hlexeme

theorem opensIn_append {text text' cs : List Char} (h : opensIn text (text' ++ cs) = false)
    (h' : opensIn text' cs = false) : opensIn (text ++ text') cs = false := by
  induction text with
  | nil => exact h'
  | cons c text ih =>
    obtain ⟨hc, h⟩ := Bool.or_eq_false_iff.mp h
    rw [List.cons_append, opensIn, ih h, Bool.or_false, List.append_assoc]
    exact hc

theorem Scans.tokensFrom {cs : List Char} {kinds : List TokenKind} (h : Scans cs kinds) :
    ∀ text, opensIn text cs = false →
      ∃ ts, tokensFrom false (text ++ cs) = .ok ts ∧ ts.map Token.kind = withText text kinds := by
  -- The text in front is kept general: neighbouring texts are one token.
  induction h with
  | done =>
    intro text htext
    have hsplit := splitAtOpening_append htext
    exact ⟨_, tokensFrom_text hsplit, by rw [map_kind_textToken]; simp [splitAtOpening, trimmed]⟩
  | @action cs rest kinds kinds' hcuts hne _ ih =>
    intro text htext
    have hsplit := splitAtOpening_append htext
    obtain ⟨htrim, hcomment⟩ := hcuts.untrimmed hne
    obtain ⟨ts, h', haction, hts⟩ := hcuts.actionTokens ('{' :: '{' :: cs) rfl
    obtain ⟨ts', hrest, hts'⟩ := ih [] rfl
    have hinside : (if opensTrimming cs then cs.drop 2 else cs) = cs := by
      rw [htrim]
      rfl
    refine ⟨_, tokensFrom_action hsplit hinside hcomment haction hrest, ?_⟩
    have hopening : withText text (actionKinds kinds ++ kinds') =
        withText text [] ++ (actionKinds kinds ++ kinds') := by
      cases text <;> rfl
    rw [List.map_append, List.map_append, List.map_cons, hts, hts', map_kind_textToken, hopening,
      htrim, splitAtOpening, List.append_nil, List.append_assoc]
    rfl
  | @text text' cs kinds htext' _ ih =>
    intro text htext
    obtain ⟨ts, htokens, hts⟩ := ih (text ++ text') (opensIn_append htext htext')
    rw [List.append_assoc] at htokens
    exact ⟨ts, htokens, hts.trans (withText_withText text text' kinds).symm⟩

theorem scans_action {inside rest : List Char} {kinds kinds' : List TokenKind}
    (h : Cuts (inside ++ '}' :: '}' :: rest) kinds ('}' :: '}' :: rest)) (hne : kinds ≠ [])
    (hrest : Scans rest kinds') :
    Scans (printAction inside ++ rest) (actionKinds kinds ++ kinds') := by
  have hprint : printAction inside ++ rest = '{' :: '{' :: (inside ++ '}' :: '}' :: rest) := by
    simp [printAction]
  rw [hprint]
  exact .action h hne hrest

theorem stops_closing (rest : List Char) : Stops ('}' :: '}' :: rest) :=
  stops_cons (by decide) _

theorem scans_keyword (word : Keyword) {rest : List Char} {kinds : List TokenKind}
    (hrest : Scans rest kinds) :
    Scans (printAction word.text.toList ++ rest) (actionKinds [.keyword word] ++ kinds) :=
  scans_action (.single (lexes_keyword (stops_closing rest))) (List.cons_ne_nil _ _) hrest

theorem scans_phrase (word : Keyword) {inside rest : List Char} {kinds kinds' : List TokenKind}
    (h : Cuts (inside ++ '}' :: '}' :: rest) kinds ('}' :: '}' :: rest)) (hne : kinds ≠ [])
    (hrest : Scans rest kinds') :
    Scans (printAction (word.text.toList ++ ' ' :: inside) ++ rest)
      (actionKinds (.keyword word :: kinds) ++ kinds') := by
  refine scans_action ?_ (List.cons_ne_nil _ _) hrest
  rw [List.append_assoc, List.cons_append]
  exact .token (lexes_keyword (stops_cons (by decide) _)) (h.spaced hne)

theorem scans_else {b : Block ι} {rest : List Char} {kinds : List TokenKind}
    (h : Scans (printBlock b ++ rest) (blockKinds (blockMergeTexts b) ++ kinds)) :
    Scans (printElse b ++ rest) (elseKinds (blockMergeTexts b) ++ kinds) := by
  cases b with
  | nil => exact h
  | cons s b =>
    have hne : blockMergeTexts (s :: b) ≠ [] := joinText_ne_nil _ _
    rw [elseKinds_of_ne_nil hne, List.append_assoc, printElse, List.append_assoc, List.append_assoc]
    rw [printBlock, List.append_assoc] at h
    exact scans_keyword .otherwise h

mutual

theorem scans_stmt {s : Stmt ι} (hs : s.Legible) (htext : ∀ id t, s ≠ .text id t)
    {rest : List Char} (hseparated : s.separated rest = true) {kinds : List TokenKind}
    (hrest : Scans rest kinds) : Scans (s.print ++ rest) (s.mergeTexts.kinds ++ kinds) := by
  match s with
  | .text id t => exact absurd rfl (htext id t)
  | .action _ pipe =>
    exact scans_action (cuts_pipe hs (stops_closing rest)) (kinds_pipe_ne_nil hs) hrest
  | .invoke _ name none =>
    exact scans_phrase .template (.single (lexes_literal name _)) (List.cons_ne_nil _ _) hrest
  | .invoke _ name (some pipe) =>
    have hpipe := (cuts_pipe hs (stops_closing rest)).spaced (kinds_pipe_ne_nil hs)
    have hname := Cuts.token (lexes_literal name _) hpipe
    rw [← List.cons_append, ← List.append_assoc] at hname
    exact scans_phrase .template hname (List.cons_ne_nil _ _) hrest
  | .branch _ kind pipe body elseBody =>
    obtain ⟨hpipe, hbody, helse⟩ := hs
    obtain ⟨hbefore, hbehind⟩ := Bool.and_eq_true _ _ ▸ hseparated
    have hend := scans_keyword .finish hrest
    have helse := scans_else (scans_block helse hbehind (by simp [actionKinds]) hend)
    have hbody := scans_block hbody hbefore elseKinds_append_ne helse
    have hhead := scans_phrase (.branch kind) (cuts_pipe hpipe (stops_closing _))
      (kinds_pipe_ne_nil hpipe) hbody
    simp only [Stmt.print, Stmt.mergeTexts, Stmt.kinds, List.append_assoc]
    exact hhead

theorem scans_block {b : Block ι} (hb : BlockLegible b) {rest : List Char}
    (hseparated : blockSeparated b rest = true) {kinds : List TokenKind}
    (hkinds : ∀ t ks, kinds ≠ .text t :: ks) (hrest : Scans rest kinds) :
    Scans (printBlock b ++ rest) (blockKinds (blockMergeTexts b) ++ kinds) := by
  cases b with
  | nil => exact hrest
  | cons s b =>
    obtain ⟨hs, hb⟩ := hb
    obtain ⟨hbefore, hbehind⟩ := Bool.and_eq_true _ _ ▸ hseparated
    have hscans := scans_block hb hbehind hkinds hrest
    rw [printBlock, List.append_assoc, blockMergeTexts]
    by_cases htext : ∃ id t, s = .text id t
    · obtain ⟨id, t, rfl⟩ := htext
      have hopens : opensIn t.toList (printBlock b ++ rest) = false :=
        Bool.not_eq_true' _ ▸ hbefore
      rw [Stmt.mergeTexts, ← withText_blockKinds hs _ hkinds]
      · exact .text hopens hscans
      · nofun
    · have hother : ∀ id t, s ≠ .text id t := fun id t h => htext ⟨id, t, h⟩
      rw [joinText, blockKinds, List.append_assoc]
      · exact scans_stmt hs hother hbefore hscans
      · exact fun id t _ _ _ heq _ => mergeTexts_ne_text hother id t heq

end

theorem tokens_print {b : Block ι} (hb : BlockLegible b) (hseparated : blockSeparated b [] = true) :
    ∃ ts, tokens (printBlock b) = .ok ts ∧ ts.map Token.kind = blockKinds (blockMergeTexts b) := by
  have hscans := scans_block hb hseparated (by simp) .done
  rw [List.append_nil, List.append_nil] at hscans
  exact hscans.tokensFrom [] rfl

end Lexer

end FlatTemplate

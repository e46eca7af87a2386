import FlatTemplate.ParseError
import FlatTemplate.Proofs.Except
import Mathlib.Data.String.Basic

/-!
Places in source by position, in bytes. What is cut out between two positions begins in front of a
character and ends behind one, or reading stops.
-/

namespace FlatTemplate

theorem byteLength_append (cs cs' : List Char) :
    byteLength (cs ++ cs') = byteLength cs + byteLength cs' := by
  induction cs with
  | nil => simp [byteLength]
  | cons c cs ih => rw [List.cons_append, byteLength, byteLength, ih, Nat.add_assoc]

theorem utf8ByteSize_ofList (cs : List Char) : (String.ofList cs).utf8ByteSize = byteLength cs := by
  rw [String.utf8ByteSize_ofList]
  induction cs with
  | nil => rfl
  | cons c cs ih => rw [String.utf8Len_cons, byteLength, ih, Nat.add_comm]

def At (source : List Char) (n : Nat) (rest : List Char) : Prop :=
  ∃ before, source = before ++ rest ∧ byteLength before = n

namespace At

variable {source rest : List Char} {n : Nat} {c : Char}

theorem zero (source : List Char) : At source 0 source := ⟨[], rfl, rfl⟩

theorem skip {cs : List Char} (h : At source n (cs ++ rest)) :
    At source (n + byteLength cs) rest := by
  obtain ⟨before, rfl, rfl⟩ := h
  exact ⟨before ++ cs, (List.append_assoc ..).symm, byteLength_append ..⟩

theorem tail (h : At source n (c :: rest)) : At source (n + c.utf8Size) rest :=
  skip (show At source n ([c] ++ rest) from h)

theorem next (h : At source n (c :: rest)) (hc : c.utf8Size = 1) : At source (n + 1) rest :=
  hc ▸ h.tail

theorem add_byteLength (h : At source n rest) : n + byteLength rest = byteLength source := by
  obtain ⟨before, rfl, rfl⟩ := h
  exact (byteLength_append ..).symm

theorem isValid {source : String} (h : At source.toList n rest) :
    (⟨n⟩ : String.Pos.Raw).IsValid source := by
  obtain ⟨before, hsource, rfl⟩ := h
  refine String.Pos.Raw.isValid_iff_exists_append.mpr ⟨.ofList before, .ofList rest, ?_, ?_⟩
  · rw [← String.ofList_append, ← hsource, String.ofList_toList]
  · rw [← utf8ByteSize_ofList]
    rfl

end At

def suffixAt? : Nat → List Char → Option (List Char)
  | 0, cs => some cs
  | _ + 1, [] => none
  | n + 1, c :: cs => if c.utf8Size ≤ n + 1 then suffixAt? (n + 1 - c.utf8Size) cs else none

theorem suffixAt?_cons (c : Char) (cs : List Char) (n : Nat) :
    suffixAt? (c.utf8Size + n) (c :: cs) = suffixAt? n cs := by
  obtain ⟨k, hk⟩ := Nat.exists_eq_add_of_lt c.utf8Size_pos
  have hpos : c.utf8Size + n = k + n + 1 := by omega
  rw [hpos, suffixAt?, if_pos (by omega)]
  congr 1
  omega

theorem suffixAt?_eq_some {n : Nat} {cs rest : List Char} :
    suffixAt? n cs = some rest ↔ At cs n rest := by
  constructor
  · intro h
    fun_induction suffixAt? n cs with
    | case1 cs => exact Option.some.inj h ▸ At.zero cs
    | case2 => cases h
    | case3 n c cs hle ih =>
      obtain ⟨before, rfl, hn⟩ := ih h
      refine ⟨c :: before, rfl, ?_⟩
      rw [byteLength, hn]
      omega
    | case4 => cases h
  · rintro ⟨before, rfl, rfl⟩
    induction before with
    | nil => rw [byteLength, suffixAt?, List.nil_append]
    | cons c before ih => rw [List.cons_append, byteLength, suffixAt?_cons, ih]

def prefixTo? (n : Nat) (cs : List Char) : Option (List Char) :=
  (suffixAt? n cs).map fun rest => cs.take (cs.length - rest.length)

theorem prefixTo?_append (before rest : List Char) :
    prefixTo? (byteLength before) (before ++ rest) = some before := by
  rw [prefixTo?, suffixAt?_eq_some.mpr ⟨before, rfl, rfl⟩]
  simp

theorem prefixTo?_eq_some {n : Nat} {cs before : List Char} (h : prefixTo? n cs = some before) :
    ∃ rest, cs = before ++ rest ∧ byteLength before = n := by
  obtain ⟨rest, hrest, htake⟩ := Option.map_eq_some_iff.mp h
  obtain ⟨before', rfl, hn⟩ := suffixAt?_eq_some.mp hrest
  obtain rfl : before' = before := by simpa using htake
  exact ⟨rest, rfl, hn⟩

namespace Cursor

inductive Halt where
  | badSlice
  | badIndex
  | endless
  | failure (cause : ParseCause) (offset : Nat)

abbrev Read := Except Halt

def sliceFrom (n : Nat) (cs : List Char) : Read (List Char) :=
  match suffixAt? n cs with
  | some rest => .ok rest
  | none => .error .badSlice

def slice (n m : Nat) (cs : List Char) : Read (List Char) := do
  let rest ← sliceFrom n cs
  if n ≤ m then
    match prefixTo? (m - n) rest with
    | some text => return text
    | none => throw .badSlice
  else throw .badSlice

theorem sliceFrom_eq_ok {source rest : List Char} {n : Nat} (h : At source n rest) :
    sliceFrom n source = .ok rest := by
  rw [sliceFrom, suffixAt?_eq_some.mpr h]

theorem slice_eq_ok {source text rest : List Char} {n : Nat} (h : At source n (text ++ rest)) :
    slice n (n + byteLength text) source = .ok text := by
  rw [slice, sliceFrom_eq_ok h, ok_bind, if_pos (Nat.le_add_right ..), Nat.add_sub_cancel_left,
    prefixTo?_append]
  rfl

def find? (p : List Char → Bool) : List Char → Option Nat
  | [] => none
  | c :: cs => if p (c :: cs) then some 0 else (find? p cs).map (c.utf8Size + ·)

theorem find?_not (p : Char → Bool) (cs : List Char) :
    (find? (fun rest => rest.head?.any fun c => !p c) cs).getD (byteLength cs) =
      byteLength (cs.takeWhile p) := by
  induction cs with
  | nil => rfl
  | cons c cs ih =>
    rw [find?, List.head?_cons, Option.any_some]
    cases hc : p c with
    | false =>
      rw [List.takeWhile_cons, hc]
      rfl
    | true =>
      rw [List.takeWhile_cons, hc, Bool.not_true, if_neg Bool.false_ne_true, if_pos rfl, byteLength,
        byteLength, ← ih]
      cases find? _ cs <;> rfl

/-- Whether reading by position comes to what reading from the front of a text comes to: to results
that `R` relates, or to the same failure at the same place. -/
inductive Agrees (source : List Char) {α β : Type} (R : α → β → Prop) :
    Read α → Except Failure β → Prop
  | ok {a b} (h : R a b) : Agrees source R (.ok a) (.ok b)
  | failure {cause n start} (h : At source n start) :
    Agrees source R (.error (.failure cause n)) (.error ⟨cause, start⟩)

theorem Agrees.bind {source : List Char} {α β γ δ : Type} {R : α → β → Prop} {S : γ → δ → Prop}
    {x : Read α} {y : Except Failure β} {f : α → Read γ} {g : β → Except Failure δ}
    (h : Agrees source R x y) (hf : ∀ a b, R a b → Agrees source S (f a) (g b)) :
    Agrees source S (x >>= f) (y >>= g) := by
  cases h with
  | ok h => exact hf _ _ h
  | failure h => exact .failure h

theorem Agrees.ite {source : List Char} {α β : Type} {R : α → β → Prop} {p : Prop} [Decidable p]
    {x x' : Read α} {y y' : Except Failure β} (h : p → Agrees source R x y)
    (h' : ¬p → Agrees source R x' y') :
    Agrees source R (if p then x else x') (if p then y else y') := by
  split
  · next hp => exact h hp
  · next hp => exact h' hp

end Cursor

end FlatTemplate

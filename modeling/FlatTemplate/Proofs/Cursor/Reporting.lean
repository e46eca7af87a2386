import FlatTemplate.Proofs.Cursor.Parsing
import FlatTemplate.TemplateSet

namespace FlatTemplate

namespace Cursor

def lastOf? (d : Char) : List Char → Option Nat
  | [] => none
  | c :: cs =>
    match lastOf? d cs with
    | some n => some (c.utf8Size + n)
    | none => if c = d then some 0 else none

def errorAt (source : List Char) (cause : ParseCause) (offset : Nat) : Read ParseError := do
  let offset := min offset (byteLength source)
  let before := (prefixTo? offset source).getD source
  let line ← sliceFrom ((lastOf? '\n' before).elim 0 (· + 1)) before
  return ⟨cause, offset, before.count '\n' + 1, line.length + 1⟩

theorem lastOf?_eq_none {d : Char} {cs : List Char} (h : d ∉ cs) : lastOf? d cs = none := by
  induction cs with
  | nil => rfl
  | cons c cs ih =>
    rw [List.mem_cons, not_or] at h
    rw [lastOf?, ih h.2]
    exact if_neg (Ne.symm h.1)

theorem lastOf?_append {d : Char} {cs : List Char} (h : d ∉ cs) (before : List Char) :
    lastOf? d (before ++ d :: cs) = some (byteLength before) := by
  induction before with
  | nil =>
    rw [List.nil_append, lastOf?, lastOf?_eq_none h]
    exact if_pos rfl
  | cons c before ih => rw [List.cons_append, lastOf?, ih, byteLength]

end Cursor

structure EndsWithLine (text lines line : List Char) : Prop where
  eq : text = lines ++ line
  line : '\n' ∉ line
  lines : lines = [] ∨ ∃ more, lines = more ++ ['\n']

theorem exists_endsWithLine (text : List Char) : ∃ lines line, EndsWithLine text lines line := by
  induction text using List.reverseRecOn with
  | nil => exact ⟨[], [], rfl, List.not_mem_nil, .inl rfl⟩
  | append_singleton text c ih =>
    by_cases hc : c = '\n'
    · exact ⟨text ++ [c], [], (List.append_nil _).symm, List.not_mem_nil, .inr ⟨text, by rw [hc]⟩⟩
    · obtain ⟨lines, line, rfl, hline, hlines⟩ := ih
      refine ⟨lines, line ++ [c], List.append_assoc .., ?_, hlines⟩
      rw [List.mem_append, List.mem_singleton]
      rintro (h | rfl)
      · exact hline h
      · exact hc rfl

namespace EndsWithLine

variable {text lines line : List Char}

theorem lineStart (h : EndsWithLine text lines line) :
    (Cursor.lastOf? '\n' text).elim 0 (· + 1) = byteLength lines := by
  obtain ⟨rfl, hline, rfl | ⟨more, rfl⟩⟩ := h
  · rw [List.nil_append, Cursor.lastOf?_eq_none hline]
    rfl
  · rw [List.append_assoc, List.singleton_append, Cursor.lastOf?_append hline, byteLength_append]
    rfl

theorem length_takeWhile (h : EndsWithLine text lines line) :
    (text.reverse.takeWhile (· ≠ '\n')).length = line.length := by
  obtain ⟨rfl, hline, hlines⟩ := h
  have hall : ∀ c ∈ line.reverse, decide (c ≠ '\n') = true := by
    intro c hc
    rw [decide_eq_true_eq]
    rintro rfl
    exact hline (List.mem_reverse.mp hc)
  have hnone : lines.reverse.takeWhile (· ≠ '\n') = [] := by
    rcases hlines with rfl | ⟨more, rfl⟩
    · rfl
    · rw [List.reverse_append]
      rfl
  rw [List.reverse_append, List.takeWhile_append_of_pos hall, hnone, List.append_nil,
    List.length_reverse]

end EndsWithLine

namespace Cursor

variable {source start : List Char} {offset : Nat}

theorem errorAt_eq_ok (h : At source offset start) (cause : ParseCause) :
    errorAt source cause offset = .ok (.ofFailure source ⟨cause, start⟩) := by
  have hle : offset ≤ byteLength source := h.add_byteLength ▸ Nat.le_add_right ..
  obtain ⟨before, rfl, rfl⟩ := h
  obtain ⟨lines, line, hline⟩ := exists_endsWithLine before
  have hat : At before (byteLength lines) line := ⟨lines, hline.eq, rfl⟩
  have htake : (before ++ start).take ((before ++ start).length - start.length) = before := by simp
  simp only [errorAt, Nat.min_eq_left hle, prefixTo?_append, Option.getD_some, hline.lineStart,
    sliceFrom_eq_ok hat, ok_bind, ParseError.ofFailure, htake, hline.length_takeWhile]
  rfl

end Cursor

/-- The error has its place in the source: in front of a character or at the end, with the line
and the column of that place. -/
structure ParseError.PointsInto (e : ParseError) (source : String) : Prop where
  offset_le : e.offset ≤ source.utf8ByteSize
  isValid : (⟨e.offset⟩ : String.Pos.Raw).IsValid source
  place : ∃ lines line rest, source.toList = lines ++ line ++ rest ∧
    byteLength (lines ++ line) = e.offset ∧ EndsWithLine (lines ++ line) lines line ∧
    e.line = 1 + (lines ++ line).count '\n' ∧ e.column = 1 + line.length

theorem ParseError.ofFailure_pointsInto {source : String} {start : List Char} {offset : Nat}
    (h : At source.toList offset start) (cause : ParseCause) :
    (ofFailure source.toList ⟨cause, start⟩).offset = offset ∧
      (ofFailure source.toList ⟨cause, start⟩).PointsInto source := by
  have hvalid := h.isValid
  have hle := h.add_byteLength
  obtain ⟨before, hsource, rfl⟩ := h
  obtain ⟨lines, line, hline⟩ := exists_endsWithLine before
  have hfailure : ofFailure source.toList ⟨cause, start⟩ =
      ⟨cause, byteLength before, before.count '\n' + 1, line.length + 1⟩ := by
    have htake : source.toList.take (source.toList.length - start.length) = before := by
      simp [hsource]
    simp only [ofFailure, htake, hline.length_takeWhile]
  rw [hfailure]
  refine ⟨rfl, ?_, hvalid, lines, line, start, ?_⟩
  · have hsize : byteLength source.toList = source.utf8ByteSize := by
      rw [← utf8ByteSize_ofList, String.ofList_toList]
    exact hsize ▸ hle ▸ Nat.le_add_right ..
  · rw [← hline.eq]
    exact ⟨hsource, rfl, hline, Nat.add_comm .., Nat.add_comm ..⟩

/-- Reading by position never stops on the way: it ends with the template set or with a failure at
a place in the source, which is the place of the error. -/
theorem TemplateSet.parse_total (name source : String) :
    (∃ s, Cursor.read source.toList = .ok s ∧ parse name source = .ok (ofSource name s)) ∨
    ∃ e, Cursor.read source.toList = .error (.failure e.cause e.offset) ∧
      Cursor.errorAt source.toList e.cause e.offset = .ok e ∧ parse name source = .error e ∧
      e.PointsInto source := by
  have hread := Cursor.read_agrees source.toList
  rw [parse, Source.parse]
  generalize Cursor.read source.toList = x at hread
  generalize Lexer.tokens source.toList >>= Parser.source = y at hread
  cases hread with
  | ok h =>
    subst h
    exact .inl ⟨_, rfl, rfl⟩
  | @failure cause offset start h =>
    obtain ⟨hoffset, hplace⟩ := ParseError.ofFailure_pointsInto h cause
    refine .inr ⟨.ofFailure source.toList ⟨cause, start⟩, ?_, ?_, rfl, hplace⟩
    · rw [hoffset]
      rfl
    · rw [hoffset]
      exact Cursor.errorAt_eq_ok h cause

example : Cursor.read "é\n\x7b\x7b x".toList = .error (.failure .unclosedAction 3) := by rfl

end FlatTemplate

import FlatTemplate.Proofs.Cursor.Lexing
import FlatTemplate.Template.Parser

namespace FlatTemplate.Cursor

open FlatTemplate.Parser (DeclLimit atom? endsCommand declLimit place)

inductive Stop where
  | finish (opened : Nat)
  | otherwise (opened : Nat)
  | exhausted

def name? : TokenKind → Option String
  | .str name => some name
  | _ => none

def declared? : TokenKind → Option String
  | .var [name] => some name
  | _ => none

def fieldFollows? : TokenKind → Option Bool
  | .rightParen fieldFollows => some fieldFollows
  | _ => none

section Definitions

variable (tokens : List Placed)

def peek (n : Nat) : Read Placed :=
  match tokens[n]? with
  | some token => .ok token
  | none => .error .badIndex

def peekNth (n k : Nat) : Read Placed := peek tokens (min (n + k) (tokens.length - 1))

def advance (n : Nat) : Read Nat :=
  if n + 1 < tokens.length then return n + 1 else throw .badIndex

def next (n : Nat) : Read (Placed × Nat) := do
  let token ← peek tokens n
  if token.kind = none then return (token, n) else return (token, ← advance tokens n)

def eat (kind : TokenKind) (n : Nat) : Read (Bool × Nat) := do
  if (← peek tokens n).kind = some kind then return (true, ← advance tokens n)
  else return (false, n)

def unexpected (token : Placed) (context : Context) : Halt :=
  .failure (.unexpected token.kind context) token.offset

def take {α : Type} (fits? : TokenKind → Option α) (context : Context) (n : Nat) :
    Read (α × Nat) := do
  let (token, m) ← next tokens n
  match token.kind.bind fits? with
  | some a => return (a, m)
  | none => throw (unexpected token context)

def expect (kind : TokenKind) (context : Context) (n : Nat) : Read Nat := do
  let (_, m) ← take tokens (fun found => if found = kind then some () else none) context n
  return m

def startsDeclarations (n : Nat) : Read Bool := do
  match (← peek tokens n).kind with
  | some (.var [_]) =>
    match (← peekNth tokens n 1).kind with
    | some .declare | some .comma => return true
    | _ => return false
  | _ => return false

def secondName (limit : DeclLimit) (n : Nat) : Read (String × Nat) := do
  if limit = .two then
    let (name, n) ← take tokens declared? .declaration n
    let token ← peek tokens n
    if token.kind = some .comma then throw (.failure (.tooManyDecls .range) token.offset)
    else return (name, n)
  else throw (.failure (.tooManyDecls .pipeline) (← peek tokens n).offset)

def declarations (limit : DeclLimit) (n : Nat) : Read (List String × Nat) := do
  if ← startsDeclarations tokens n then
    if limit = .none then
      throw (.failure (.unsupported .invocationDecls) (← peek tokens n).offset)
    else
      let (first, n) ← take tokens declared? .declaration n
      let (more, n) ← eat tokens .comma n
      if more then
        let (second, n) ← secondName tokens limit n
        return ([first, second], ← expect tokens .declare .declaration n)
      else return ([first], ← expect tokens .declare .declaration n)
  else return ([], n)

def parenthesis (n : Nat) : Read Nat := do
  let (fieldFollows, m) ← take tokens fieldFollows? .parentheses n
  if fieldFollows then throw (.failure (.unsupported .fieldOfParens) (← peek tokens m).offset)
  else return m

mutual

def pipeline (limit : DeclLimit) : (steps : Nat) → Nat → Read (Pipe Untagged × Nat)
  | 0, _ => throw .endless
  | steps + 1, n => do
    let (decls, n) ← declarations tokens limit n
    let (first, n) ← command steps n
    let (more, n) ← stages steps n
    return (.mk () decls (first :: more), n)

def stages : (steps : Nat) → Nat → Read (List (Command Untagged) × Nat)
  | 0, _ => throw .endless
  | steps + 1, n => do
    let (more, n) ← eat tokens .bar n
    if more then
      let (first, n) ← command steps n
      let (more, n) ← stages steps n
      return (first :: more, n)
    else return ([], n)

def command : (steps : Nat) → Nat → Read (Command Untagged × Nat)
  | 0, _ => throw .endless
  | steps + 1, n => do
    let start := (← peek tokens n).offset
    let (exprs, n) ← operands steps n
    match exprs with
    | [] => throw (.failure .missingCommand start)
    | head :: args => return (.mk () head args, n)

def operands : (steps : Nat) → Nat → Read (List (Expr Untagged) × Nat)
  | 0, _ => throw .endless
  | steps + 1, n => do
    if (← peek tokens n).kind.all endsCommand then return ([], n)
    else
      let (first, n) ← operand steps n
      let (more, n) ← operands steps n
      return (first :: more, n)

def operand : (steps : Nat) → Nat → Read (Expr Untagged × Nat)
  | 0, _ => throw .endless
  | steps + 1, n => do
    let (token, n) ← next tokens n
    match token.kind.bind atom?, token.kind with
    | some a, _ => return (.atom () a, n)
    | none, some .leftParen =>
      let (inner, n) ← pipeline .one steps n
      return (.paren () inner, ← parenthesis tokens n)
    | none, _ => throw (unexpected token .command)

end

def invocation (steps n : Nat) : Read (Stmt Untagged × Nat) := do
  let (name, n) ← take tokens name? .invocation n
  if (← peek tokens n).kind = some .closing then
    return (.invoke () name none, ← expect tokens .closing .invocation n)
  else
    let (pipe, n) ← pipeline tokens .none steps n
    return (.invoke () name (some pipe), ← expect tokens .closing .invocation n)

mutual

def list (nested : Bool) :
    (steps : Nat) → Nat → Read (Block Untagged × List Definition × Stop × Nat)
  | 0, _ => throw .endless
  | steps + 1, n => do
    let (token, n) ← next tokens n
    match token.kind with
    | none => return ([], [], .exhausted, n)
    | some (.text text) =>
      let (more, definitions, stop, n) ← list nested steps n
      return (.text () text :: more, definitions, stop, n)
    | some .opening =>
      match (← peek tokens n).kind with
      | some (.keyword .finish) =>
        let n ← expect tokens .closing .finish (← advance tokens n)
        return ([], [], .finish token.offset, n)
      | some (.keyword .otherwise) =>
        return ([], [], .otherwise token.offset, ← advance tokens n)
      | some (.keyword .define) =>
        let (first, n) ← definition nested token.offset steps (← advance tokens n)
        let (more, definitions, stop, n) ← list nested steps n
        return (more, first :: definitions, stop, n)
      | _ =>
        let (first, n) ← statement token.offset steps n
        let (more, definitions, stop, n) ← list nested steps n
        return (first :: more, definitions, stop, n)
    | _ => throw (unexpected token .template)
termination_by structural steps => steps

def statement (opened : Nat) : (steps : Nat) → Nat → Read (Stmt Untagged × Nat)
  | 0, _ => throw .endless
  | steps + 1, n => do
    match (← peek tokens n).kind with
    | some (.keyword (.branch kind)) => branch kind opened steps (← advance tokens n)
    | some (.keyword .template) => invocation tokens steps (← advance tokens n)
    | _ =>
      let (pipe, n) ← pipeline tokens .one steps n
      return (.action () pipe, ← expect tokens .closing .action n)
termination_by structural steps => steps

def branch (kind : BranchKind) (opened : Nat) : (steps : Nat) → Nat → Read (Stmt Untagged × Nat)
  | 0, _ => throw .endless
  | steps + 1, n => do
    let (pipe, n) ← pipeline tokens (declLimit kind) steps n
    let n ← expect tokens .closing (.branch kind) n
    let (body, _, stop, n) ← list true steps n
    match stop with
    | .finish _ => return (.branch () kind pipe body [], n)
    | .exhausted => throw (.failure (.missingEnd (.branch kind)) opened)
    | .otherwise start =>
      if kind ≠ .range ∧ (← peek tokens n).kind = some (.keyword (.branch kind)) then
        let (chained, n) ← branch kind start steps (← advance tokens n)
        return (.branch () kind pipe body [chained], n)
      else
        let n ← expect tokens .closing .otherwise n
        let (elseBody, _, stop, n) ← list true steps n
        match stop with
        | .finish _ => return (.branch () kind pipe body elseBody, n)
        | .otherwise start => throw (.failure .unexpectedElse start)
        | .exhausted => throw (.failure (.missingEnd (.branch kind)) opened)
termination_by structural steps => steps

def definition (nested : Bool) (opened : Nat) : (steps : Nat) → Nat → Read (Definition × Nat)
  | 0, _ => throw .endless
  | steps + 1, n => do
    if nested then throw (.failure .nestedDefine opened)
    let (name, n) ← take tokens name? .definition n
    let n ← expect tokens .closing .definition n
    let (body, _, stop, n) ← list true steps n
    match stop with
    | .finish _ => return (⟨name, body⟩, n)
    | .otherwise start => throw (.failure .unexpectedElse start)
    | .exhausted => throw (.failure (.missingEnd .define) opened)
termination_by structural steps => steps

end

def whole : Block Untagged × List Definition × Stop × Nat → Read Source
  | (main, definitions, .exhausted, _) => return ⟨main, definitions⟩
  | (_, _, .finish opened, _) => throw (.failure .unexpectedEnd opened)
  | (_, _, .otherwise opened, _) => throw (.failure .unexpectedElse opened)

def source : Read Source := list tokens false (4 * tokens.length) 0 >>= whole

end Definitions

def Ahead (source : List Char) (tokens : List Placed) (n : Nat) (ts : List Token) : Prop :=
  Ended source (tokens.drop n) ts

def Through (source : List Char) (tokens : List Placed) {α : Type} {ts : List Token} (x : α × Nat)
    (y : α × Parser.Rest ts) : Prop := x.1 = y.1 ∧ Ahead source tokens x.2 y.2.1

section Agreement

variable {source : List Char} {tokens : List Placed} {ts : List Token} {token : Token}
  {start : List Char} {kind : TokenKind} {context : Context} {limit : DeclLimit} {steps n : Nat}

theorem Ended.head? {ps : List Placed} (h : Ended source ps ts) :
    ∃ offset, ps[0]? = some ⟨ts.head?.map Token.kind, offset⟩ ∧ At source offset (place ts) := by
  obtain ⟨qs, rfl, hqs⟩ := h
  cases hqs with
  | nil => exact ⟨_, rfl, ⟨source, (List.append_nil source).symm, rfl⟩⟩
  | @cons p t qs ts hp hqs =>
    obtain ⟨kind, offset⟩ := p
    obtain ⟨rfl, hat⟩ := hp
    exact ⟨offset, rfl, hat⟩

theorem Ended.tail {p : Placed} {ps : List Placed} (h : Ended source (p :: ps) (token :: ts)) :
    Ended source ps ts := by
  obtain ⟨qs, hqs, hts⟩ := h
  cases hts with
  | cons hp hts => exact ⟨_, (List.cons.inj hqs).2, hts⟩

namespace Ahead

theorem zero (h : Ended source tokens ts) : Ahead source tokens 0 ts := h

theorem peek (h : Ahead source tokens n ts) :
    ∃ offset, peek tokens n = .ok ⟨ts.head?.map Token.kind, offset⟩ ∧
      At source offset (place ts) := by
  obtain ⟨offset, hhead, hat⟩ := h.head?
  rw [List.getElem?_drop, Nat.add_zero] at hhead
  exact ⟨offset, by rw [Cursor.peek, hhead], hat⟩

theorem peek_cons (h : Ahead source tokens n (token :: ts)) :
    ∃ offset, Cursor.peek tokens n = .ok ⟨some token.kind, offset⟩ ∧
      At source offset token.start := h.peek

theorem lt_length (h : Ahead source tokens n ts) : n < tokens.length := by
  obtain ⟨offset, hpeek, -⟩ := h.head?
  rw [List.getElem?_drop] at hpeek
  exact (List.getElem?_eq_some_iff.mp hpeek).1

theorem succ (h : Ahead source tokens n (token :: ts)) : Ahead source tokens (n + 1) ts := by
  have hlt := lt_length h
  unfold Ahead at h ⊢
  rw [List.drop_eq_getElem_cons hlt] at h
  exact h.tail

theorem advance (h : Ahead source tokens n (token :: ts)) : advance tokens n = .ok (n + 1) :=
  if_pos h.succ.lt_length

theorem peekNth (h : Ahead source tokens n (token :: ts)) :
    Cursor.peekNth tokens n 1 = Cursor.peek tokens (n + 1) := by
  have hlt := h.succ.lt_length
  rw [Cursor.peekNth, Nat.min_eq_left (by omega)]

theorem next_cons (h : Ahead source tokens n (token :: ts)) :
    ∃ offset, next tokens n = .ok (⟨some token.kind, offset⟩, n + 1) ∧
      At source offset token.start := by
  obtain ⟨offset, hpeek, hat⟩ := h.peek_cons
  exact ⟨offset, by simp [Cursor.next, hpeek, h.advance], hat⟩

theorem next_nil (h : Ahead source tokens n []) :
    ∃ offset, Cursor.next tokens n = .ok (⟨none, offset⟩, n) := by
  obtain ⟨offset, hpeek, -⟩ := h.peek
  exact ⟨offset, by rw [Cursor.next, hpeek]; rfl⟩

theorem next (h : Ahead source tokens n ts) :
    ∃ offset m, next tokens n = .ok (⟨ts.head?.map Token.kind, offset⟩, m) ∧
      At source offset (place ts) := by
  cases ts with
  | nil =>
    obtain ⟨offset, hpeek, hat⟩ := h.peek
    exact ⟨offset, n, by rw [Cursor.next, hpeek]; rfl, hat⟩
  | cons token ts =>
    obtain ⟨offset, hnext, hat⟩ := h.next_cons
    exact ⟨offset, n + 1, hnext, hat⟩

theorem eat (h : Ahead source tokens n (⟨kind, start⟩ :: ts)) :
    eat tokens kind n = .ok (true, n + 1) := by
  obtain ⟨offset, hpeek, -⟩ := h.peek_cons
  simp [Cursor.eat, hpeek, h.advance]

theorem head?_ne (hno : ∀ start rest, ts = ⟨kind, start⟩ :: rest → False) :
    ts.head?.map Token.kind ≠ some kind := by
  cases ts with
  | nil => exact nofun
  | cons token ts =>
    obtain ⟨kind', start⟩ := token
    intro h
    obtain rfl := Option.some.inj h
    exact hno start ts rfl

theorem eat_eq_false (h : Ahead source tokens n ts) (kind : TokenKind)
    (hno : ∀ start rest, ts = ⟨kind, start⟩ :: rest → False) :
    Cursor.eat tokens kind n = .ok (false, n) := by
  obtain ⟨offset, hpeek, -⟩ := h.peek
  simp [Cursor.eat, hpeek, head?_ne hno]

theorem take {α : Type} {fits? : TokenKind → Option α} {a : α}
    (h : Ahead source tokens n (token :: ts)) (hfits : fits? token.kind = some a) :
    take tokens fits? context n = .ok (a, n + 1) := by
  obtain ⟨offset, hnext, -⟩ := h.next_cons
  simp [Cursor.take, hnext, hfits]

theorem take_eq_error {α : Type} {fits? : TokenKind → Option α} (h : Ahead source tokens n ts)
    (context : Context) (hno : ∀ kind start rest, ts = ⟨kind, start⟩ :: rest → fits? kind = none) :
    ∃ offset, Cursor.take tokens fits? context n =
      .error (.failure (Parser.unexpected ts context).cause offset) ∧
      At source offset (Parser.unexpected ts context).start := by
  obtain ⟨offset, m, hnext, hat⟩ := h.next
  have hnone : (ts.head?.map Token.kind).bind fits? = none := by
    cases ts with
    | nil => rfl
    | cons token ts => exact hno token.kind token.start ts rfl
  refine ⟨offset, ?_, hat⟩
  simp only [Cursor.take, hnext, ok_bind, hnone]
  rfl

theorem expect (h : Ahead source tokens n (⟨kind, start⟩ :: ts)) :
    expect tokens kind context n = .ok (n + 1) := by
  rw [Cursor.expect, h.take (if_pos rfl)]
  rfl

theorem expect_eq_error (h : Ahead source tokens n ts) (kind : TokenKind) (context : Context)
    (hno : ∀ start rest, ts = ⟨kind, start⟩ :: rest → False) :
    ∃ offset, Cursor.expect tokens kind context n =
      .error (.failure (Parser.unexpected ts context).cause offset) ∧
      At source offset (Parser.unexpected ts context).start := by
  obtain ⟨offset, heq, hat⟩ := h.take_eq_error context fun kind' start rest hts =>
    if_neg (show kind' ≠ kind from fun hkind => hno start rest (hkind ▸ hts))
  exact ⟨offset, by rw [Cursor.expect, heq]; rfl, hat⟩

theorem take_name {name : String} (h : Ahead source tokens n (⟨.str name, start⟩ :: ts)) :
    Cursor.take tokens name? context n = .ok (name, n + 1) := h.take rfl

theorem take_declared {name : String} (h : Ahead source tokens n (⟨.var [name], start⟩ :: ts)) :
    Cursor.take tokens declared? context n = .ok (name, n + 1) := h.take rfl

theorem take_fieldFollows {fieldFollows : Bool}
    (h : Ahead source tokens n (⟨.rightParen fieldFollows, start⟩ :: ts)) :
    Cursor.take tokens fieldFollows? context n = .ok (fieldFollows, n + 1) := h.take rfl

theorem name?_eq_none (hno : ∀ name, kind ≠ .str name) : name? kind = none := by
  unfold name?
  split
  · exact absurd rfl (hno _)
  · rfl

theorem declared?_eq_none (hno : ∀ name, kind ≠ .var [name]) : declared? kind = none := by
  unfold declared?
  split
  · exact absurd rfl (hno _)
  · rfl

theorem fieldFollows?_eq_none (hno : ∀ fieldFollows, kind ≠ .rightParen fieldFollows) :
    fieldFollows? kind = none := by
  unfold fieldFollows?
  split
  · exact absurd rfl (hno _)
  · rfl

theorem startsDeclarations {name : String} {start' : List Char}
    (hkind : kind = .declare ∨ kind = .comma)
    (h : Ahead source tokens n (⟨.var [name], start⟩ :: ⟨kind, start'⟩ :: ts)) :
    startsDeclarations tokens n = .ok true := by
  obtain ⟨offset, hpeek, -⟩ := h.peek_cons
  obtain ⟨offset', hpeek', -⟩ := h.succ.peek_cons
  rcases hkind with rfl | rfl <;>
    simp [Cursor.startsDeclarations, hpeek, h.peekNth, hpeek']

theorem startsDeclarations_eq_false (h : Ahead source tokens n ts)
    (hdeclare : ∀ name start start' rest,
      ts = ⟨.var [name], start⟩ :: ⟨.declare, start'⟩ :: rest → False)
    (hcomma : ∀ name start start' rest,
      ts = ⟨.var [name], start⟩ :: ⟨.comma, start'⟩ :: rest → False) :
    Cursor.startsDeclarations tokens n = .ok false := by
  obtain ⟨offset, hpeek, -⟩ := h.peek
  rw [Cursor.startsDeclarations, hpeek, ok_bind]
  split
  · next name heq =>
    cases ts with
    | nil => cases heq
    | cons token ts =>
      obtain ⟨kind, start⟩ := token
      obtain rfl := Option.some.inj heq
      obtain ⟨offset', hpeek', -⟩ := h.succ.peek
      rw [h.peekNth, hpeek', ok_bind]
      split
      · next heq =>
        exact absurd heq (head?_ne fun start' rest hts => hdeclare _ _ _ _ (by rw [hts]))
      · next heq =>
        exact absurd heq (head?_ne fun start' rest hts => hcomma _ _ _ _ (by rw [hts]))
      · rfl
  · rfl

theorem secondName {name : String} (h : Ahead source tokens n (⟨.var [name], start⟩ :: ts))
    (hno : ∀ start rest, ts = ⟨.comma, start⟩ :: rest → False) :
    secondName tokens .two n = .ok (name, n + 1) := by
  obtain ⟨offset, hpeek, -⟩ := h.succ.peek
  simp [Cursor.secondName, h.take_declared, hpeek, head?_ne hno]

end Ahead

theorem Agrees.close {β γ : Type} {S : β → γ → Prop} {f : Nat → Read β}
    {g : Parser.Fewer ts → Except Failure γ} (h : Ahead source tokens n ts)
    (hf : ∀ m rest (hlt : rest.length < ts.length), Ahead source tokens m rest →
      Agrees source S (f m) (g ⟨rest, hlt⟩)) :
    Agrees source S (expect tokens .closing context n >>= f) (Parser.close context ts >>= g) := by
  unfold Parser.close
  split
  · rw [h.expect]
    exact hf _ _ _ h.succ
  · next hno =>
    obtain ⟨offset, heq, hat⟩ := h.expect_eq_error .closing context hno
    rw [heq]
    exact .failure hat

theorem declarations_agrees (h : Ahead source tokens n ts) :
    Agrees source (Through source tokens) (declarations tokens limit n)
      (Parser.declarations limit ts) := by
  unfold Parser.declarations
  split
  · next name start start' rest =>
    obtain ⟨offset, hpeek, hat⟩ := h.peek_cons
    rw [declarations, h.startsDeclarations (.inl rfl), ok_bind, if_pos rfl]
    cases limit with
    | none =>
      rw [if_pos rfl, hpeek]
      exact .failure hat
    | one | two =>
      have heat := h.succ.eat_eq_false .comma nofun
      simp only [h.take_declared, heat, h.succ.expect, ok_bind]
      exact .ok ⟨rfl, h.succ.succ⟩
  · next first start start' rest =>
    have hrest := h.succ.succ
    -- Behind a comma, both readers have declared the first name and look for a second.
    have hdeclares (hlimit : limit ≠ .none) : declarations tokens limit n = (do
        let (second, n) ← secondName tokens limit (n + 1 + 1)
        return ([first, second], ← expect tokens .declare .declaration n)) := by
      rw [declarations, h.startsDeclarations (.inr rfl), ok_bind, if_pos rfl, if_neg hlimit,
        h.take_declared]
      simp only [ok_bind, h.succ.eat]
      rfl
    split
    · obtain ⟨offset, hpeek, hat⟩ := h.peek_cons
      rw [declarations, h.startsDeclarations (.inr rfl), ok_bind, if_pos rfl, if_pos rfl, hpeek]
      exact .failure hat
    · obtain ⟨offset, hpeek, hat⟩ := hrest.peek
      rw [hdeclares nofun, secondName, hpeek]
      exact .failure hat
    · obtain ⟨offset, hpeek, hat⟩ := hrest.succ.peek_cons
      rw [hdeclares nofun, secondName, hrest.take_declared]
      simp only [ok_bind, hpeek]
      exact .failure hat
    · simp only [hdeclares nofun, hrest.secondName nofun, hrest.succ.expect, ok_bind]
      exact .ok ⟨rfl, hrest.succ.succ⟩
    · next hcomma hdeclare =>
      obtain ⟨offset, heq, hat⟩ := hrest.succ.expect_eq_error .declare .declaration hdeclare
      simp only [hdeclares nofun, hrest.secondName hcomma, heq, ok_bind]
      exact .failure hat
    · next hsecond =>
      obtain ⟨offset, heq, hat⟩ := hrest.take_eq_error .declaration fun kind start rest' hts =>
        Ahead.declared?_eq_none fun name hkind => hsecond name start rest' (hkind ▸ hts)
      simp only [hdeclares nofun, secondName, heq]
      exact .failure hat
  · next hdeclare hcomma =>
    rw [declarations, h.startsDeclarations_eq_false hdeclare hcomma]
    exact .ok ⟨rfl, h⟩

theorem Agrees.through {α β γ : Type} {S : β → γ → Prop} {x : Read (α × Nat)}
    {y : Except Failure (α × Parser.Rest ts)} {f : α × Nat → Read β}
    {g : α × Parser.Rest ts → Except Failure γ} (h : Agrees source (Through source tokens) x y)
    (hf : ∀ a n rest (hle : rest.length ≤ ts.length), Ahead source tokens n rest →
      Agrees source S (f (a, n)) (g (a, ⟨rest, hle⟩))) :
    Agrees source S (x >>= f) (y >>= g) := by
  refine h.bind ?_
  rintro ⟨a, n⟩ ⟨_, rest, hle⟩ ⟨rfl, hn⟩
  exact hf a n rest hle hn

structure PipelinesAgree (source : List Char) (tokens : List Placed) (steps : Nat) : Prop where
  pipeline : ∀ {limit n ts}, 4 * ts.length + 3 < steps → Ahead source tokens n ts →
    Agrees source (Through source tokens) (pipeline tokens limit steps n)
      (Parser.pipeline limit ts)
  stages : ∀ {n ts}, 4 * ts.length + 2 < steps → Ahead source tokens n ts →
    Agrees source (Through source tokens) (stages tokens steps n) (Parser.stages ts)
  command : ∀ {n ts}, 4 * ts.length + 2 < steps → Ahead source tokens n ts →
    Agrees source (Through source tokens) (command tokens steps n) (Parser.command ts)
  operands : ∀ {n ts}, 4 * ts.length + 1 < steps → Ahead source tokens n ts →
    Agrees source (Through source tokens) (operands tokens steps n) (Parser.operands ts)
  operand : ∀ {n token ts}, 4 * ts.length + 4 < steps → Ahead source tokens n (token :: ts) →
    Agrees source (Through source tokens) (operand tokens steps n) (Parser.operand token ts)

section

variable (ih : PipelinesAgree source tokens steps)
include ih

theorem pipeline_step (hsteps : 4 * ts.length + 3 < steps + 1) (h : Ahead source tokens n ts) :
    Agrees source (Through source tokens) (pipeline tokens limit (steps + 1) n)
      (Parser.pipeline limit ts) := by
  rw [Cursor.pipeline, Parser.pipeline]
  refine (declarations_agrees h).through fun decls n₁ rest₁ h₁ hn₁ => ?_
  refine (ih.command (by omega) hn₁).through fun first n₂ rest₂ h₂ hn₂ => ?_
  refine (ih.stages (by omega) hn₂).through fun more n₃ rest₃ h₃ hn₃ => ?_
  exact .ok ⟨rfl, hn₃⟩

theorem stages_step (hsteps : 4 * ts.length + 2 < steps + 1) (h : Ahead source tokens n ts) :
    Agrees source (Through source tokens) (stages tokens (steps + 1) n)
      (Parser.stages ts) := by
  unfold Parser.stages
  split
  · next start ts =>
    rw [List.length_cons] at hsteps
    simp only [Cursor.stages, h.eat, ok_bind]
    refine (ih.command (by omega) h.succ).through fun first n₁ rest₁ h₁ hn₁ => ?_
    refine (ih.stages (by omega) hn₁).through fun more n₂ rest₂ h₂ hn₂ => ?_
    exact .ok ⟨rfl, hn₂⟩
  · next hno =>
    simp only [Cursor.stages, h.eat_eq_false .bar hno, ok_bind]
    exact .ok ⟨rfl, h⟩

theorem command_step (hsteps : 4 * ts.length + 2 < steps + 1) (h : Ahead source tokens n ts) :
    Agrees source (Through source tokens) (command tokens (steps + 1) n)
      (Parser.command ts) := by
  obtain ⟨start, hpeek, hat⟩ := h.peek
  rw [Cursor.command, Parser.command, hpeek, ok_bind]
  refine (ih.operands (by omega) h).through fun exprs n₁ rest₁ h₁ hn₁ => ?_
  cases exprs with
  | nil => exact .failure hat
  | cons head args => exact .ok ⟨rfl, hn₁⟩

theorem operands_step (hsteps : 4 * ts.length + 1 < steps + 1) (h : Ahead source tokens n ts) :
    Agrees source (Through source tokens) (operands tokens (steps + 1) n)
      (Parser.operands ts) := by
  obtain ⟨offset, hpeek, -⟩ := h.peek
  rw [Cursor.operands, hpeek, ok_bind]
  cases ts with
  | nil =>
    rw [Parser.operands]
    exact .ok ⟨rfl, h⟩
  | cons token ts =>
    rw [List.length_cons] at hsteps
    rw [Parser.operands]
    refine .ite (fun _ => .ok ⟨rfl, h⟩) fun _ => ?_
    refine (ih.operand (by omega) h).through fun first n₁ rest₁ h₁ hn₁ => ?_
    refine (ih.operands (by omega) hn₁).through fun more n₂ rest₂ h₂ hn₂ => ?_
    exact .ok ⟨rfl, hn₂⟩

theorem operand_step (hsteps : 4 * ts.length + 4 < steps + 1)
    (h : Ahead source tokens n (token :: ts)) :
    Agrees source (Through source tokens) (operand tokens (steps + 1) n)
      (Parser.operand token ts) := by
  obtain ⟨offset, hnext, hat⟩ := h.next_cons
  unfold Parser.operand
  split
  · next a ha =>
    simp only [Cursor.operand, hnext, ok_bind, Option.bind_some, ha]
    exact .ok ⟨rfl, h.succ⟩
  · next ha =>
    simp only [Cursor.operand, hnext, ok_bind, Option.bind_some, ha]
    obtain ⟨kind, start⟩ := token
    cases kind
    case leftParen =>
      refine (ih.pipeline (by omega) h.succ).through fun inner n₁ rest₁ h₁ hn₁ => ?_
      simp only
      split
      · next fieldFollows start rest₁ h₁ =>
        obtain ⟨offset', hpeek, hat'⟩ := hn₁.succ.peek
        simp only [parenthesis, hn₁.take_fieldFollows, ok_bind, hpeek]
        cases fieldFollows with
        | false => exact .ok ⟨rfl, hn₁.succ⟩
        | true => exact .failure hat'
      · next hno =>
        -- What follows is no closing parenthesis, of either kind.
        have hopen : ∀ kind start rest, rest₁ = ⟨kind, start⟩ :: rest →
            fieldFollows? kind = none := by
          rintro kind start rest rfl
          refine Ahead.fieldFollows?_eq_none ?_
          rintro fieldFollows rfl
          exact hno fieldFollows start rest h₁ rfl HEq.rfl
        obtain ⟨offset', heq, hat'⟩ := hn₁.take_eq_error .parentheses hopen
        rw [parenthesis, heq]
        exact .failure hat'
    all_goals exact .failure hat

end

theorem pipelinesAgree (source : List Char) (tokens : List Placed) (steps : Nat) :
    PipelinesAgree source tokens steps := by
  induction steps with
  | zero => constructor <;> intros <;> omega
  | succ steps ih =>
    exact ⟨pipeline_step ih, stages_step ih, command_step ih, operands_step ih, operand_step ih⟩

theorem pipeline_agrees (hsteps : 4 * ts.length + 3 < steps) (h : Ahead source tokens n ts) :
    Agrees source (Through source tokens) (pipeline tokens limit steps n)
      (Parser.pipeline limit ts) :=
  (pipelinesAgree source tokens steps).pipeline hsteps h

theorem invocation_agrees (hsteps : 4 * ts.length < steps) (h : Ahead source tokens n ts) :
    Agrees source (Through source tokens) (invocation tokens steps n) (Parser.invocation ts) := by
  unfold Parser.invocation
  split
  · next name start start' rest =>
    obtain ⟨offset, hpeek, -⟩ := h.succ.peek_cons
    simp only [invocation, h.take_name, ok_bind, hpeek, if_pos, h.succ.expect]
    exact .ok ⟨rfl, h.succ.succ⟩
  · next name start rest hno =>
    rw [List.length_cons] at hsteps
    obtain ⟨offset, hpeek, -⟩ := h.succ.peek
    simp only [invocation, h.take_name, ok_bind, hpeek, if_neg (Ahead.head?_ne hno)]
    refine (pipeline_agrees (by omega) h.succ).through fun pipe n₁ rest₁ h₁ hn₁ => ?_
    refine .close hn₁ fun n₂ rest₂ h₂ hn₂ => ?_
    exact .ok ⟨rfl, hn₂⟩
  · next hclosed hno =>
    obtain ⟨offset, heq, hat⟩ := h.take_eq_error .invocation fun kind start rest hts =>
      Ahead.name?_eq_none fun name hkind => hno name start rest (hkind ▸ hts)
    rw [invocation, heq]
    exact .failure hat

inductive Ends (source : List Char) : Stop → Parser.Stop → Prop
  | finish {opened} : Ends source (.finish opened) .finish
  | otherwise {opened start} (h : At source opened start) :
    Ends source (.otherwise opened) (.otherwise start)
  | exhausted : Ends source .exhausted .exhausted

def Closes (source : List Char) (tokens : List Placed) {ts : List Token}
    (x : Block Untagged × List Definition × Stop × Nat)
    (y : Block Untagged × Parser.Stop × Parser.Rest ts) : Prop :=
  x.1 = y.1 ∧ Ends source x.2.2.1 y.2.1 ∧ Ahead source tokens x.2.2.2 y.2.2.1

theorem Agrees.closes {β γ : Type} {S : β → γ → Prop}
    {x : Read (Block Untagged × List Definition × Stop × Nat)}
    {y : Except Failure (Block Untagged × Parser.Stop × Parser.Rest ts)}
    {f : Block Untagged × List Definition × Stop × Nat → Read β}
    {g : Block Untagged × Parser.Stop × Parser.Rest ts → Except Failure γ}
    (h : Agrees source (Closes source tokens) x y)
    (hf : ∀ b ds stop stop' n rest (hle : rest.length ≤ ts.length), Ends source stop stop' →
      Ahead source tokens n rest →
      Agrees source S (f (b, ds, stop, n)) (g (b, stop', ⟨rest, hle⟩))) :
    Agrees source S (x >>= f) (y >>= g) := by
  refine h.bind ?_
  rintro ⟨b, ds, stop, n⟩ ⟨_, stop', rest, hle⟩ ⟨rfl, hstop, hn⟩
  exact hf b ds stop stop' n rest hle hstop hn

theorem list_statement {nested : Bool} {opened : List Char}
    (h : Ahead source tokens n (⟨.opening, opened⟩ :: ts))
    (hfinish : ∀ start rest, ts = ⟨.keyword .finish, start⟩ :: rest → False)
    (hotherwise : ∀ start rest, ts = ⟨.keyword .otherwise, start⟩ :: rest → False)
    (hdefine : ∀ start rest, ts = ⟨.keyword .define, start⟩ :: rest → False) :
    ∃ offset, At source offset opened ∧ list tokens nested (steps + 1) n = (do
      let (first, n) ← statement tokens offset steps (n + 1)
      let (more, definitions, stop, n) ← list tokens nested steps n
      return (first :: more, definitions, stop, n)) := by
  obtain ⟨offset, hnext, hat⟩ := h.next_cons
  obtain ⟨_, hpeek, -⟩ := h.succ.peek
  refine ⟨offset, hat, ?_⟩
  simp only [list, hnext, hpeek, ok_bind]
  split
  · next heq => exact absurd heq (Ahead.head?_ne hfinish)
  · next heq => exact absurd heq (Ahead.head?_ne hotherwise)
  · next heq => exact absurd heq (Ahead.head?_ne hdefine)
  · rfl

theorem list_eq_error {nested : Bool} (h : Ahead source tokens n ts) (hnil : ts ≠ [])
    (htext : ∀ text start rest, ts = ⟨.text text, start⟩ :: rest → False)
    (hopening : ∀ start rest, ts = ⟨.opening, start⟩ :: rest → False) :
    ∃ offset, list tokens nested (steps + 1) n =
      .error (.failure (Parser.unexpected ts .template).cause offset) ∧
      At source offset (Parser.unexpected ts .template).start := by
  obtain ⟨offset, m, hnext, hat⟩ := h.next
  refine ⟨offset, ?_, hat⟩
  simp only [list, hnext, ok_bind]
  split
  · next heq =>
    exact absurd (List.head?_eq_none_iff.mp (Option.map_eq_none_iff.mp heq)) hnil
  · next text heq => exact absurd heq (Ahead.head?_ne (htext text))
  · next heq => exact absurd heq (Ahead.head?_ne hopening)
  · rfl

theorem statement_action {opened : Nat} (h : Ahead source tokens n ts)
    (hbranch : ∀ kind start rest, ts = ⟨.keyword (.branch kind), start⟩ :: rest → False)
    (htemplate : ∀ start rest, ts = ⟨.keyword .template, start⟩ :: rest → False) :
    Cursor.statement tokens opened (steps + 1) n = (do
      let (pipe, n) ← pipeline tokens .one steps n
      return (.action () pipe, ← expect tokens .closing .action n)) := by
  obtain ⟨_, hpeek, -⟩ := h.peek
  simp only [Cursor.statement, hpeek, ok_bind]
  split
  · next kind hkind => exact absurd hkind (Ahead.head?_ne (hbranch kind))
  · next hkind => exact absurd hkind (Ahead.head?_ne htemplate)
  · rfl

structure StatementsAgree (source : List Char) (tokens : List Placed) (steps : Nat) : Prop where
  block : ∀ {n ts}, 4 * ts.length + 1 < steps → Ahead source tokens n ts →
    Agrees source (Closes source tokens) (list tokens true steps n) (Parser.block ts)
  statement : ∀ {opened start n ts}, 4 * ts.length + 4 < steps → At source opened start →
    Ahead source tokens n ts → Agrees source (Through source tokens)
      (statement tokens opened steps n) (Parser.statement start ts)
  branch : ∀ {kind opened start n ts}, 4 * ts.length + 4 < steps → At source opened start →
    Ahead source tokens n ts → Agrees source (Through source tokens)
      (branch tokens kind opened steps n) (Parser.branch kind start ts)

section

variable (ih : StatementsAgree source tokens steps)
include ih

theorem block_step (hsteps : 4 * ts.length + 1 < steps + 1) (h : Ahead source tokens n ts) :
    Agrees source (Closes source tokens) (list tokens true (steps + 1) n)
      (Parser.block ts) := by
  unfold Parser.block
  split
  · obtain ⟨offset, hnext⟩ := h.next_nil
    rw [list, hnext]
    exact .ok ⟨rfl, .exhausted, h⟩
  · next text start ts =>
    rw [List.length_cons] at hsteps
    obtain ⟨offset, hnext, -⟩ := h.next_cons
    simp only [list, hnext, ok_bind]
    refine (ih.block (by omega) h.succ).closes
      fun more ds stop stop' n₁ rest₁ h₁ hstop hn₁ => ?_
    exact .ok ⟨rfl, hstop, hn₁⟩
  · next opened ts =>
    rw [List.length_cons] at hsteps
    obtain ⟨offset, hnext, hat⟩ := h.next_cons
    split
    · next start ts =>
      obtain ⟨_, hpeek, -⟩ := h.succ.peek_cons
      simp only [list, hnext, ok_bind, hpeek, h.succ.advance]
      refine .close h.succ.succ fun n₁ rest₁ h₁ hn₁ => ?_
      exact .ok ⟨rfl, .finish, hn₁⟩
    · next start ts =>
      obtain ⟨_, hpeek, -⟩ := h.succ.peek_cons
      simp only [list, hnext, ok_bind, hpeek, h.succ.advance]
      exact .ok ⟨rfl, .otherwise hat, h.succ.succ⟩
    · next start ts =>
      obtain ⟨_, hpeek, -⟩ := h.succ.peek_cons
      simp only [list, hnext, ok_bind, hpeek, h.succ.advance]
      cases steps with
      | zero => omega
      | succ steps => exact .failure hat
    · next hfinish hotherwise hdefine =>
      obtain ⟨offset, hat, heq⟩ := list_statement h hfinish hotherwise hdefine
      rw [heq]
      refine (ih.statement (by omega) hat h.succ).through fun first n₁ rest₁ h₁ hn₁ => ?_
      refine (ih.block (by omega) hn₁).closes
        fun more ds stop stop' n₂ rest₂ h₂ hstop hn₂ => ?_
      exact .ok ⟨rfl, hstop, hn₂⟩
  · next hnil htext hopening =>
    obtain ⟨offset, heq, hat⟩ := list_eq_error h hnil htext hopening
    rw [heq]
    exact .failure hat

theorem statement_step {opened : Nat} (hsteps : 4 * ts.length + 4 < steps + 1)
    (hopened : At source opened start) (h : Ahead source tokens n ts) :
    Agrees source (Through source tokens) (statement tokens opened (steps + 1) n)
      (Parser.statement start ts) := by
  unfold Parser.statement
  split
  · next kind start' ts =>
    rw [List.length_cons] at hsteps
    obtain ⟨_, hpeek, -⟩ := h.peek_cons
    simp only [Cursor.statement, hpeek, ok_bind, h.advance]
    rw [← bind_pure (Cursor.branch tokens kind opened steps (n + 1))]
    refine (ih.branch (by omega) hopened h.succ).through fun s n₁ rest₁ h₁ hn₁ => ?_
    exact .ok ⟨rfl, hn₁⟩
  · next start' ts =>
    rw [List.length_cons] at hsteps
    obtain ⟨_, hpeek, -⟩ := h.peek_cons
    simp only [Cursor.statement, hpeek, ok_bind, h.advance]
    rw [← bind_pure (invocation tokens steps (n + 1))]
    refine (invocation_agrees (by omega) h.succ).through fun s n₁ rest₁ h₁ hn₁ => ?_
    exact .ok ⟨rfl, hn₁⟩
  · next hbranch htemplate =>
    rw [statement_action h hbranch htemplate]
    refine (pipeline_agrees (by omega) h).through fun pipe n₁ rest₁ h₁ hn₁ => ?_
    refine .close hn₁ fun n₂ rest₂ h₂ hn₂ => ?_
    exact .ok ⟨rfl, hn₂⟩

theorem branch_step {kind : BranchKind} {opened : Nat}
    (hsteps : 4 * ts.length + 4 < steps + 1) (hopened : At source opened start)
    (h : Ahead source tokens n ts) :
    Agrees source (Through source tokens) (branch tokens kind opened (steps + 1) n)
      (Parser.branch kind start ts) := by
  rw [Cursor.branch, Parser.branch]
  refine (pipeline_agrees (by omega) h).through fun pipe n₁ rest₁ h₁ hn₁ => ?_
  refine .close hn₁ fun n₂ rest₂ h₂ hn₂ => ?_
  refine (ih.block (by omega) hn₂).closes fun body ds stop stop' n₃ rest₃ h₃ hstop hn₃ => ?_
  cases hstop with
  | finish => exact .ok ⟨rfl, hn₃⟩
  | exhausted => exact .failure hopened
  | otherwise helse =>
    obtain ⟨_, hpeek, -⟩ := hn₃.peek
    -- Both readers look behind the else for the keyword of the same statement.
    simp only [hpeek, ok_bind]
    split
    · next hchain =>
      obtain ⟨hrange, hhead⟩ := hchain
      cases rest₃ with
      | nil => cases hhead
      | cons token rest₄ =>
        obtain ⟨kind', start'⟩ := token
        obtain rfl := Option.some.inj hhead
        rw [List.length_cons] at h₃
        simp only [hn₃.advance, ok_bind]
        rw [if_pos ⟨trivial, hrange⟩]
        refine (ih.branch (by omega) helse hn₃.succ).through fun chained n₄ rest₅ h₅ hn₄ => ?_
        exact .ok ⟨rfl, hn₄⟩
    · next hchain =>
      split
      · next kind' start' rest₄ h₃ =>
        have hno : ¬(kind' = kind ∧ kind ≠ .range) := by
          rintro ⟨rfl, hrange⟩
          exact hchain ⟨hrange, rfl⟩
        obtain ⟨offset, heq, hat⟩ := hn₃.expect_eq_error .closing .otherwise
          (by rintro _ _ ⟨⟩)
        rw [if_neg hno, heq]
        exact .failure hat
      · refine .close hn₃ fun n₄ rest₄ h₄ hn₄ => ?_
        refine (ih.block (by omega) hn₄).closes
          fun elseBody ds' stop stop' n₅ rest₅ h₅ hstop' hn₅ => ?_
        cases hstop' with
        | finish => exact .ok ⟨rfl, hn₅⟩
        | otherwise helse' => exact .failure helse'
        | exhausted => exact .failure hopened

end

theorem statementsAgree (source : List Char) (tokens : List Placed) (steps : Nat) :
    StatementsAgree source tokens steps := by
  induction steps with
  | zero => constructor <;> intros <;> omega
  | succ steps ih => exact ⟨block_step ih, statement_step ih, branch_step ih⟩

theorem definition_agrees {opened : Nat} (hsteps : 4 * ts.length + 1 < steps)
    (hopened : At source opened start) (h : Ahead source tokens n ts) :
    Agrees source (Through source tokens) (definition tokens false opened steps n)
      (Parser.definition start ts) := by
  cases steps with
  | zero => omega
  | succ steps =>
    unfold Parser.definition
    split
    · next name start' rest =>
      rw [List.length_cons] at hsteps
      simp only [definition, h.take_name, ok_bind, if_neg Bool.false_ne_true]
      refine .close h.succ fun n₁ rest₁ h₁ hn₁ => ?_
      refine ((statementsAgree source tokens steps).block (by omega) hn₁).closes
        fun body ds stop stop' n₂ rest₂ h₂ hstop hn₂ => ?_
      cases hstop with
      | finish => exact .ok ⟨rfl, hn₂⟩
      | otherwise helse => exact .failure helse
      | exhausted => exact .failure hopened
    · next hno =>
      obtain ⟨offset, heq, hat⟩ := h.take_eq_error .definition fun kind start rest hts =>
      Ahead.name?_eq_none fun name hkind => hno name start rest (hkind ▸ hts)
      rw [definition, if_neg Bool.false_ne_true, heq]
      exact .failure hat

theorem Agrees.behind {x : Read (Block Untagged × List Definition × Stop × Nat)}
    {y : Except Failure Source} (h : Agrees source Eq (x >>= whole) y)
    (f : Block Untagged → Block Untagged) (g : List Definition → List Definition) :
    Agrees source Eq
      ((do let (more, definitions, stop, n) ← x; return (f more, g definitions, stop, n)) >>= whole)
      (do let ⟨main, definitions⟩ ← y; return ⟨f main, g definitions⟩) := by
  cases x with
  | error halt =>
    cases h with
    | failure h => exact .failure h
  | ok x =>
    obtain ⟨b, ds, stop, n⟩ := x
    cases stop <;> cases h
    case exhausted.ok h => exact .ok (h ▸ rfl)
    all_goals exact .failure ‹_›

theorem source_agrees (hsteps : 4 * ts.length + 1 < steps) (h : Ahead source tokens n ts) :
    Agrees source Eq (list tokens false steps n >>= whole) (Parser.source ts) := by
  -- A source is read as a block is, but it ends with the tokens and may hold definitions.
  induction steps generalizing n ts with
  | zero => omega
  | succ steps ih =>
    unfold Parser.source
    split
    · obtain ⟨offset, hnext⟩ := h.next_nil
      rw [list, hnext]
      exact .ok rfl
    · next text start ts =>
      rw [List.length_cons] at hsteps
      obtain ⟨offset, hnext, -⟩ := h.next_cons
      simp only [list, hnext, ok_bind]
      exact (ih (by omega) h.succ).behind (.text () text :: ·) id
    · next opened ts =>
      rw [List.length_cons] at hsteps
      obtain ⟨offset, hnext, hat⟩ := h.next_cons
      split
      · next start ts =>
        obtain ⟨_, hpeek, -⟩ := h.succ.peek_cons
        simp only [list, hnext, ok_bind, hpeek, h.succ.advance, bind_assoc]
        refine .close h.succ.succ fun n₁ rest₁ h₁ hn₁ => ?_
        exact .failure hat
      · next start ts =>
        obtain ⟨_, hpeek, -⟩ := h.succ.peek_cons
        simp only [list, hnext, ok_bind, hpeek, h.succ.advance]
        exact .failure hat
      · next start ts =>
        rw [List.length_cons] at hsteps
        obtain ⟨_, hpeek, -⟩ := h.succ.peek_cons
        simp only [list, hnext, ok_bind, hpeek, h.succ.advance]
        rw [bind_assoc]
        refine (definition_agrees (by omega) hat h.succ.succ).through
          fun first n₁ rest₁ h₁ hn₁ => ?_
        exact (ih (by omega) hn₁).behind id (first :: ·)
      · next hfinish hotherwise hdefine =>
        obtain ⟨offset, hat, heq⟩ := list_statement h hfinish hotherwise hdefine
        rw [heq, bind_assoc]
        refine ((statementsAgree source tokens steps).statement (by omega) hat h.succ).through
          fun first n₁ rest₁ h₁ hn₁ => ?_
        exact (ih (by omega) hn₁).behind (first :: ·) id
    · next hnil htext hopening =>
      obtain ⟨offset, heq, hat⟩ := list_eq_error h hnil htext hopening
      rw [heq]
      exact .failure hat

end Agreement

theorem Ended.length_eq {source : List Char} {tokens : List Placed} {ts : List Token}
    (h : Ended source tokens ts) : tokens.length = ts.length + 1 := by
  obtain ⟨qs, rfl, hqs⟩ := h
  rw [List.length_append, hqs.length_eq]
  rfl

def read (source : List Char) : Read Source := tokens source >>= Cursor.source

theorem read_agrees (source : List Char) :
    Agrees source Eq (read source) (Lexer.tokens source >>= Parser.source) := by
  refine (tokens_agrees source).bind fun ps ts h => ?_
  have hlength := h.length_eq
  exact source_agrees (by omega) (Ahead.zero h)

end FlatTemplate.Cursor

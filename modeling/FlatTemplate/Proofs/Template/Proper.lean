import FlatTemplate.Proofs.Template.Spelling

namespace FlatTemplate

variable {ι : NodeKind → Type}

def IsVariable (name : String) : Prop := ∃ cs, name.toList = '$' :: cs

def Atom.Proper : Atom → Prop
  | .var path => ∃ first rest, path = first :: rest ∧ IsVariable first
  | _ => True

def Expr.Proper : Expr ι → Prop
  | .atom _ a => a.Proper
  | .paren _ _ => True

structure Pipe.Proper (p : Pipe ι) : Prop where
  commands : p.commands ≠ []
  decls : ∀ name ∈ p.decls, IsVariable name
  operands : ∀ c ∈ p.commands, ∀ e ∈ c.operands, e.Proper

mutual

def Expr.erase : Expr ι → Expr Untagged
  | .atom _ a => .atom () a
  | .paren _ inner => .paren () inner.erase

def argErase : List (Expr ι) → List (Expr Untagged)
  | [] => []
  | e :: es => e.erase :: argErase es

def Command.erase : Command ι → Command Untagged
  | .mk _ head args => .mk () head.erase (argErase args)

def commandErase : List (Command ι) → List (Command Untagged)
  | [] => []
  | c :: cs => c.erase :: commandErase cs

def Pipe.erase : Pipe ι → Pipe Untagged
  | .mk _ decls commands => .mk () decls (commandErase commands)

end

mutual

def Stmt.erase : Stmt ι → Stmt Untagged
  | .text _ text => .text () text
  | .action _ pipe => .action () pipe.erase
  | .branch _ kind pipe body elseBody =>
    .branch () kind pipe.erase (blockErase body) (blockErase elseBody)
  | .invoke _ name none => .invoke () name none
  | .invoke _ name (some pipe) => .invoke () name (some pipe.erase)

def blockErase : Block ι → Block Untagged
  | [] => []
  | s :: rest => s.erase :: blockErase rest

end

theorem argErase_eq_map (es : List (Expr ι)) : argErase es = es.map Expr.erase := by
  induction es with
  | nil => rfl
  | cons e es ih => rw [argErase, ih, List.map_cons]

theorem commandErase_eq_map (cs : List (Command ι)) : commandErase cs = cs.map Command.erase := by
  induction cs with
  | nil => rfl
  | cons c cs ih => rw [commandErase, ih, List.map_cons]

mutual

theorem Expr.pipes_erase (e : Expr ι) : e.erase.pipes = e.pipes.map Pipe.erase := by
  cases e with
  | atom => rfl
  | paren _ inner => exact inner.pipes_erase

theorem argPipes_erase (es : List (Expr ι)) :
    argPipes (argErase es) = (argPipes es).map Pipe.erase := by
  cases es with
  | nil => rfl
  | cons e es => simp [argErase, argPipes, e.pipes_erase, argPipes_erase es]

theorem Command.pipes_erase (c : Command ι) : c.erase.pipes = c.pipes.map Pipe.erase := by
  obtain ⟨_, head, args⟩ := c
  simp [Command.erase, Command.pipes, head.pipes_erase, argPipes_erase args]

theorem commandPipes_erase (cs : List (Command ι)) :
    commandPipes (commandErase cs) = (commandPipes cs).map Pipe.erase := by
  cases cs with
  | nil => rfl
  | cons c cs => simp [commandErase, commandPipes, c.pipes_erase, commandPipes_erase cs]

theorem Pipe.pipes_erase (p : Pipe ι) : p.erase.pipes = p.pipes.map Pipe.erase := by
  obtain ⟨_, decls, commands⟩ := p
  simp [Pipe.erase, Pipe.pipes, commandPipes_erase commands]

end

mutual

theorem Stmt.pipes_erase (s : Stmt ι) : s.erase.pipes = s.pipes.map Pipe.erase := by
  match s with
  | .text .. | .invoke _ _ none => rfl
  | .action _ p | .invoke _ _ (some p) => exact p.pipes_erase
  | .branch _ kind p body elseBody =>
    simp [Stmt.erase, Stmt.pipes, p.pipes_erase, blockPipes_erase body, blockPipes_erase elseBody]

theorem blockPipes_erase (b : Block ι) :
    blockPipes (blockErase b) = (blockPipes b).map Pipe.erase := by
  cases b with
  | nil => rfl
  | cons s b => simp [blockErase, blockPipes, s.pipes_erase, blockPipes_erase b]

end

theorem Expr.proper_erase {e : Expr ι} : e.erase.Proper ↔ e.Proper := by
  cases e <;> rfl

theorem Command.operands_erase (c : Command ι) :
    c.erase.operands = c.operands.map Expr.erase := by
  obtain ⟨_, head, args⟩ := c
  rw [Command.erase, argErase_eq_map]
  rfl

theorem Pipe.proper_erase {p : Pipe ι} : p.erase.Proper ↔ p.Proper := by
  obtain ⟨id, decls, commands⟩ := p
  have hcommands : (Pipe.mk id decls commands).erase.commands = commands.map Command.erase :=
    commandErase_eq_map commands
  constructor
  · rintro ⟨hne, hdecls, hoperands⟩
    refine ⟨?_, hdecls, fun c hc e he => ?_⟩
    · rw [hcommands] at hne
      exact fun h => hne (by rw [show commands = [] from h]; rfl)
    · have hc' : c.erase ∈ (Pipe.mk id decls commands).erase.commands := by
        rw [hcommands]
        exact List.mem_map_of_mem hc
      have he' : e.erase ∈ c.erase.operands := by
        rw [c.operands_erase]
        exact List.mem_map_of_mem he
      exact Expr.proper_erase.mp (hoperands c.erase hc' e.erase he')
  · rintro ⟨hne, hdecls, hoperands⟩
    refine ⟨?_, hdecls, fun c hc e he => ?_⟩
    · rw [hcommands]
      exact fun h => hne (List.map_eq_nil_iff.mp h)
    · rw [hcommands] at hc
      obtain ⟨c', hc', rfl⟩ := List.mem_map.mp hc
      rw [c'.operands_erase] at he
      obtain ⟨e', he', rfl⟩ := List.mem_map.mp he
      exact Expr.proper_erase.mpr (hoperands c' hc' e' he')

theorem sound_of_proper {b : Block Handle} (h : ∀ p ∈ blockPipes b, p.Proper) :
    ∀ e ∈ blockEntries b, e.Sound := by
  intro e he
  obtain hstmt | ⟨p, hp, rfl | ⟨c, hc, rfl | ⟨x, hx, rfl⟩⟩⟩ := mem_blockEntries_nodes he
  · cases e with
    | stmt => trivial
    | pipe | command | expr => cases hstmt
  · simpa [Pipe.entry, Entry.Sound] using (h p hp).commands
  · trivial
  · have hoperand := (h p hp).operands c hc x hx
    cases x with
    | paren => trivial
    | atom _ a =>
      cases a with
      | var path =>
        obtain ⟨first, rest, rfl, -⟩ := hoperand
        exact List.cons_ne_nil _ _
      | field | dot | identifier | str | number | bool => trivial

end FlatTemplate

import FlatTemplate.Proofs.Parser.Building
import FlatTemplate.Proofs.Session.Assigning

/-!
Which reads of temporaries the check reports. It goes by what the pipelines of statements declare,
and misses what pipelines in parentheses declare.
-/

namespace FlatTemplate

structure Scope where
  plain : List String := []
  nested : List String := []
  deriving DecidableEq, Repr

namespace Scope

def nest (scope : Scope) (pipes : List (Pipe Handle)) : Scope :=
  { scope with nested := pipes.flatMap Pipe.decls ++ scope.nested }

def bind (scope : Scope) (p : Pipe Handle) : Scope :=
  { scope.nest (commandPipes p.commands) with plain := p.decls ++ scope.plain }

def behind (scope : Scope) : Stmt Handle → Scope
  | .text _ _ | .invoke _ _ none => scope
  | .action _ p | .invoke _ _ (some p) => scope.bind p
  | .branch _ _ p _ _ => scope.nest (commandPipes p.commands)

end Scope

/-- A read of a variable by the pipeline of a statement, and what is in scope there. -/
structure Occurrence where
  stmt : StmtId
  operand : ExprId
  name : String
  scope : Scope
  deriving DecidableEq, Repr

mutual

def Expr.occurrences (stmt : StmtId) (scope : Scope) : Expr Handle → List Occurrence
  | .atom id (.var (first :: _)) => [⟨stmt, id, first, scope⟩]
  | .atom _ _ => []
  | .paren _ inner => inner.occurrences stmt scope

def argOccurrences (stmt : StmtId) (scope : Scope) : List (Expr Handle) → List Occurrence
  | [] => []
  | e :: es => e.occurrences stmt scope ++ argOccurrences stmt (scope.nest e.pipes) es

def Command.occurrences (stmt : StmtId) (scope : Scope) : Command Handle → List Occurrence
  | .mk _ head args =>
    head.occurrences stmt scope ++ argOccurrences stmt (scope.nest head.pipes) args

def commandOccurrences (stmt : StmtId) (scope : Scope) : List (Command Handle) → List Occurrence
  | [] => []
  | c :: cs => c.occurrences stmt scope ++ commandOccurrences stmt (scope.nest c.pipes) cs

def Pipe.occurrences (stmt : StmtId) (scope : Scope) : Pipe Handle → List Occurrence
  | .mk _ _ commands => commandOccurrences stmt scope commands

end

mutual

def Stmt.occurrences (scope : Scope) : Stmt Handle → List Occurrence
  | .text _ _ | .invoke _ _ none => []
  | .action id p | .invoke id _ (some p) => p.occurrences id scope
  | .branch id _ p body elseBody =>
    p.occurrences id scope ++
      (blockOccurrences (scope.bind p) body ++ blockOccurrences (scope.bind p) elseBody)

def blockOccurrences (scope : Scope) : Block Handle → List Occurrence
  | [] => []
  | s :: rest => s.occurrences scope ++ blockOccurrences (scope.behind s) rest

end

namespace Occurrence

def isUndeclared (stem : String) (o : Occurrence) : Bool :=
  isTemporary stem o.name && !o.scope.plain.contains o.name && !o.scope.nested.contains o.name

/-- A temporary that no pipeline of a statement declares in scope. -/
def isReported (stem : String) (o : Occurrence) : Bool :=
  isTemporary stem o.name && !o.scope.plain.contains o.name

def violation (o : Occurrence) : Violation := .undeclaredTemporary o.stmt o.name

end Occurrence

def Violation.isUndeclared : Violation → Bool
  | .undeclaredTemporary _ _ => true
  | _ => false

def Entry.reading? : Entry → Option (ExprId × String)
  | .expr id (.atom (.var (first :: _))) => some (id, first)
  | _ => none

section Operands

variable (stmt : StmtId)

mutual

theorem Expr.map_occurrences (scope : Scope) (e : Expr Handle) :
    (e.occurrences stmt scope).map (fun o => (o.operand, o.name)) =
      e.entries.filterMap Entry.reading? := by
  match e with
  | .atom _ (.var (_ :: _)) | .atom _ (.var []) | .atom _ (.field _) | .atom _ .dot
  | .atom _ (.identifier _) | .atom _ (.str _) | .atom _ (.number _) | .atom _ (.bool _) => rfl
  | .paren _ inner => exact inner.map_occurrences scope

theorem map_argOccurrences (scope : Scope) (es : List (Expr Handle)) :
    (argOccurrences stmt scope es).map (fun o => (o.operand, o.name)) =
      (argEntries es).filterMap Entry.reading? := by
  cases es with
  | nil => rfl
  | cons e es =>
    rw [argOccurrences, argEntries, List.map_append, List.filterMap_append, e.map_occurrences,
      map_argOccurrences]

theorem Command.map_occurrences (scope : Scope) (c : Command Handle) :
    (c.occurrences stmt scope).map (fun o => (o.operand, o.name)) =
      c.entries.filterMap Entry.reading? := by
  obtain ⟨id, head, args⟩ := c
  rw [Command.occurrences, Command.entries, List.map_append, List.filterMap_cons,
    List.filterMap_append, head.map_occurrences, map_argOccurrences]
  rfl

theorem map_commandOccurrences (scope : Scope) (cs : List (Command Handle)) :
    (commandOccurrences stmt scope cs).map (fun o => (o.operand, o.name)) =
      (commandEntries cs).filterMap Entry.reading? := by
  cases cs with
  | nil => rfl
  | cons c cs =>
    rw [commandOccurrences, commandEntries, List.map_append, List.filterMap_append,
      c.map_occurrences, map_commandOccurrences]

theorem Pipe.map_occurrences (scope : Scope) (p : Pipe Handle) :
    (p.occurrences stmt scope).map (fun o => (o.operand, o.name)) =
      p.entries.filterMap Entry.reading? := by
  obtain ⟨id, decls, commands⟩ := p
  exact map_commandOccurrences scope commands

end

end Operands

mutual

theorem Stmt.map_occurrences (scope : Scope) (s : Stmt Handle) :
    (s.occurrences scope).map (fun o => (o.operand, o.name)) =
      s.entries.filterMap Entry.reading? := by
  match s with
  | .text .. | .invoke _ _ none => rfl
  | .action id p | .invoke id _ (some p) => exact p.map_occurrences id scope
  | .branch id kind p body elseBody =>
    rw [Stmt.occurrences, Stmt.entries, List.map_append, List.map_append, List.filterMap_cons,
      List.filterMap_append, List.filterMap_append, p.map_occurrences, map_blockOccurrences,
      map_blockOccurrences, List.append_assoc]
    rfl

theorem map_blockOccurrences (scope : Scope) (b : Block Handle) :
    (blockOccurrences scope b).map (fun o => (o.operand, o.name)) =
      (blockEntries b).filterMap Entry.reading? := by
  cases b with
  | nil => rfl
  | cons s b =>
    rw [blockOccurrences, blockEntries, List.map_append, List.filterMap_append, s.map_occurrences,
      map_blockOccurrences]

end

theorem Entry.reading?_eq_some {e : Entry} {id : ExprId} {first : String}
    (h : e.reading? = some (id, first)) :
    ∃ path, e = .expr id (.atom (.var (first :: path))) := by
  unfold reading? at h
  split at h
  · cases h
    exact ⟨_, rfl⟩
  · cases h

theorem sublist_readingKeys (es : List Entry) :
    ((es.filterMap Entry.reading?).map fun v => v.1.key).Sublist (es.map Entry.key) := by
  induction es with
  | nil => exact .slnil
  | cons e es ih =>
    rw [List.map_cons]
    cases hreading : e.reading? with
    | none =>
      rw [List.filterMap_cons_none hreading]
      exact ih.cons _
    | some v =>
      obtain ⟨path, rfl⟩ := Entry.reading?_eq_some hreading
      rw [List.filterMap_cons_some hreading]
      exact ih.cons_cons _

def Occurrence.view (o : Occurrence) : StmtId × String × List String :=
  (o.stmt, o.name, o.scope.plain)

section Views

variable (stmt : StmtId)

mutual

theorem Expr.views (scope : Scope) (e : Expr Handle) :
    (e.occurrences stmt scope).map Occurrence.view =
      e.variables.map fun name => (stmt, name, scope.plain) := by
  match e with
  | .atom _ (.var (_ :: _)) | .atom _ (.var []) | .atom _ (.field _) | .atom _ .dot
  | .atom _ (.identifier _) | .atom _ (.str _) | .atom _ (.number _) | .atom _ (.bool _) => rfl
  | .paren _ inner => exact inner.views scope

theorem argViews (scope : Scope) (es : List (Expr Handle)) :
    (argOccurrences stmt scope es).map Occurrence.view =
      (argVariables es).map fun name => (stmt, name, scope.plain) := by
  cases es with
  | nil => rfl
  | cons e es =>
    rw [argOccurrences, argVariables, List.map_append, List.map_append, e.views, argViews]
    rfl

theorem Command.views (scope : Scope) (c : Command Handle) :
    (c.occurrences stmt scope).map Occurrence.view =
      c.variables.map fun name => (stmt, name, scope.plain) := by
  obtain ⟨id, head, args⟩ := c
  rw [Command.occurrences, Command.variables, List.map_append, List.map_append, head.views,
    argViews]
  rfl

theorem commandViews (scope : Scope) (cs : List (Command Handle)) :
    (commandOccurrences stmt scope cs).map Occurrence.view =
      (commandVariables cs).map fun name => (stmt, name, scope.plain) := by
  cases cs with
  | nil => rfl
  | cons c cs =>
    rw [commandOccurrences, commandVariables, List.map_append, List.map_append, c.views,
      commandViews]
    rfl

theorem Pipe.views (scope : Scope) (p : Pipe Handle) :
    (p.occurrences stmt scope).map Occurrence.view =
      p.variables.map fun name => (stmt, name, scope.plain) := by
  obtain ⟨id, decls, commands⟩ := p
  exact commandViews scope commands

end

end Views

def reports (stem : String) (os : List Occurrence) : List Violation :=
  (os.filter (·.isReported stem)).map Occurrence.violation

theorem reports_append (stem : String) (os os' : List Occurrence) :
    reports stem (os ++ os') = reports stem os ++ reports stem os' := by
  rw [reports, List.filter_append, List.map_append]
  rfl

theorem Pipe.reports_occurrences (stem : String) (stmt : StmtId) (scope : Scope) (p : Pipe Handle) :
    reports stem (p.occurrences stmt scope) = p.scopeViolations stem scope.plain stmt := by
  let reported (v : StmtId × String × List String) : Bool :=
    isTemporary stem v.2.1 && !v.2.2.contains v.2.1
  calc reports stem (p.occurrences stmt scope)
      = (((p.occurrences stmt scope).map Occurrence.view).filter reported).map
          fun v => .undeclaredTemporary v.1 v.2.1 := by
        rw [List.filter_map, List.map_map]
        rfl
    _ = p.scopeViolations stem scope.plain stmt := by
        rw [p.views, List.filter_map, List.map_map]
        rfl

theorem Scope.plain_behind (scope : Scope) {s : Stmt Handle} (hs : s.Legible) :
    (scope.behind s).plain = s.declared ++ scope.plain := by
  match s with
  | .text .. | .action .. | .branch .. | .invoke _ _ none => rfl
  | .invoke _ _ (some (.mk id decls commands)) =>
    -- An invocation declares nothing.
    obtain rfl : decls = [] := List.length_eq_zero_iff.mp (Nat.le_zero.mp hs.1)
    rfl

mutual

theorem Stmt.reports_occurrences (stem : String) (scope : Scope) {s : Stmt Handle}
    (hs : s.Legible) :
    reports stem (s.occurrences scope) = s.scopeViolations stem scope.plain := by
  match s with
  | .text .. | .invoke _ _ none => rfl
  | .action id p | .invoke id _ (some p) => exact p.reports_occurrences stem id scope
  | .branch id kind p body elseBody =>
    rw [Stmt.occurrences, Stmt.scopeViolations, reports_append, reports_append,
      p.reports_occurrences, reports_blockOccurrences stem _ hs.2.1,
      reports_blockOccurrences stem _ hs.2.2, List.append_assoc]
    rfl

theorem reports_blockOccurrences (stem : String) (scope : Scope) {b : Block Handle}
    (hb : BlockLegible b) :
    reports stem (blockOccurrences scope b) = scopeViolations stem scope.plain b := by
  cases b with
  | nil => rfl
  | cons s b =>
    rw [blockOccurrences, scopeViolations, reports_append, s.reports_occurrences stem scope hb.1,
      reports_blockOccurrences stem _ hb.2, scope.plain_behind hb.1]

end

section Nested

variable {x : String}

theorem Scope.nest_nested {scope : Scope} (hx : x ∉ scope.nested) {pipes : List (Pipe Handle)}
    (h : ∀ q ∈ pipes, x ∉ q.decls) : x ∉ (scope.nest pipes).nested := by
  intro hmem
  rcases List.mem_append.mp hmem with hmem | hmem
  · obtain ⟨q, hq, hx⟩ := List.mem_flatMap.mp hmem
    exact h q hq hx
  · exact hx hmem

section Pipelines

variable (stmt : StmtId)

mutual

theorem Expr.nested_occurrences {scope : Scope} (hx : x ∉ scope.nested) (e : Expr Handle)
    (h : ∀ q ∈ e.pipes, x ∉ q.decls) : ∀ o ∈ e.occurrences stmt scope, x ∉ o.scope.nested := by
  match e with
  | .atom _ (.var (_ :: _)) => simpa [Expr.occurrences] using hx
  | .atom _ (.var []) | .atom _ (.field _) | .atom _ .dot | .atom _ (.identifier _)
  | .atom _ (.str _) | .atom _ (.number _) | .atom _ (.bool _) => simp [Expr.occurrences]
  | .paren _ inner =>
    have hinner := (Pipe.forall_pipes_decls (A := (x ∉ ·))).mp h
    exact inner.nested_occurrences hx hinner.2

theorem nested_argOccurrences {scope : Scope} (hx : x ∉ scope.nested) (es : List (Expr Handle))
    (h : ∀ q ∈ argPipes es, x ∉ q.decls) :
    ∀ o ∈ argOccurrences stmt scope es, x ∉ o.scope.nested := by
  cases es with
  | nil => exact nofun
  | cons e es =>
    obtain ⟨he, hes⟩ := List.forall_mem_append.mp h
    exact List.forall_mem_append.mpr ⟨e.nested_occurrences hx he,
      nested_argOccurrences (Scope.nest_nested hx he) es hes⟩

theorem Command.nested_occurrences {scope : Scope} (hx : x ∉ scope.nested) (c : Command Handle)
    (h : ∀ q ∈ c.pipes, x ∉ q.decls) : ∀ o ∈ c.occurrences stmt scope, x ∉ o.scope.nested := by
  obtain ⟨id, head, args⟩ := c
  obtain ⟨hhead, hargs⟩ := List.forall_mem_append.mp h
  exact List.forall_mem_append.mpr ⟨head.nested_occurrences hx hhead,
    nested_argOccurrences (Scope.nest_nested hx hhead) args hargs⟩

theorem nested_commandOccurrences {scope : Scope} (hx : x ∉ scope.nested)
    (cs : List (Command Handle)) (h : ∀ q ∈ commandPipes cs, x ∉ q.decls) :
    ∀ o ∈ commandOccurrences stmt scope cs, x ∉ o.scope.nested := by
  cases cs with
  | nil => exact nofun
  | cons c cs =>
    obtain ⟨hc, hcs⟩ := List.forall_mem_append.mp h
    exact List.forall_mem_append.mpr ⟨c.nested_occurrences hx hc,
      nested_commandOccurrences (Scope.nest_nested hx hc) cs hcs⟩

theorem Pipe.nested_occurrences {scope : Scope} (hx : x ∉ scope.nested) (p : Pipe Handle)
    (h : p.Nests (x ∉ ·)) : ∀ o ∈ p.occurrences stmt scope, x ∉ o.scope.nested := by
  obtain ⟨id, decls, commands⟩ := p
  exact nested_commandOccurrences hx commands h

end

end Pipelines

mutual

theorem Stmt.nested_occurrences {scope : Scope} (hx : x ∉ scope.nested) (s : Stmt Handle)
    (h : Governed (Pipe.Nests (x ∉ ·)) [s]) : ∀ o ∈ s.occurrences scope, x ∉ o.scope.nested := by
  match s with
  | .text .. | .invoke _ _ none => exact nofun
  | .action id p | .invoke id _ (some p) =>
    exact p.nested_occurrences id hx (h _ (List.mem_singleton_self _) p rfl)
  | .branch id kind p body elseBody =>
    obtain ⟨hp, hbody, helse⟩ := governed_branch.mp h
    have hbind : x ∉ (scope.bind p).nested := Scope.nest_nested hx hp
    exact List.forall_mem_append.mpr ⟨p.nested_occurrences id hx hp, List.forall_mem_append.mpr
      ⟨nested_blockOccurrences hbind body hbody, nested_blockOccurrences hbind elseBody helse⟩⟩

theorem nested_blockOccurrences {scope : Scope} (hx : x ∉ scope.nested) (b : Block Handle)
    (h : Governed (Pipe.Nests (x ∉ ·)) b) : ∀ o ∈ blockOccurrences scope b, x ∉ o.scope.nested := by
  cases b with
  | nil => exact nofun
  | cons s b =>
    obtain ⟨hs, hb⟩ := governed_cons.mp h
    have hbehind : x ∉ (scope.behind s).nested := by
      match s with
      | .text .. | .invoke _ _ none => exact hx
      | .action id p | .invoke id _ (some p) =>
        exact Scope.nest_nested hx (hs _ (List.mem_singleton_self _) p rfl)
      | .branch id kind p body elseBody => exact Scope.nest_nested hx (governed_branch.mp hs).1
    exact List.forall_mem_append.mpr ⟨s.nested_occurrences hx hs,
      nested_blockOccurrences hbehind b hb⟩

end

end Nested

theorem isReported_of_isUndeclared {stem : String} {o : Occurrence}
    (h : o.isUndeclared stem = true) : o.isReported stem = true :=
  (Bool.and_eq_true_iff.mp h).1

theorem isReported_eq {o : Occurrence} (h : o.name ∉ o.scope.nested) (stem : String) :
    o.isReported stem = o.isUndeclared stem := by
  have hcontains : o.scope.nested.contains o.name = false := by simpa using h
  rw [Occurrence.isUndeclared, hcontains, Bool.not_false, Bool.and_true]
  rfl

theorem filter_isUndeclared_check (b : Block Handle) (os : List Occurrence) (stem : String) :
    (shapeViolations b ++ reports stem os).filter Violation.isUndeclared = reports stem os := by
  have hshape : (shapeViolations b).filter Violation.isUndeclared = [] := by
    rw [List.filter_eq_nil_iff]
    intro v hv hundeclared
    cases v with
    | undeclaredTemporary id name =>
      exact Tree.undeclaredTemporary_not_mem_shapeViolations b id name hv
    | compositeNestedPipe | pipeArgument | pathArgument => cases hundeclared
  have hreports : (reports stem os).filter Violation.isUndeclared = reports stem os := by
    rw [List.filter_eq_self]
    intro v hv
    obtain ⟨o, -, rfl⟩ := List.mem_map.mp hv
    rfl
  rw [List.filter_append, hshape, hreports, List.nil_append]

namespace Tree

variable {t : Tree} {b : Block Handle}

theorem Holds.occurrences (h : t.Holds b) (scope : Scope) :
    (∀ id first, (∃ path, t.Reachable (.expr id (.atom (.var (first :: path))))) ↔
        ∃ o ∈ blockOccurrences scope b, o.operand = id ∧ o.name = first) ∧
      ((blockOccurrences scope b).map Occurrence.operand).Nodup := by
  have hmap := map_blockOccurrences scope b
  constructor
  · intro id first
    have hmem : (∃ o ∈ blockOccurrences scope b, o.operand = id ∧ o.name = first) ↔
        (id, first) ∈ (blockOccurrences scope b).map fun o => (o.operand, o.name) := by
      simp
    rw [hmem, hmap, List.mem_filterMap]
    constructor
    · rintro ⟨path, hreach⟩
      exact ⟨_, h.mem_entries hreach, rfl⟩
    · rintro ⟨e, he, hreading⟩
      obtain ⟨path, rfl⟩ := Entry.reading?_eq_some hreading
      exact ⟨path, h.reachable he⟩
  · have hkeys : ((blockOccurrences scope b).map Occurrence.operand).map Handle.key =
        ((blockEntries b).filterMap Entry.reading?).map fun v => v.1.key := by
      rw [← hmap, List.map_map, List.map_map]
      rfl
    apply List.Nodup.of_map Handle.key
    rw [hkeys]
    exact h.nodup.sublist (sublist_readingKeys _)

/-- The check of a parsed tree reports, once for each read and in the order of evaluation, the
temporaries that no pipeline of a statement declares where they are read. Among these are all of
which no declaration is in scope; others only if a pipeline in parentheses declares the name. -/
theorem Parsed.check_undeclaredTemporary (ht : t.Parsed) (config : Config) :
    ∃ b violations, t.read = .ok b ∧ t.check config = .ok violations ∧
      ((∀ id first, (∃ path, t.Reachable (.expr id (.atom (.var (first :: path))))) ↔
          ∃ o ∈ blockOccurrences {} b, o.operand = id ∧ o.name = first) ∧
        ((blockOccurrences {} b).map Occurrence.operand).Nodup) ∧
      violations.filter Violation.isUndeclared =
        ((blockOccurrences {} b).filter (·.isReported config.tempStem)).map Occurrence.violation ∧
      (((blockOccurrences {} b).filter (·.isUndeclared config.tempStem)).map
        Occurrence.violation).Sublist (violations.filter Violation.isUndeclared) ∧
      ∀ o ∈ blockOccurrences {} b, Governed (Pipe.Nests (o.name ∉ ·)) b →
        o.isReported config.tempStem = o.isUndeclared config.tempStem := by
  obtain ⟨b, hstores, hlegible, -⟩ := ht.stores
  have hb := hstores.holds hlegible.pipes
  have hreports := reports_blockOccurrences config.tempStem {} hlegible
  have hfilter := filter_isUndeclared_check b (blockOccurrences {} b) config.tempStem
  rw [hreports] at hfilter
  refine ⟨b, _, hb.read, hb.check config, hb.occurrences {}, hfilter.trans hreports.symm, ?_,
    fun o ho hnests => isReported_eq (nested_blockOccurrences List.not_mem_nil b hnests o ho) _⟩
  rw [hfilter.trans hreports.symm]
  exact (List.monotone_filter_right _ fun o => isReported_of_isUndeclared).map _

def branchedReads : Tree :=
  let read (e : Expr Untagged) : Pipe Untagged := .mk () [] [.mk () e []]
  let printed (name : String) : Stmt Untagged := .action () (read (.atom () (.var [name])))
  .ofBlock "" [.branch () .cond (.mk () ["$var0"] [.mk () (.atom () (.field ["A"])) []])
    [printed "$var0"] [printed "$var1"], printed "$var0"]

theorem parse_branchedReads : Tree.parse (delimited "if $var0 := .A" ++ delimited "$var0" ++
    delimited "else" ++ delimited "$var1" ++ delimited "end" ++ delimited "$var0") =
      .ok branchedReads := by cbv

theorem check_undeclaredTemporary_branchedReads : branchedReads.Parsed ∧
    ∃ b violations, branchedReads.read = .ok b ∧ branchedReads.check {} = .ok violations ∧
      violations.filter Violation.isUndeclared =
        ((blockOccurrences {} b).filter (·.isReported "var")).map Occurrence.violation ∧
      violations = [.undeclaredTemporary ⟨1⟩ "$var1", .undeclaredTemporary ⟨3⟩ "$var0"] := by
  have hparsed := parsed_of_parse parse_branchedReads
  obtain ⟨b, violations, hread, hcheck, -, hreported, -⟩ := hparsed.check_undeclaredTemporary {}
  have hfound : branchedReads.check {} =
      .ok [.undeclaredTemporary ⟨1⟩ "$var1", .undeclaredTemporary ⟨3⟩ "$var0"] := by cbv
  exact ⟨hparsed, b, violations, hread, hcheck, hreported,
    Except.ok.inj (hcheck.symm.trans hfound)⟩

def nestedDeclaration : Tree :=
  let number : Command Untagged := .mk () (.atom () (.number "1")) []
  .ofBlock "" [.action () (.mk () [] [.mk () (.atom () (.identifier "print"))
    [.paren () (.mk () ["$var0"] [number]), .atom () (.var ["$var0"])]])]

theorem parse_nestedDeclaration :
    Tree.parse (delimited "print ($var0 := 1) $var0") = .ok nestedDeclaration := by cbv

theorem check_nestedDeclaration :
    nestedDeclaration.Parsed ∧
      nestedDeclaration.check {} =
        .ok [.pipeArgument ⟨1⟩, .undeclaredTemporary ⟨0⟩ "$var0"] ∧
      (fun b => (blockOccurrences {} b).filter (·.isUndeclared "var")) <$> nestedDeclaration.read =
        .ok [] :=
  ⟨parsed_of_parse parse_nestedDeclaration, by cbv, by cbv⟩

end Tree

end FlatTemplate

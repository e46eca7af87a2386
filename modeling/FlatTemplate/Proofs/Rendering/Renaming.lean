import FlatTemplate.Proofs.Rendering.Interpretation
import FlatTemplate.Proofs.Template.Naming

namespace FlatTemplate

variable {V : Type*} {g : String → String} {A : String → Prop} {s s' : Frame V}

structure Frame.Renames (g : String → String) (A : String → Prop) (s s' : Frame V) : Prop where
  dot : s'.dot = s.dot
  vars : ∀ x, A x → s'.vars (g x) = s.vars x

theorem Frame.Renames.bind (h : s.Renames g A s') (hg : ∀ x y, A x → A y → g x = g y → x = y)
    (pairs : List (String × V)) (hpairs : ∀ pair ∈ pairs, A pair.1) :
    (s.bind pairs).Renames g A (s'.bind (pairs.map fun pair => (g pair.1, pair.2))) := by
  induction pairs generalizing s s' with
  | nil => exact h
  | cons pair pairs ih =>
    obtain ⟨name, v⟩ := pair
    rw [List.forall_mem_cons] at hpairs
    have hupdate : (s.bind [(name, v)]).Renames g A (s'.bind [(g name, v)]) := by
      refine ⟨h.dot, fun x hx => ?_⟩
      simp only [Frame.bind, List.foldl_cons, List.foldl_nil]
      by_cases hname : x = name
      · rw [hname, Function.update_self, Function.update_self]
      · rw [Function.update_of_ne hname,
          Function.update_of_ne fun heq => hname (hg x name hx hpairs.1 heq), h.vars x hx]
    exact ih hupdate hpairs.2

theorem Frame.Renames.declare (h : s.Renames g A s')
    (hg : ∀ x y, A x → A y → g x = g y → x = y) {names : List String}
    (hnames : ∀ x ∈ names, A x) (v : V) :
    (s.declare names v).Renames g A (s'.declare (names.map g) v) := by
  have hbind := h.bind hg (names.map fun name => (name, v)) (by simpa using hnames)
  simpa [Frame.declare, Function.comp_def] using hbind

theorem map_turn (g : String → String) (names : List String) (key value : V) :
    (turn names key value).map (fun pair => (g pair.1, pair.2)) =
      turn (names.map g) key value := by
  match names with
  | [] | [_] | [_, _] | _ :: _ :: _ :: _ => rfl

theorem fst_mem_of_mem_turn {names : List String} {key value : V} {pair : String × V}
    (h : pair ∈ turn names key value) : pair.1 ∈ names := by
  match names with
  | [] | _ :: _ :: _ :: _ => simp [turn] at h
  | [_] | [_, _] =>
    simp only [turn, List.mem_cons, List.not_mem_nil, or_false] at h
    grind

variable (I : Interpretation V)

theorem atom_rename (h : s.Renames g A s') (id : ExprId) {a : Atom}
    (ha : (Entry.expr id (.atom a)).Named A) : I.atom s' (a.rename g) = I.atom s a := by
  match a with
  | .var [] | .identifier _ | .str _ | .number _ | .bool _ => rfl
  | .var [name] => exact h.vars name (ha name rfl)
  | .var (name :: _ :: _) => exact congrArg (I.path · _) (h.vars name (ha name rfl))
  | .field _ | .dot => simp [Atom.rename, Interpretation.atom, h.dot]

theorem command_rename (h : s.Renames g A s') (id : ExprId) {a : Atom}
    (ha : (Entry.expr id (.atom a)).Named A) (args : List V) :
    I.command s' (a.rename g) args = I.command s a args := by
  have hatom := atom_rename I h id ha
  match a, args with
  | .identifier _, _ => rfl
  | .var [], [] | .var [], _ :: _ | .str _, [] | .str _, _ :: _ | .number _, []
  | .number _, _ :: _ | .bool _, [] | .bool _, _ :: _ => rfl
  | .var [_], [] | .var (_ :: _ :: _), [] | .field _, [] | .dot, [] => exact hatom
  | .var [_], v :: vs => exact congrArg (I.apply · (v :: vs)) hatom
  | .var (name :: segment :: path), v :: vs =>
    exact congrArg (I.method · (segment :: path) (v :: vs)) (h.vars name (ha name rfl))
  | .field path, v :: vs => exact congrArg (I.method · path (v :: vs)) h.dot
  | .dot, v :: vs => exact congrArg (I.method · [] (v :: vs)) h.dot

mutual

theorem Expr.value_rename (h : s.Renames g A s') (e : Expr Handle)
    (he : ∀ x ∈ e.entries, x.Named A) : (e.rename g).value I s' = e.value I s := by
  cases e with
  | atom id a => exact atom_rename I h id (he _ (List.mem_singleton_self _))
  | paren id inner => exact inner.value_rename h fun x hx => he x (List.mem_cons_of_mem _ hx)

theorem argValues_rename (h : s.Renames g A s') (es : List (Expr Handle))
    (hes : ∀ x ∈ argEntries es, x.Named A) :
    argValues I s' (argRename g es) = argValues I s es := by
  cases es with
  | nil => rfl
  | cons e es =>
    rw [argEntries, List.forall_mem_append] at hes
    rw [argRename, argValues, argValues, e.value_rename h hes.1, argValues_rename h es hes.2]

theorem Expr.applied_rename (h : s.Renames g A s') (e : Expr Handle)
    (he : ∀ x ∈ e.entries, x.Named A) (args : List V) :
    (e.rename g).applied I s' args = e.applied I s args := by
  cases e with
  | atom id a => exact command_rename I h id (he _ (List.mem_singleton_self _)) args
  | paren id inner =>
    rw [Expr.rename, Expr.applied, Expr.applied,
      inner.value_rename h fun x hx => he x (List.mem_cons_of_mem _ hx)]

theorem Command.value_rename (h : s.Renames g A s') (c : Command Handle)
    (hc : ∀ x ∈ c.entries, x.Named A) (piped : Option V) :
    (c.rename g).value I s' piped = c.value I s piped := by
  obtain ⟨id, head, args⟩ := c
  rw [Command.entries, List.forall_mem_cons, List.forall_mem_append] at hc
  rw [Command.rename, Command.value, Command.value, argValues_rename h args hc.2.2,
    head.applied_rename h hc.2.1]

theorem commandsValue_rename (h : s.Renames g A s') (cs : List (Command Handle))
    (hcs : ∀ x ∈ commandEntries cs, x.Named A) (piped : Option V) :
    commandsValue I s' piped (commandRename g cs) = commandsValue I s piped cs := by
  cases cs with
  | nil => rfl
  | cons c cs =>
    rw [commandEntries, List.forall_mem_append] at hcs
    rw [commandRename, commandsValue, commandsValue, c.value_rename h hcs.1,
      commandsValue_rename h cs hcs.2]

theorem Pipe.value_rename (h : s.Renames g A s') (p : Pipe Handle) (hp : p.Named A) :
    (p.rename g).value I s' = p.value I s := by
  obtain ⟨id, decls, commands⟩ := p
  rw [Pipe.rename, Pipe.value, Pipe.value,
    commandsValue_rename h commands (Pipe.named_iff.mp hp).2]

end

variable (hg : ∀ x y, A x → A y → g x = g y → x = y)

include hg

theorem Stmt.after_rename (h : s.Renames g A s') {stmt : Stmt Handle}
    (hstmt : Governed (Pipe.Named A) [stmt]) :
    (stmt.after I s).Renames g A ((stmt.rename g).after I s') := by
  match stmt with
  | .text .. | .branch .. | .invoke _ _ none | .invoke _ _ (some _) => exact h
  | .action id (.mk p decls commands) =>
    have hp := governed_action.mp hstmt
    have hvalue := Pipe.value_rename I h _ hp
    rw [Stmt.rename, Stmt.after, Stmt.after, hvalue]
    exact h.declare hg (Pipe.named_iff.mp hp).1 _

mutual

theorem Stmt.output_rename {s s' : Frame V} (h : s.Renames g A s') (stmt : Stmt Handle)
    (hstmt : Governed (Pipe.Named A) [stmt]) :
    (stmt.rename g).output I s' = stmt.output I s := by
  match stmt with
  | .text .. | .invoke _ _ none => rfl
  | .action id (.mk p decls commands) =>
    have hvalue := Pipe.value_rename I h _ (governed_action.mp hstmt)
    rw [Stmt.rename, Stmt.output, Stmt.output, hvalue]
    simp [Pipe.rename]
  | .invoke id name (some p) =>
    have hvalue := Pipe.value_rename I h _ (Stmt.governed_own rfl hstmt)
    rw [Stmt.rename, Stmt.output, Stmt.output, hvalue]
  | .branch id kind (.mk p decls commands) body elseBody =>
    obtain ⟨hp, hbody, helse⟩ := governed_branch.mp hstmt
    have hvalue := Pipe.value_rename I h _ hp
    have hdecls := (Pipe.named_iff.mp hp).1
    -- Both bodies run under the declarations of the pipeline.
    have hin (v : V) := h.declare hg hdecls v
    have hthen (v : V) := blockOutput_rename (hin v) body hbody
    have helse (v : V) := blockOutput_rename (hin v) elseBody helse
    cases kind with
    | cond =>
      rw [Stmt.rename, Stmt.output, Stmt.output, hvalue]
      simp only [Pipe.rename, Pipe.decls_mk, hthen, helse]
    | within =>
      have hwith (v : V) : ({ s.declare decls v with dot := v } : Frame V).Renames g A
          { s'.declare (decls.map g) v with dot := v } := ⟨rfl, (hin v).vars⟩
      rw [Stmt.rename, Stmt.output, Stmt.output, hvalue]
      simp only [Pipe.rename, Pipe.decls_mk, helse, blockOutput_rename (hwith _) body hbody]
    | range =>
      have hturn (key value : V) : ({ s.bind (turn decls key value) with dot := value } :
          Frame V).Renames g A { s'.bind (turn (decls.map g) key value) with dot := value } := by
        have hbind := h.bind hg (turn decls key value)
          fun pair hpair => hdecls _ (fst_mem_of_mem_turn hpair)
        rw [map_turn] at hbind
        exact ⟨rfl, hbind.vars⟩
      rw [Stmt.rename, Stmt.output, Stmt.output, hvalue]
      simp only [Pipe.rename, Pipe.decls_mk, helse, blockOutput_rename (hturn _ _) body hbody]

theorem blockOutput_rename {s s' : Frame V} (h : s.Renames g A s') (b : Block Handle)
    (hb : Governed (Pipe.Named A) b) :
    blockOutput I s' (blockRename g b) = blockOutput I s b := by
  cases b with
  | nil => rfl
  | cons stmt b =>
    rw [governed_cons] at hb
    rw [blockRename, blockOutput, blockOutput, stmt.output_rename h hb.1,
      blockOutput_rename (stmt.after_rename I hg h hb.1) b hb.2]

end

end FlatTemplate

import FlatTemplate.Proofs.Tree.Changing
import FlatTemplate.Proofs.Tree.Searching

namespace FlatTemplate

def Rewriting.added {α : Type} (f : Fresh) (r : Rewriting α) : Block Handle :=
  (r.ahead.map (.action f.stmt)).toList ++ if r.found.edit = .splitPrint then [f.print] else []

def Rewriting.names {α : Type} (r : Rewriting α) (names : Supply) : Supply :=
  if r.taken then names.rest else names

inductive Tree.Applies (t : Tree) (names : Supply) (host : StmtId) (puts : List Entry) :
    Role → Rewriting (Pipe Handle) → Prop where
  | alone {role r} (hadd : r.added (t.fresh names.next) = [])
      (h : Plan.apply ⟨r.found, host⟩ names t = .ok (t.puts puts, r.names names)) :
      Applies t names host puts role r
  | ahead {role r} (a : Pipe Handle)
      (hadd : r.added (t.fresh names.next) = [.action (t.fresh names.next).stmt a])
      (hahead : r.ahead = some a) (hedit : r.found.edit ≠ .splitPrint)
      (h : ∀ t', (t.puts puts).insertBefore host (t.fresh names.next).stmt = .ok (some t') →
        Plan.apply ⟨r.found, host⟩ names t = .ok (t', r.names names)) :
      Applies t names host puts role r
  | behind {r} (hadd : r.added (t.fresh names.next) = [(t.fresh names.next).print])
      (hahead : r.ahead = none) (hedit : r.found.edit = .splitPrint)
      (h : t.stmts.get host = .ok (.action r.rest.tag) → ∀ t',
        (t.puts puts).insertAfter host (t.fresh names.next).stmt = .ok (some t') →
        Plan.apply ⟨r.found, host⟩ names t = .ok (t', r.names names)) :
      Applies t names host puts .print r

structure Tree.CanChange (t : Tree) (names : Supply) (host : StmtId) (role : Role)
    (p : Pipe Handle) (r : Rewriting (Pipe Handle)) (olds puts : List Entry) : Prop where
  exchanges : t.Exchanges p.entries
    (r.rest.entries ++ blockEntries (r.added (t.fresh names.next))) olds puts
  tag : r.rest.tag = p.tag
  applies : t.Applies names host puts role r

namespace Tree

variable {t : Tree}

theorem stub_tag (f : Fresh) (e : Expr Handle) : (e.stub f).tag = f.expr := by
  match e with
  | .atom _ _ | .paren _ (.mk _ [] _) | .paren _ (.mk _ (_ :: _) _) => rfl

theorem canChange_bound {names : Supply} {role : Role} {p : Pipe Handle}
    {r : Rewriting (Pipe Handle)} {rule : Rule} {c : CommandId} {o : Operand} {e : Expr Handle}
    (old node : CommandNode) (frame : List Entry)
    (hfound : r.found = ⟨rule, .hoistOperand c o⟩)
    (hahead : r.ahead = some (e.bound (t.fresh names.next))) (htaken : r.taken = e.takes)
    (htag : r.rest.tag = p.tag)
    (hp : p.entries.Perm ((.command c old :: e.entries) ++ frame))
    (hr : r.rest.entries.Perm
      ((.command c node :: (e.stub (t.fresh names.next)).entries) ++ frame))
    (ho : old.operand? o = some e.tag)
    (hset : old.setOperand? o (t.fresh names.next).expr = some node)
    (has : ∀ x ∈ p.entries, t.Has x) (nodup : (p.entries.map Entry.key).Nodup)
    (sound : ∀ x ∈ p.entries, x.Sound) (host : StmtId) :
    ∃ olds puts, t.CanChange names host role p r olds puts := by
  have hsub : ∀ x ∈ .command c old :: e.entries, x ∈ p.entries := fun x hx =>
    hp.mem_iff.mpr (List.mem_append_left _ hx)
  obtain ⟨olds, hx⟩ := exchanges_bound names.next (fun x hx => has x (hsub x hx))
    (((hp.map Entry.key).nodup_iff.mp nodup).sublist ((List.sublist_append_left _ _).map _))
    (fun x hx => sound x (hsub x (List.mem_cons_of_mem _ hx))) node
  have hadd : r.added (t.fresh names.next) =
      [.action (t.fresh names.next).stmt (e.bound (t.fresh names.next))] := by
    simp [Rewriting.added, hahead, hfound]
  refine ⟨olds, _, hx.frame frame hp ?_, htag, .ahead _ hadd hahead (by simp [hfound]) ?_⟩
  · rw [hadd]
    simp only [blockEntries, List.append_nil]
    grind
  · intro t' hinsert
    have hc : t.commands.get c = .ok old := has _ (hsub _ (List.mem_cons_self ..))
    rw [hfound, apply_hoistOperand hc ho names hset
      (fun x hx => has x (hsub x (List.mem_cons_of_mem _ hx))), insertHoisted_eq hinsert]
    simp [Rewriting.names, htaken]

section Changes

variable {names : Supply} {role : Role} {id : PipeId} {decls : List String}

theorem canChange_unwrap {c : CommandId} {x : ExprId} {inner : PipeId}
    {commands : List (Command Handle)} {p : Pipe Handle}
    (hp : p = .mk id decls [.mk c (.paren x (.mk inner [] commands)) []])
    (has : ∀ y ∈ p.entries, t.Has y) (nodup : (p.entries.map Entry.key).Nodup)
    (sound : ∀ y ∈ p.entries, y.Sound) (host : StmtId) :
    ∃ olds puts, t.CanChange names host role p
      ⟨⟨.redundantParens, .unwrap id inner⟩, none, .mk id decls commands, false⟩ olds puts := by
  subst hp
  have hne := sound (.pipe inner ⟨[], commands.map Command.tag⟩)
    (by simp [Pipe.entries, commandEntries, Command.entries, Expr.entries])
  obtain ⟨olds, hx⟩ := exchanges_unwrap (t := t) nodup (by simpa [Entry.Sound] using hne)
  have hget : t.pipes.get id = .ok ⟨decls, [c]⟩ := has (.pipe id _) (by simp [Pipe.entries])
  have hinner : t.pipes.get inner = .ok ⟨[], commands.map Command.tag⟩ := has (.pipe inner _)
    (by simp [Pipe.entries, commandEntries, Command.entries, Expr.entries])
  have hid : id ≠ inner := by
    rintro rfl
    simp [Pipe.entries, commandEntries, Command.entries, Expr.entries, Entry.key] at nodup
  refine ⟨olds, _, by simpa [Rewriting.added, blockEntries] using hx, rfl,
    .alone (by simp [Rewriting.added]) ?_⟩
  simp [Plan.apply, unwrap_eq hget hinner hid, Rewriting.names]

theorem canChange_fold {v c : CommandId} {value head : Expr Handle} {args : List (Expr Handle)}
    {rest : List (Command Handle)} {p : Pipe Handle}
    (hp : p = .mk id decls (.mk v value [] :: .mk c head args :: rest))
    (has : ∀ y ∈ p.entries, t.Has y) (host : StmtId) :
    ∃ olds puts, t.CanChange names host role p
      ⟨⟨.foldPipedValue, .fold id⟩, none, .mk id decls (.mk c head (args ++ [value]) :: rest),
        false⟩ olds puts := by
  subst hp
  obtain ⟨olds, hx⟩ := exchanges_fold (t := t) id decls v c value head args rest
  have hget : t.pipes.get id = .ok ⟨decls, v :: c :: rest.map Command.tag⟩ :=
    has (.pipe id _) (by simp [Pipe.entries])
  have hv : t.commands.get v = .ok ⟨value.tag, []⟩ :=
    has (.command v _) (by simp [Pipe.entries, commandEntries, Command.entries])
  have hc : t.commands.get c = .ok ⟨head.tag, args.map Expr.tag⟩ :=
    has (.command c _) (by simp [Pipe.entries, commandEntries, Command.entries])
  refine ⟨olds, _, by simpa [Rewriting.added, blockEntries] using hx, rfl,
    .alone (by simp [Rewriting.added]) ?_⟩
  simp [Plan.apply, fold_eq hget hv hc, Rewriting.names]

theorem canChange_leading {pre rest : List (Command Handle)} (hne : pre ≠ [])
    (has : ∀ y ∈ (Pipe.mk id decls (pre ++ rest)).entries, t.Has y) (rule : Rule) (host : StmtId) :
    ∃ olds puts, t.CanChange names host role (.mk id decls (pre ++ rest))
      (Pipe.bindLeading (t.fresh names.next) rule id decls pre rest) olds puts := by
  obtain ⟨olds, hx⟩ := exchanges_leading names.next has hne
  have hget : t.pipes.get id = .ok ⟨decls, pre.map Command.tag ++ rest.map Command.tag⟩ :=
    has (.pipe id _) (by simp [Pipe.entries])
  refine ⟨olds, _, by simpa [Rewriting.added, Pipe.bindLeading, blockEntries] using hx, rfl,
    .ahead (.mk (t.fresh names.next).pipe [names.next] pre)
      (by simp [Rewriting.added, Pipe.bindLeading]) rfl (by simp [Pipe.bindLeading]) ?_⟩
  intro t' hinsert
  have hlead := hoistLeading_eq hget host names.next
  rw [List.length_map, insertHoisted_eq hinsert] at hlead
  simp [Plan.apply, Pipe.bindLeading, hlead, Rewriting.names]

theorem canChange_head {c : Command Handle} {rest : List (Command Handle)} {p : Pipe Handle}
    (hp : p = .mk id decls (c :: rest)) (has : ∀ y ∈ p.entries, t.Has y)
    (nodup : (p.entries.map Entry.key).Nodup) (sound : ∀ y ∈ p.entries, y.Sound) (rule : Rule)
    (host : StmtId) :
    ∃ olds puts, t.CanChange names host role p
      (Pipe.bindHead (t.fresh names.next) rule id decls c rest) olds puts := by
  subst hp
  obtain ⟨c, head, args⟩ := c
  refine canChange_bound (p := .mk id decls (.mk c head args :: rest))
    (r := Pipe.bindHead _ rule id decls (.mk c head args) rest)
    ⟨head.tag, args.map Expr.tag⟩ ⟨(t.fresh names.next).expr, args.map Expr.tag⟩
    (.pipe id ⟨decls, c :: rest.map Command.tag⟩ :: (argEntries args ++ commandEntries rest))
    rfl rfl rfl rfl ?_ ?_ rfl rfl has nodup sound host
  · simp only [Pipe.entries, commandEntries, Command.entries, List.map_cons, Command.tag_mk,
      Command.head_mk]
    grind
  · simp only [Pipe.bindHead, Pipe.entries, commandEntries, Command.entries, List.map_cons,
      Command.tag_mk, stub_tag, Command.args_mk, Command.head_mk]
    grind

theorem canChange_arg {pre post : List (Command Handle)} {c : CommandId} {head e : Expr Handle}
    {before after : List (Expr Handle)} {p : Pipe Handle}
    (hp : p = .mk id decls (pre ++ .mk c head (before ++ e :: after) :: post))
    (has : ∀ y ∈ p.entries, t.Has y) (nodup : (p.entries.map Entry.key).Nodup)
    (sound : ∀ y ∈ p.entries, y.Sound) (host : StmtId) :
    ∃ olds puts, t.CanChange names host role p (Pipe.bindArg (t.fresh names.next) id decls pre
      (.mk c head (before ++ e :: after)) before e after post) olds puts := by
  subst hp
  refine canChange_bound (p := .mk id decls (pre ++ .mk c head (before ++ e :: after) :: post))
    (r := Pipe.bindArg _ id decls pre _ before e after post)
    ⟨head.tag, (before ++ e :: after).map Expr.tag⟩
    ⟨head.tag, (before ++ e.stub (t.fresh names.next) :: after).map Expr.tag⟩
    (.pipe id ⟨decls, pre.map Command.tag ++ c :: post.map Command.tag⟩ ::
      (head.entries ++ argEntries before ++ argEntries after ++ commandEntries pre ++
        commandEntries post)) rfl rfl rfl rfl ?_ ?_ ?_ ?_ has nodup sound host
  · simp only [Pipe.entries, commandEntries, Command.entries, List.map_cons, Command.tag_mk,
      List.map_append, argEntries_append, argEntries, commandEntries_append]
    grind
  · simp only [Pipe.bindArg, Pipe.entries, commandEntries, Command.entries, List.map_cons,
      Command.tag_mk, List.map_append, argEntries_append, argEntries, commandEntries_append,
      Command.head_mk]
    grind
  · simp [CommandNode.operand?]
  · simp [CommandNode.setOperand?, stub_tag]

theorem canChange_split {commands : List (Command Handle)} (hne : commands ≠ [])
    (has : ∀ y ∈ (Pipe.mk id decls commands).entries, t.Has y) (host : StmtId) :
    ∃ olds puts, t.CanChange names host .print (.mk id decls commands)
      ⟨⟨.splitPrint, .splitPrint⟩, none, .mk id [names.next] commands, true⟩ olds puts := by
  obtain ⟨olds, hx⟩ := exchanges_split names.next has hne
  have hget : t.pipes.get id = .ok ⟨decls, commands.map Command.tag⟩ :=
    has (.pipe id _) (by simp [Pipe.entries])
  refine ⟨olds, _, by simpa [Rewriting.added, blockEntries] using hx, rfl,
    .behind (by simp [Rewriting.added]) rfl rfl fun hs t' hinsert => ?_⟩
  have hsplit := splitPrint_eq hs hget hinsert
  simp [Plan.apply, hsplit, Rewriting.names]

end Changes

theorem canChange_of_change {names : Supply} {role : Role} {pattern : Pattern} {p : Pipe Handle}
    {r : Rewriting (Pipe Handle)} (hrole : pattern ∈ role.patterns)
    (h : Pipe.Change (t.fresh names.next) pattern p r) (has : ∀ x ∈ p.entries, t.Has x)
    (nodup : (p.entries.map Entry.key).Nodup) (sound : ∀ x ∈ p.entries, x.Sound) (host : StmtId) :
    ∃ olds puts, t.CanChange names host role p r olds puts := by
  cases h with
  | unwrap => exact canChange_unwrap rfl has nodup sound host
  | fold => exact canChange_fold rfl has host
  | leading _ rule _ _ _ _ why => exact canChange_leading why.ne_nil has rule host
  | head _ rule => exact canChange_head rfl has nodup sound rule host
  | arg => exact canChange_arg rfl has nodup sound host
  | split id decls commands hcall =>
    have hne : commands ≠ [] := by
      rintro rfl
      simp at hcall
    have hprint : role = .print := by
      cases role <;> simp [Role.patterns] at hrole ⊢
    subst hprint
    exact canChange_split hne has host

theorem Applies.map {names : Supply} {host : StmtId} {puts : List Entry} {role : Role}
    {r : Rewriting (Pipe Handle)} (g : Pipe Handle → Pipe Handle)
    (h : t.Applies names host puts role r) (hrole : role ≠ .print) (role' : Role) :
    t.Applies names host puts role' (r.map g) := by
  cases h with
  | alone hadd h => exact .alone hadd h
  | ahead a hadd hahead hedit h => exact .ahead a hadd hahead hedit h
  | behind => exact absurd rfl hrole

theorem canChange_map {names : Supply} {role : Role} {inner : Pipe Handle}
    {g : Pipe Handle → Pipe Handle} {r : Rewriting (Pipe Handle)} {host : StmtId}
    (frame : List Entry)
    (hperm : ∀ q, q.tag = inner.tag → (g q).entries.Perm (q.entries ++ frame))
    (htag : ∀ q, (g q).tag = (g inner).tag) (has : ∀ x ∈ (g inner).entries, t.Has x)
    (nodup : ((g inner).entries.map Entry.key).Nodup) (sound : ∀ x ∈ (g inner).entries, x.Sound)
    (h : (∀ x ∈ inner.entries, t.Has x) → (inner.entries.map Entry.key).Nodup →
      (∀ x ∈ inner.entries, x.Sound) →
        ∃ olds puts, t.CanChange names host .nested inner r olds puts) :
    ∃ olds puts, t.CanChange names host role (g inner) (r.map g) olds puts := by
  have hinner := hperm inner rfl
  have hsub : ∀ x ∈ inner.entries, x ∈ (g inner).entries := fun x hx =>
    hinner.mem_iff.mpr (List.mem_append_left _ hx)
  obtain ⟨olds, puts, hx, hrest, happ⟩ := h (fun x hx => has x (hsub x hx))
    (((hinner.map Entry.key).nodup_iff.mp nodup).sublist ((List.sublist_append_left _ _).map _))
    (fun x hx => sound x (hsub x hx))
  refine ⟨olds, puts, hx.frame frame hinner ?_, htag r.rest, happ.map g (by simp) role⟩
  have hrest := hperm r.rest hrest
  simp only [Rewriting.map] at hrest ⊢
  grind [Rewriting.added]

theorem canChange_of_rewrites {names : Supply} {role : Role} {p : Pipe Handle}
    {r : Rewriting (Pipe Handle)} (h : Pipe.Rewrites (t.fresh names.next) role p r)
    (has : ∀ x ∈ p.entries, t.Has x) (nodup : (p.entries.map Entry.key).Nodup)
    (sound : ∀ x ∈ p.entries, x.Sound) (host : StmtId) :
    ∃ olds puts, t.CanChange names host role p r olds puts := by
  induction h with
  | here h =>
    obtain ⟨before, pattern, after, hrole, hchange, -⟩ := Role.rewrite?_eq_some h
    exact canChange_of_change (by simp [hrole]) hchange has nodup sound host
  | @head role id decls pre c x inner args post r hown hpre h ih =>
    refine canChange_map (g := fun p => .mk id decls (pre ++ .mk c (.paren x p) args :: post))
      (.pipe id ⟨decls, pre.map Command.tag ++ c :: post.map Command.tag⟩ ::
        .command c ⟨x, args.map Expr.tag⟩ :: .expr x (.paren inner.tag) ::
        (commandEntries pre ++ argEntries args ++ commandEntries post)) (fun q hq => ?_)
      (fun _ => rfl) has nodup sound ih
    simp only [Pipe.entries, commandEntries, Command.entries, List.map_cons, Command.tag_mk,
      List.map_append, commandEntries_append, Expr.entries, Expr.tag_paren, hq]
    grind
  | @arg role id decls pre c head before x inner after post r hown hpre hhead hbefore h ih =>
    refine canChange_map
      (g := fun p => .mk id decls (pre ++ .mk c head (before ++ .paren x p :: after) :: post))
      (.pipe id ⟨decls, pre.map Command.tag ++ c :: post.map Command.tag⟩ ::
        .command c ⟨head.tag, before.map Expr.tag ++ x :: after.map Expr.tag⟩ ::
        .expr x (.paren inner.tag) :: (commandEntries pre ++ head.entries ++
          argEntries before ++ argEntries after ++ commandEntries post)) (fun q hq => ?_)
      (fun _ => rfl) has nodup sound ih
    simp only [Pipe.entries, commandEntries, Command.entries, List.map_cons, Command.tag_mk,
      List.map_append, commandEntries_append, Expr.entries, Expr.tag_paren, hq, argEntries,
      argEntries_append]
    grind

theorem entries_govern {s : Stmt Handle} {p : Pipe Handle} (hs : s.governing? = some p) :
    ∃ frame, ∀ q, q.tag = p.tag → (s.govern q).entries.Perm (q.entries ++ frame) := by
  match s with
  | .action id p' =>
    obtain rfl : p' = p := by simpa [Stmt.governing?] using hs
    refine ⟨[.stmt id (.action p'.tag)], fun q hq => ?_⟩
    simp only [Stmt.govern, Stmt.entries, hq]
    grind
  | .branch id kind p' body elseBody =>
    obtain rfl : p' = p := by simpa [Stmt.governing?] using hs
    refine ⟨.stmt id (.branch kind p'.tag (body.map Stmt.tag) (elseBody.map Stmt.tag)) ::
      (blockEntries body ++ blockEntries elseBody), fun q hq => ?_⟩
    simp only [Stmt.govern, Stmt.entries, hq]
    grind
  | .invoke id name (some p') =>
    obtain rfl : p' = p := by simpa [Stmt.governing?] using hs
    refine ⟨[.stmt id (.invoke name (some p'.tag))], fun q hq => ?_⟩
    simp only [Stmt.govern, Stmt.entries, hq]
    grind

theorem govern_governing {s : Stmt Handle} {p : Pipe Handle} (hs : s.governing? = some p) :
    s.govern p = s := by
  match s with
  | .action .. | .branch .. | .invoke _ _ (some _) =>
    simp only [Stmt.governing?, Option.some.injEq] at hs
    rw [Stmt.govern, hs]

theorem tag_govern (s : Stmt Handle) (p : Pipe Handle) : (s.govern p).tag = s.tag := by
  match s with
  | .text .. | .action .. | .branch .. | .invoke _ _ none | .invoke _ _ (some _) => rfl

section Context

variable {C : BlockContext} {b b' : Block Handle} {olds puts : List Entry}

theorem perm_plug (C : BlockContext) (b : Block Handle) :
    (blockEntries (C.plug b)).Perm (blockEntries b ++ (C.owner b ++ C.around)) :=
  (C.entries_plug b).trans List.perm_append_comm

def GrownTo (t t' : Tree) (b : Block Handle) : Prop :=
  ∀ kind, t'.arenaSize kind = t.arenaSize kind +
    if freshKey t.arenaSize kind ∈ blockKeys b then 1 else 0

theorem Holds.replace (h : t.Holds (C.plug b))
    (hx : t.Exchanges (blockEntries b) (blockEntries b') olds puts)
    (htags : b'.map Stmt.tag = b.map Stmt.tag) :
    (t.puts puts).Holds (C.plug b') ∧ t.GrownTo (t.puts puts) (C.plug b') := by
  have howner := C.owner_congr htags
  have hplug := hx.frame _ (perm_plug C b) (howner ▸ perm_plug C b')
  have hc := hplug.changed h.has
  exact ⟨h.exchange hplug hc (by rw [root_puts, h.root, C.map_tag_plug_congr htags]),
    hplug.arenaSize h.has⟩

theorem Holds.insert {pre post : Block Handle} {s : Stmt Handle}
    (h : t.Holds (C.plug (pre ++ s :: post)))
    (hx : t.Exchanges (blockEntries (pre ++ s :: post)) (blockEntries b') olds puts)
    (hstmt : ∀ e ∈ puts, e.key.1 = .stmt → e.key.2.index = t.arenaSize e.key.1) (new : StmtId)
    (k : Nat)
    (hb : ((pre ++ s :: post).map Stmt.tag).insertIdx (pre.length + k) new = b'.map Stmt.tag) :
    ∃ t', (t.puts puts).insertAt s.tag new k = .ok (some t') ∧ t'.Holds (C.plug b') ∧
      t.GrownTo t' (C.plug b') := by
  have hperm := C.entries_plug (pre ++ s :: post)
  have nodup := (hperm.map Entry.key).nodup_iff.mp h.nodup
  have hin : ∀ e ∈ C.owner (pre ++ s :: post) ++ blockEntries (pre ++ s :: post),
      e ∈ blockEntries (C.plug (pre ++ s :: post)) := fun e he => by
    rw [hperm.mem_iff]
    simp only [List.mem_append] at he ⊢
    grind
  have happend := hx.append (C.owner_keys _ b') (C.owner_sound b')
    (fun e he => h.has e (hin e (List.mem_append_left _ he))) (nodup.sublist (by simp))
  have hplug := happend.frame C.around (hperm.trans (by grind))
    ((C.entries_plug b').trans (by grind))
  have hc := hx.changed fun e he => h.has e (hin e (List.mem_append_right _ he))
  -- The statements that were there are none of the nodes that were put.
  have hstmts : (t.puts puts).HasStmts (blockEntries (C.plug (pre ++ s :: post))) := by
    intro e he hkind
    refine hc.old e (h.has e he) fun hmem => ?_
    obtain ⟨x, hx, hkey⟩ := List.mem_map.mp hmem
    have hnew := hstmt x hx (hkey ▸ hkind)
    have hlt := (h.has e he).index_lt
    rw [hkey] at hnew
    omega
  obtain ⟨t', hinsert, hroot, hc', hsize⟩ := insertAt_of_has C (by rw [root_puts, h.root]) hstmts
    h.nodup hb
  have hnodup := hplug.nodup
  rw [List.map_append, List.nodup_append] at hnodup
  have hall := hc.trans hc' fun e he hmem => hnodup.2.2 _ (List.mem_map_of_mem he) _ hmem rfl
  have hholds := h.exchange hplug hall hroot
  refine ⟨t', hinsert, hholds, fun kind => ?_⟩
  have hinner := hx.arenaSize (fun e he => h.has e (hin e (List.mem_append_right _ he))) kind
  rw [hsize, hinner]
  -- The next handle is not that of a node around the block, which was there before.
  by_cases hmem : freshKey t.arenaSize kind ∈ (blockEntries b').map Entry.key
  · have hplugged : freshKey t.arenaSize kind ∈ blockKeys (C.plug b') := by
      rw [blockKeys, ((C.entries_plug b').map Entry.key).mem_iff]
      simp only [List.map_append, List.mem_append]
      grind
    rw [if_pos hmem, if_pos hplugged]
  · rw [if_neg hmem] at hinner ⊢
    rw [if_neg]
    intro hplugged
    obtain ⟨e, he, hkey⟩ := List.mem_map.mp hplugged
    have hlt := (hholds.has e he).index_lt
    rw [hkey] at hlt
    change t.arenaSize kind < t'.arenaSize kind at hlt
    have hsame := hsize kind
    omega

end Context

theorem Holds.apply {b : Block Handle} (h : t.Holds b) {names : Supply} {r : BlockRewriting}
    (hr : blockRewrite? (t.fresh names.next) b = some r) :
    ∃ t', r.plan.apply names t = .ok (t', if r.taken then names.rest else names) ∧
      t'.Holds r.block ∧ t.GrownTo t' r.block := by
  obtain ⟨C, pre, s, post, own, hown, rfl, rfl⟩ := blockRewrite?_eq_some hr
  rw [Stmt.rewriteOwn?_eq] at hown
  obtain ⟨p, hp, hown⟩ := Option.bind_eq_some_iff.mp hown
  obtain ⟨q, hq, rfl⟩ := Option.map_eq_some_iff.mp hown
  obtain ⟨frame, hframe⟩ := entries_govern hp
  have hs := hframe p rfl
  rw [govern_governing hp] at hs
  have hold : (blockEntries (pre ++ s :: post)).Perm
      (p.entries ++ (frame ++ blockEntries pre ++ blockEntries post)) := by
    simp only [blockEntries_append, blockEntries]
    grind
  have hplug := (perm_plug C (pre ++ s :: post)).trans (hold.append_right _)
  have hsub : ∀ x ∈ p.entries, x ∈ blockEntries (C.plug (pre ++ s :: post)) := fun x hx =>
    hplug.mem_iff.mpr (by simp [hx])
  obtain ⟨olds, puts, hx, htag, happ⟩ := canChange_of_rewrites (Pipe.rewrite?_rewrites hq)
    (fun x hx => h.has x (hsub x hx))
    (((hplug.map Entry.key).nodup_iff.mp h.nodup).sublist (by simp [List.append_assoc]))
    (fun x hx => h.sound x (hsub x hx)) s.tag
  have hnew := hframe q.rest htag
  -- No statement among the nodes that are put was there before.
  have hstmt : ∀ e ∈ puts, e.key.1 = .stmt → e.key.2.index = t.arenaSize e.key.1 := by
    intro e he hkind
    refine (hx.keys_before he).resolve_left fun hmem => ?_
    obtain ⟨x, hx, hkey⟩ := List.mem_map.mp hmem
    exact p.kind_ne_stmt x hx (hkey ▸ hkind)
  have hblock := Stmt.block_around (t.fresh names.next) s.tag (s.govern ·) q
  obtain ⟨role, hrole⟩ : ∃ role, s.role = role := ⟨_, rfl⟩
  rw [hrole] at happ
  cases happ with
  | alone hadd happ =>
    rw [hadd] at hx
    simp only [Rewriting.added, List.append_eq_nil_iff] at hadd
    simp only [hadd, List.nil_append] at hblock
    rw [hblock]
    have hx' : t.Exchanges _ (blockEntries (pre ++ [s.govern q.rest] ++ post)) olds puts :=
      hx.frame _ hold (by
        simp only [blockEntries_append, blockEntries]
        grind)
    exact ⟨_, happ, h.replace hx' (by simp [tag_govern])⟩
  | ahead a hadd hahead hedit happ =>
    simp only [hahead, hedit, Option.map_some, Option.toList_some, if_false, List.singleton_append]
      at hblock
    rw [hadd] at hx
    rw [hblock]
    have hx' : t.Exchanges _ (blockEntries
        (pre ++ [.action (t.fresh names.next).stmt a, s.govern q.rest] ++ post)) olds puts :=
      hx.frame _ hold (by
        simp only [blockEntries_append, blockEntries]
        grind)
    obtain ⟨t', hinsert, hholds⟩ := h.insert hx' hstmt
      (t.fresh names.next).stmt 0 (by
        rw [List.map_append, ← List.length_map, insertIdx_add]
        simp [tag_govern])
    exact ⟨t', happ t' hinsert, hholds⟩
  | behind hadd hahead hedit happ =>
    simp only [hahead, hedit, Option.map_none, Option.toList_none, if_true, List.nil_append]
      at hblock
    rw [hadd] at hx
    rw [hblock]
    have hget : t.stmts.get s.tag = .ok (.action q.rest.tag) := by
      cases s with
      | action id p' =>
        obtain rfl : p' = p := by simpa [Stmt.governing?] using hp
        rw [htag]
        refine h.has (.stmt id (.action p'.tag)) ((perm_plug C _).mem_iff.mpr ?_)
        simp [Stmt.entries, blockEntries]
      | text | branch | invoke => simp [Stmt.role] at hrole
    have hx' : t.Exchanges _ (blockEntries
        (pre ++ [s.govern q.rest, (t.fresh names.next).print] ++ post)) olds puts :=
      hx.frame _ hold (by
        simp only [blockEntries_append, blockEntries]
        grind)
    obtain ⟨t', hinsert, hholds⟩ := h.insert hx' hstmt
      (t.fresh names.next).stmt 1 (by
        rw [List.map_append, ← List.length_map, insertIdx_add]
        simp [tag_govern, Fresh.print])
    exact ⟨t', happ hget t' hinsert, hholds⟩

end Tree

end FlatTemplate

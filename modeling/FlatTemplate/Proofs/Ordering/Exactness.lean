import FlatTemplate.Proofs.Ordering.Events

namespace FlatTemplate

mutual

theorem Expr.length_hoisted (e : Expr Handle) : e.hoisted.length = e.events.length := by
  cases e with
  | atom => rfl
  | paren _ inner => exact inner.length_hoisted

theorem length_argHoisted (es : List (Expr Handle)) :
    (argHoisted es).length = (argEvents es).length := by
  cases es with
  | nil => rfl
  | cons e es =>
    rw [argHoisted, argEvents, List.length_append, List.length_append, e.length_hoisted,
      length_argHoisted es]

theorem length_parenHoisted (es : List (Expr Handle)) :
    (parenHoisted es ++ readEvents es).length = (argEvents es).length := by
  match es with
  | [] => rfl
  | .atom id a :: es =>
    have h := length_parenHoisted es
    rw [List.length_append] at h
    rw [parenHoisted, readEvents_cons, argEvents, List.length_append, List.length_append,
      List.length_append, ← h]
    have hread : (if (Expr.atom id a).node.isPathRead then [(Expr.atom id a).tag] else []) =
        (Expr.atom id a).events := rfl
    rw [hread]
    omega
  | .paren x inner :: es =>
    have h := length_parenHoisted es
    rw [List.length_append] at h
    have hread : readEvents (.paren x inner :: es) = readEvents es := rfl
    rw [parenHoisted, hread, argEvents, Expr.events, List.length_append, List.length_append,
      List.length_append, ← h, inner.length_hoisted]
    omega

theorem Command.length_hoisted (c : Command Handle) : c.hoisted.length = c.events.length := by
  match c with
  | .mk _ (.atom id a) args =>
    rw [Command.hoisted, Command.events]
    split
    · rw [List.length_append, length_parenHoisted args, List.length_append]
    · rw [List.length_append, length_argHoisted args, List.length_append]
  | .mk _ (.paren _ inner) args =>
    rw [Command.hoisted, Command.events, List.length_append, List.length_append,
      inner.length_hoisted, length_argHoisted args]

theorem length_commandHoisted (cs : List (Command Handle)) :
    (commandHoisted cs).length = (commandEvents cs).length := by
  cases cs with
  | nil => rfl
  | cons c cs =>
    rw [commandHoisted, commandEvents, List.length_append, List.length_append, c.length_hoisted,
      length_commandHoisted cs]

theorem Pipe.length_hoisted (p : Pipe Handle) : p.hoisted.length = p.events.length := by
  obtain ⟨_, _, commands⟩ := p
  exact length_commandHoisted commands

end

theorem append_eq_append_iff_of_length {α : Type} {as bs cs ds : List α}
    (h : as.length = bs.length) : as ++ cs = bs ++ ds ↔ as = bs ∧ cs = ds :=
  ⟨fun heq => List.append_inj heq h, fun ⟨hab, hcd⟩ => by rw [hab, hcd]⟩

theorem Expr.key_mem_entries (e : Expr Handle) : ⟨.expr, e.tag⟩ ∈ e.entries.map Entry.key := by
  cases e with
  | atom => exact List.mem_singleton_self _
  | paren => exact List.mem_cons_self

theorem mem_readEvents {es : List (Expr Handle)} {x : ExprId} (h : x ∈ readEvents es) :
    ⟨.expr, x⟩ ∈ (argEntries es).map Entry.key := by
  obtain ⟨e, he, rfl⟩ := List.mem_map.mp h
  obtain ⟨y, hy, hkey⟩ := List.mem_map.mp e.key_mem_entries
  exact List.mem_map.mpr ⟨y, mem_argEntries.mpr ⟨e, (List.mem_filter.mp he).1, hy⟩, hkey⟩

mutual

theorem Expr.mem_hoisted (e : Expr Handle) {x : ExprId} (h : x ∈ e.hoisted) :
    ⟨.expr, x⟩ ∈ e.entries.map Entry.key := by
  cases e with
  | atom id a =>
    rw [Expr.hoisted] at h
    split at h
    · obtain rfl := List.mem_singleton.mp h
      exact List.mem_singleton_self _
    · cases h
  | paren id inner => exact List.mem_cons_of_mem _ (inner.mem_hoisted h)

theorem mem_argHoisted (es : List (Expr Handle)) {x : ExprId} (h : x ∈ argHoisted es) :
    ⟨.expr, x⟩ ∈ (argEntries es).map Entry.key := by
  cases es with
  | nil => cases h
  | cons e es =>
    rw [argEntries, List.map_append]
    rcases List.mem_append.mp h with h | h
    · exact List.mem_append_left _ (e.mem_hoisted h)
    · exact List.mem_append_right _ (mem_argHoisted es h)

theorem mem_parenHoisted (es : List (Expr Handle)) {x : ExprId} (h : x ∈ parenHoisted es) :
    ⟨.expr, x⟩ ∈ (argEntries es).map Entry.key := by
  match es with
  | [] => cases h
  | .atom id a :: es =>
    rw [argEntries, List.map_append]
    exact List.mem_append_right _ (mem_parenHoisted es h)
  | .paren id inner :: es =>
    rw [argEntries, List.map_append]
    rcases List.mem_append.mp h with h | h
    · exact List.mem_append_left _ (List.mem_cons_of_mem _ (inner.mem_hoisted h))
    · exact List.mem_append_right _ (mem_parenHoisted es h)

theorem Command.mem_hoisted (c : Command Handle) {x : ExprId} (h : x ∈ c.hoisted) :
    ⟨.expr, x⟩ ∈ c.entries.map Entry.key := by
  obtain ⟨c, head, args⟩ := c
  rw [Command.entries, List.map_cons, List.map_append]
  refine List.mem_cons_of_mem _ (List.mem_append.mpr ?_)
  cases head with
  | paren id inner =>
    rcases List.mem_append.mp h with h | h
    · exact .inl (List.mem_cons_of_mem _ (inner.mem_hoisted h))
    · exact .inr (mem_argHoisted args h)
  | atom id a =>
    have hacts (h : x ∈ a.acts id args) : x = id := by
      unfold Atom.acts at h
      split at h
      · exact List.mem_singleton.mp h
      · cases h
    have hhead (h : x ∈ a.acts id args) :
        ⟨.expr, x⟩ ∈ (Expr.atom id a).entries.map Entry.key :=
      hacts h ▸ List.mem_singleton_self _
    rw [Command.hoisted] at h
    split at h
    · rcases List.mem_append.mp h with h | h
      · rcases List.mem_append.mp h with h | h
        · exact .inr (mem_parenHoisted args h)
        · exact .inr (mem_readEvents h)
      · exact .inl (hhead h)
    · rcases List.mem_append.mp h with h | h
      · exact .inr (mem_argHoisted args h)
      · exact .inl (hhead h)

theorem mem_commandHoisted (cs : List (Command Handle)) {x : ExprId} (h : x ∈ commandHoisted cs) :
    ⟨.expr, x⟩ ∈ (commandEntries cs).map Entry.key := by
  cases cs with
  | nil => cases h
  | cons c cs =>
    rw [commandEntries, List.map_append]
    rcases List.mem_append.mp h with h | h
    · exact List.mem_append_left _ (c.mem_hoisted h)
    · exact List.mem_append_right _ (mem_commandHoisted cs h)

theorem Pipe.mem_hoisted (p : Pipe Handle) {x : ExprId} (h : x ∈ p.hoisted) :
    ⟨.expr, x⟩ ∈ p.entries.map Entry.key := by
  obtain ⟨id, decls, commands⟩ := p
  exact List.mem_cons_of_mem _ (mem_commandHoisted commands h)

end

theorem argHoisted_eq_iff (es : List (Expr Handle)) :
    argHoisted es = argEvents es ↔ ∀ e ∈ es, e.hoisted = e.events := by
  induction es with
  | nil => exact iff_of_true rfl nofun
  | cons e es ih =>
    rw [argHoisted, argEvents, append_eq_append_iff_of_length e.length_hoisted, ih,
      List.forall_mem_cons]

theorem parenHoisted_eq_nil_iff (es : List (Expr Handle)) :
    parenHoisted es = [] ↔ ∀ e ∈ es, e.node.isParen → e.events = [] := by
  induction es with
  | nil => exact iff_of_true rfl nofun
  | cons e es ih =>
    rw [List.forall_mem_cons, ← ih]
    cases e with
    | atom => exact (and_iff_right nofun).symm
    | paren x inner =>
      have hlength := inner.length_hoisted
      rw [parenHoisted, List.append_eq_nil_iff, ← List.length_eq_zero_iff, hlength,
        List.length_eq_zero_iff]
      exact and_congr_left' ⟨fun h _ => h, fun h => h rfl⟩

theorem methodArgs_eq_iff {es : List (Expr Handle)}
    (nodup : ((argEntries es).map Entry.key).Nodup) :
    parenHoisted es ++ readEvents es = argEvents es ↔ (∀ e ∈ es, e.hoisted = e.events) ∧
      es.Pairwise fun a e => a.node.isPathRead → e.node.isParen → e.events = [] := by
  induction es with
  | nil => exact iff_of_true rfl ⟨nofun, .nil⟩
  | cons e es ih =>
    rw [argEntries, List.map_append, List.nodup_append] at nodup
    have ih := ih nodup.2.1
    rw [List.forall_mem_cons, List.pairwise_cons]
    cases e with
    | paren x inner =>
      have hread : readEvents (.paren x inner :: es) = readEvents es := rfl
      rw [parenHoisted, argEvents, hread, List.append_assoc, Expr.events, Expr.hoisted,
        append_eq_append_iff_of_length inner.length_hoisted, ih]
      have hnone : ∀ e ∈ es, (Expr.paren x inner).node.isPathRead → e.node.isParen →
          e.events = [] := fun _ _ h => by cases h
      rw [and_assoc]
      exact and_congr_right fun _ => and_congr_right fun _ => (and_iff_right hnone).symm
    | atom id a =>
      have hsame : (Expr.atom id a).hoisted = (Expr.atom id a).events := rfl
      rw [parenHoisted, argEvents, readEvents_cons, and_iff_right hsame]
      by_cases hpath : (Expr.atom id a).node.isPathRead
      · have hevents : (Expr.atom id a).events = [id] := if_pos hpath
        -- The path is read first, but what stands in parentheses is taken ahead of it, so nothing
        -- may stand there.
        have hfirst : parenHoisted es ++ (id :: readEvents es) = id :: argEvents es ↔
            parenHoisted es = [] ∧ parenHoisted es ++ readEvents es = argEvents es := by
          cases hparen : parenHoisted es with
          | nil => simp
          | cons x xs =>
            have hne : x ≠ id := by
              rintro rfl
              have hx : x ∈ parenHoisted es := hparen ▸ List.mem_cons_self
              exact nodup.2.2 _ (List.mem_singleton_self _) _ (mem_parenHoisted es hx) rfl
            simp [hne]
        rw [if_pos hpath, hevents, List.singleton_append, List.singleton_append, Expr.tag_atom,
          hfirst, parenHoisted_eq_nil_iff, ih, and_left_comm]
        simp only [hpath, forall_const]
      · have hevents : (Expr.atom id a).events = [] := if_neg hpath
        have hnone : ∀ e ∈ es, (Expr.atom id a).node.isPathRead → e.node.isParen →
            e.events = [] := fun _ _ h => absurd h hpath
        rw [if_neg hpath, hevents, List.nil_append, List.nil_append, ih, and_iff_right hnone]

theorem Command.orderly_iff {id : CommandId} {x : ExprId} {a : Atom} {args : List (Expr Handle)}
    (ha : a.isPathRead || a = .dot) : (Command.mk id (.atom x a) args).Orderly ↔
      args.Pairwise fun a e => a.node.isPathRead → e.node.isParen → e.events = [] := by
  rw [Command.Orderly, Command.isMethodCall_atom, Command.args_mk]
  refine ⟨fun h => ?_, fun h _ => h⟩
  by_cases hargs : args = []
  · rw [hargs]
    exact .nil
  · exact h ⟨hargs, ha⟩

mutual

theorem Expr.hoisted_eq_iff (e : Expr Handle) (nodup : (e.entries.map Entry.key).Nodup) :
    e.hoisted = e.events ↔ ∀ q ∈ e.pipes, q.Orderly := by
  cases e with
  | atom => exact iff_of_true rfl nofun
  | paren _ inner => exact inner.hoisted_eq_iff (List.nodup_cons.mp nodup).2

theorem args_hoisted_eq_iff (es : List (Expr Handle))
    (nodup : ((argEntries es).map Entry.key).Nodup) :
    (∀ e ∈ es, e.hoisted = e.events) ↔ ∀ q ∈ argPipes es, q.Orderly := by
  cases es with
  | nil => exact iff_of_true nofun nofun
  | cons e es =>
    rw [argEntries, List.map_append, List.nodup_append] at nodup
    rw [List.forall_mem_cons, argPipes, List.forall_mem_append, e.hoisted_eq_iff nodup.1,
      args_hoisted_eq_iff es nodup.2.1]

theorem Command.hoisted_eq_iff (c : Command Handle) (nodup : (c.entries.map Entry.key).Nodup) :
    c.hoisted = c.events ↔ c.Orderly ∧ ∀ q ∈ c.pipes, q.Orderly := by
  obtain ⟨id, head, args⟩ := c
  rw [Command.entries, List.map_cons, List.map_append, List.nodup_cons, List.nodup_append] at nodup
  have hargs := args_hoisted_eq_iff args nodup.2.2.1
  rw [Command.pipes, List.forall_mem_append]
  cases head with
  | paren x inner =>
    have horderly : (Command.mk id (.paren x inner) args).Orderly := fun h => by
      simp [CommandView.isMethodCall, ExprNode.isPathRead, Expr.node] at h
    rw [Command.hoisted, Command.events, append_eq_append_iff_of_length inner.length_hoisted,
      inner.hoisted_eq_iff (List.nodup_cons.mp nodup.2.1).2, argHoisted_eq_iff, hargs,
      and_iff_right horderly]
    rfl
  | atom x a =>
    rw [Command.hoisted, Command.events]
    have hhead : ∀ q ∈ (Expr.atom x a).pipes, q.Orderly := nofun
    rw [and_iff_right hhead]
    split
    · next ha =>
      rw [append_eq_append_iff_of_length (length_parenHoisted args), and_iff_left rfl,
        methodArgs_eq_iff nodup.2.2.1, hargs, and_comm]
      exact and_congr_left' (Command.orderly_iff ha).symm
    · next ha =>
      have horderly : (Command.mk id (.atom x a) args).Orderly := fun h =>
        absurd (Command.isMethodCall_atom.mp h).2 ha
      rw [append_eq_append_iff_of_length (length_argHoisted args), and_iff_left rfl,
        argHoisted_eq_iff, hargs, and_iff_right horderly]

theorem commands_hoisted_eq_iff (cs : List (Command Handle))
    (nodup : ((commandEntries cs).map Entry.key).Nodup) :
    commandHoisted cs = commandEvents cs ↔
      (∀ c ∈ cs, c.Orderly) ∧ ∀ q ∈ commandPipes cs, q.Orderly := by
  cases cs with
  | nil => exact iff_of_true rfl ⟨nofun, nofun⟩
  | cons c cs =>
    rw [commandEntries, List.map_append, List.nodup_append] at nodup
    rw [commandHoisted, commandEvents, append_eq_append_iff_of_length c.length_hoisted,
      c.hoisted_eq_iff nodup.1, commands_hoisted_eq_iff cs nodup.2.1, List.forall_mem_cons,
      commandPipes, List.forall_mem_append]
    exact and_and_and_comm

theorem Pipe.hoisted_eq_iff (p : Pipe Handle) (nodup : (p.entries.map Entry.key).Nodup) :
    p.hoisted = p.events ↔ ∀ q ∈ p.pipes, q.Orderly := by
  obtain ⟨id, decls, commands⟩ := p
  rw [Pipe.pipes, List.forall_mem_cons]
  exact commands_hoisted_eq_iff commands (List.nodup_cons.mp nodup).2

end

end FlatTemplate

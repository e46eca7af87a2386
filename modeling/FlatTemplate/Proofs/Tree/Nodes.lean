import FlatTemplate.Proofs.Tree.Ownership
import FlatTemplate.Proofs.Tree.Storing

namespace FlatTemplate

namespace Arena

variable {kind : NodeKind} {α : Type}

def entries (a : Arena kind α) : List (Handle kind × α) :=
  a.nodes.toList.zipIdx.map fun x => (⟨x.2⟩, x.1)

theorem mem_entries {a : Arena kind α} {h : Handle kind} {node : α} :
    (h, node) ∈ a.entries ↔ a.get h = .ok node := by
  obtain ⟨i⟩ := h
  have hget : a.get ⟨i⟩ = .ok node ↔ a.nodes[i]? = some node := by
    unfold get
    split <;> simp_all
  rw [hget, entries, List.mem_map]
  constructor
  · rintro ⟨⟨x, j⟩, hx, hxi⟩
    obtain ⟨hi, rfl⟩ := Prod.mk.inj hxi
    obtain rfl := Handle.mk.inj hi
    rw [List.mem_zipIdx_iff_getElem?] at hx
    simpa using hx
  · intro h
    refine ⟨(node, i), ?_, rfl⟩
    rw [List.mem_zipIdx_iff_getElem?]
    simpa using h

theorem nodup_entries (a : Arena kind α) : a.entries.Nodup := by
  have hindices : a.entries.map (fun x => x.1.index) = List.range' 0 a.nodes.toList.length := by
    rw [entries, List.map_map]
    exact List.zipIdx_map_snd ..
  exact List.Nodup.of_map _ (hindices ▸ List.nodup_range')

end Arena

namespace Tree

def entries (t : Tree) : List Entry :=
  t.stmts.entries.map (fun x => .stmt x.1 x.2) ++ (t.pipes.entries.map (fun x => .pipe x.1 x.2) ++
    (t.commands.entries.map (fun x => .command x.1 x.2) ++
      t.exprs.entries.map fun x => .expr x.1 x.2))

def references (t : Tree) : List Key := t.roots ++ t.entries.flatMap Entry.children

variable {t : Tree} {b : Block Handle}

theorem mem_entries {e : Entry} : e ∈ t.entries ↔ t.Has e := by
  simp only [entries, List.mem_append, List.mem_map, Prod.exists, Arena.mem_entries]
  cases e with
  | stmt id node => simp [Has]
  | pipe id node => simp [Has]
  | command id node => simp [Has]
  | expr id node => simp [Has]

theorem nodup_entries (t : Tree) : t.entries.Nodup := by
  have hstmts := t.stmts.nodup_entries.map (f := fun x => Entry.stmt x.1 x.2)
    fun _ _ h => Prod.ext (Entry.stmt.inj h).1 (Entry.stmt.inj h).2
  have hpipes := t.pipes.nodup_entries.map (f := fun x => Entry.pipe x.1 x.2)
    fun _ _ h => Prod.ext (Entry.pipe.inj h).1 (Entry.pipe.inj h).2
  have hcommands := t.commands.nodup_entries.map (f := fun x => Entry.command x.1 x.2)
    fun _ _ h => Prod.ext (Entry.command.inj h).1 (Entry.command.inj h).2
  have hexprs := t.exprs.nodup_entries.map (f := fun x => Entry.expr x.1 x.2)
    fun _ _ h => Prod.ext (Entry.expr.inj h).1 (Entry.expr.inj h).2
  have hmem {kind : NodeKind} {α : Type} {f : Handle kind × α → Entry} {a : Arena kind α}
      {e : Entry} (he : e ∈ a.entries.map f) : ∃ x, f x = e :=
    (List.mem_map.mp he).imp fun _ h => h.2
  refine hstmts.append (hpipes.append (hcommands.append hexprs ?_) ?_) ?_
  all_goals
    intro e he he'
    obtain ⟨x, rfl⟩ := hmem he
    simp only [List.mem_append, List.mem_map, reduceCtorEq, and_false, exists_false, or_self] at he'

theorem exists_has {k : Key} (hk : k.2.index < t.arenaSize k.1) : ∃ e, t.Has e ∧ e.key = k := by
  have hget {kind : NodeKind} {α : Type} (a : Arena kind α) (h : Handle kind)
      (hlt : h.index < a.nodes.size) : ∃ node, a.get h = .ok node := by
    refine ⟨a.nodes[h.index], ?_⟩
    rw [Arena.get, Array.getElem?_eq_getElem hlt]
  obtain ⟨kind, id⟩ := k
  cases kind with
  | stmt =>
    obtain ⟨node, hnode⟩ := hget t.stmts id hk
    exact ⟨.stmt id node, hnode, rfl⟩
  | pipe =>
    obtain ⟨node, hnode⟩ := hget t.pipes id hk
    exact ⟨.pipe id node, hnode, rfl⟩
  | command =>
    obtain ⟨node, hnode⟩ := hget t.commands id hk
    exact ⟨.command id node, hnode, rfl⟩
  | expr =>
    obtain ⟨node, hnode⟩ := hget t.exprs id hk
    exact ⟨.expr id node, hnode, rfl⟩

namespace Stores

variable (h : t.Stores b)
include h

theorem entries_perm : t.entries.Perm (blockEntries b) := by
  have nodup : (blockEntries b).Nodup := List.Nodup.of_map _ h.nodup
  rw [List.perm_ext_iff_of_nodup t.nodup_entries nodup]
  intro e
  rw [mem_entries, h.has_iff]

theorem references_perm : t.references.Perm (blockKeys b) := by
  have hroots : t.roots = (b.map Stmt.tag).map Handle.key := by rw [roots, h.root]
  rw [references, hroots]
  exact ((h.entries_perm.flatMap_right _).append_left _).trans (blockChildren_perm b)

theorem mem_keys_iff {k : Key} : k ∈ blockKeys b ↔ k.2.index < t.arenaSize k.1 := by
  constructor
  · intro hk
    obtain ⟨e, he, rfl⟩ := List.mem_map.mp hk
    exact ((h.has_iff e).mpr he).index_lt
  · intro hk
    obtain ⟨e, he, rfl⟩ := exists_has hk
    exact List.mem_map_of_mem ((h.has_iff e).mp he)

theorem mem_references_iff {k : Key} : k ∈ t.references ↔ k.2.index < t.arenaSize k.1 := by
  rw [h.references_perm.mem_iff, h.mem_keys_iff]

theorem count_references {k : Key} (hk : k.2.index < t.arenaSize k.1) :
    t.references.count k = 1 := by
  rw [h.references_perm.count_eq]
  exact List.count_eq_one_of_mem h.nodup (h.mem_keys_iff.mpr hk)

end Stores

end Tree

end FlatTemplate

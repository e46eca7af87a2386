import FlatTemplate.Proofs.Tree.Locating

namespace FlatTemplate

structure Tree.Exchanges (t : Tree) (before after olds puts : List Entry) : Prop where
  keys : ∀ e ∈ puts, e.key ∈ olds.map Entry.key ∨ e.key.2.index = t.arenaSize e.key.1
  nodup : (puts.map Entry.key).Nodup
  exchange : ∃ news others, news.Sublist puts ∧
    (∀ e ∈ puts, e.key ∈ olds.map Entry.key ∨ e ∈ news) ∧ before.Perm (olds ++ others) ∧
    after.Perm (news ++ others) ∧ ∀ e ∈ news, e.Sound

namespace Tree

variable {t t' : Tree} {before after olds puts : List Entry}

theorem Exchanges.frame (h : t.Exchanges before after olds puts) {before' after' : List Entry}
    (frame : List Entry) (hbefore : before'.Perm (before ++ frame))
    (hafter : after'.Perm (after ++ frame)) : t.Exchanges before' after' olds puts := by
  obtain ⟨news, others, hsub, hnews, hb, ha, hsound⟩ := h.exchange
  refine ⟨h.keys, h.nodup, news, others ++ frame, hsub, hnews, ?_, ?_, hsound⟩
  · rw [← List.append_assoc]
    exact hbefore.trans (hb.append_right frame)
  · rw [← List.append_assoc]
    exact hafter.trans (ha.append_right frame)

theorem Exchanges.keys_before (h : t.Exchanges before after olds puts) {e : Entry}
    (he : e ∈ puts) : e.key ∈ before.map Entry.key ∨ e.key.2.index = t.arenaSize e.key.1 := by
  obtain ⟨news, others, -, -, hb, -, -⟩ := h.exchange
  refine (h.keys e he).imp_left fun hold => ?_
  rw [(hb.map Entry.key).mem_iff, List.map_append]
  exact List.mem_append_left _ hold

theorem Exchanges.index_le (h : t.Exchanges before after olds puts)
    (has : ∀ e ∈ before, t.Has e) {e : Entry} (he : e ∈ puts) :
    e.key.2.index ≤ t.arenaSize e.key.1 := by
  rcases h.keys_before he with hkey | hkey
  · obtain ⟨x, hx, hkey⟩ := List.mem_map.mp hkey
    rw [← hkey]
    exact Nat.le_of_lt (has x hx).index_lt
  · exact Nat.le_of_eq hkey

theorem Exchanges.changed (h : t.Exchanges before after olds puts) (has : ∀ e ∈ before, t.Has e) :
    t.Changed (t.puts puts) puts :=
  changed_puts (fun _ he => h.index_le has he) h.nodup

theorem freshKey_not_mem {entries : List Entry} (has : ∀ e ∈ entries, t.Has e)
    (kind : NodeKind) : freshKey t.arenaSize kind ∉ entries.map Entry.key := by
  intro hmem
  obtain ⟨e, he, hkey⟩ := List.mem_map.mp hmem
  have hlt := (has e he).index_lt
  rw [hkey] at hlt
  exact Nat.lt_irrefl _ hlt

theorem Exchanges.arenaSize (h : t.Exchanges before after olds puts)
    (has : ∀ e ∈ before, t.Has e) (kind : NodeKind) :
    (t.puts puts).arenaSize kind = t.arenaSize kind +
      if freshKey t.arenaSize kind ∈ after.map Entry.key then 1 else 0 := by
  have hmem : freshKey t.arenaSize kind ∈ puts.map Entry.key ↔
      freshKey t.arenaSize kind ∈ after.map Entry.key := by
    obtain ⟨news, others, hsub, hnews, hb, ha, -⟩ := h.exchange
    have hold : ∀ e ∈ olds ++ others, t.Has e := fun e he => has e (hb.mem_iff.mpr he)
    rw [(ha.map Entry.key).mem_iff, List.map_append, List.mem_append]
    constructor
    · intro hkey
      obtain ⟨e, he, hkey⟩ := List.mem_map.mp hkey
      rcases hnews e he with hmem | hmem
      · rw [hkey] at hmem
        exact absurd hmem (freshKey_not_mem (fun e he => hold e (List.mem_append_left _ he)) kind)
      · exact .inl (hkey ▸ List.mem_map_of_mem hmem)
    · rintro (hkey | hkey)
      · exact (hsub.map Entry.key).subset hkey
      · exact absurd hkey (freshKey_not_mem (fun e he => hold e (List.mem_append_right _ he)) kind)
  rw [arenaSize_puts (fun _ he => h.index_le has he) h.nodup]
  simp only [hmem]

theorem Exchanges.append (h : t.Exchanges before after olds puts) {olds' news' : List Entry}
    (hkeys : olds'.map Entry.key = news'.map Entry.key) (hsound : ∀ e ∈ news', e.Sound)
    (has : ∀ e ∈ olds', t.Has e) (hnodup : ((olds' ++ before).map Entry.key).Nodup) :
    t.Exchanges (olds' ++ before) (news' ++ after) (olds' ++ olds) (puts ++ news') := by
  obtain ⟨news, others, hsub, hnews, hb, ha, hs⟩ := h.exchange
  rw [List.map_append, List.nodup_append] at hnodup
  have hin {k : Key} (hk : k ∈ news'.map Entry.key) : k.2.index < t.arenaSize k.1 := by
    rw [← hkeys] at hk
    obtain ⟨e, he, rfl⟩ := List.mem_map.mp hk
    exact (has e he).index_lt
  refine ⟨fun e he => ?_, ?_, news ++ news', others, hsub.append_right news', ?_, ?_, ?_, ?_⟩
  · rw [List.map_append, List.mem_append]
    rcases List.mem_append.mp he with he | he
    · exact (h.keys e he).imp_left .inr
    · exact .inl (.inl (hkeys ▸ List.mem_map_of_mem he))
  · rw [List.map_append, List.nodup_append]
    refine ⟨h.nodup, hkeys ▸ hnodup.1, ?_⟩
    rintro _ hk k hk' rfl
    obtain ⟨e, he, hek⟩ := List.mem_map.mp hk
    rcases h.keys_before he with hmem | hnew
    · exact hnodup.2.2 _ (hkeys ▸ hk') _ (hek ▸ hmem) rfl
    · have := hin hk'
      rw [← hek] at this
      omega
  · intro e he
    rw [List.map_append, List.mem_append, List.mem_append]
    rcases List.mem_append.mp he with he | he
    · exact (hnews e he).imp .inr .inl
    · exact .inr (.inr he)
  · rw [List.append_assoc]
    exact hb.append_left olds'
  · refine (ha.append_left news').trans ?_
    rw [← List.append_assoc]
    exact List.perm_append_comm.append_right others
  · intro e he
    exact (List.mem_append.mp he).elim (hs e) (hsound e)

theorem Holds.exchange {b b' : Block Handle} (h : t.Holds b)
    (hx : t.Exchanges (blockEntries b) (blockEntries b') olds puts) (hc : t.Changed t' puts)
    (root : t'.root = b'.map Stmt.tag) : t'.Holds b' := by
  obtain ⟨news, others, hsub, -, hb, ha, hsound⟩ := hx.exchange
  have nodup := (hb.map Entry.key).nodup_iff.mp h.nodup
  rw [List.map_append, List.nodup_append] at nodup
  have hothers : ∀ e ∈ others, t.Has e := fun e he => h.has e (hb.mem_iff.mpr (by simp [he]))
  -- What stays is apart from what is put: it is none of the old nodes, and not new.
  have hapart : ∀ e ∈ others, e.key ∉ puts.map Entry.key := by
    intro e he hkey
    obtain ⟨x, hx', hxe⟩ := List.mem_map.mp hkey
    rcases hx.keys x hx' with hold | hnew
    · exact nodup.2.2 _ hold _ (List.mem_map_of_mem he) hxe
    · have := (hothers e he).index_lt
      rw [hxe] at hnew
      omega
  refine ⟨root, fun e he => ?_, ?_, fun e he => ?_⟩
  · rcases List.mem_append.mp (ha.mem_iff.mp he) with he | he
    · exact hc.new e (hsub.subset he)
    · exact hc.old e (hothers e he) (hapart e he)
  · rw [blockKeys, (ha.map Entry.key).nodup_iff, List.map_append, List.nodup_append]
    refine ⟨hx.nodup.sublist (hsub.map _), nodup.2.1, ?_⟩
    rintro _ hk k hk' rfl
    obtain ⟨e, he, rfl⟩ := List.mem_map.mp hk'
    exact hapart e he ((hsub.map Entry.key).subset hk)
  · rcases List.mem_append.mp (ha.mem_iff.mp he) with he | he
    · exact hsound e he
    · exact h.sound e (hb.mem_iff.mpr (by simp [he]))

end Tree

end FlatTemplate

import FlatTemplate.Tree.Fault

namespace FlatTemplate

structure Arena (kind : NodeKind) (α : Type) where
  nodes : Array α := #[]
  deriving DecidableEq

namespace Arena

variable {kind : NodeKind} {α : Type}

def size (a : Arena kind α) : Nat := a.nodes.size

def get (a : Arena kind α) (h : Handle kind) : Except Fault α :=
  match a.nodes[h.index]? with
  | some node => .ok node
  | none => .error .dangling

def next (a : Arena kind α) : Handle kind := ⟨a.nodes.size⟩

def add (a : Arena kind α) (node : α) : Arena kind α := ⟨a.nodes.push node⟩

def set (a : Arena kind α) (h : Handle kind) (node : α) : Except Fault (Arena kind α) :=
  if h.index < a.nodes.size then .ok ⟨a.nodes.setIfInBounds h.index node⟩
  else .error .dangling

theorem get_add (a : Arena kind α) (node : α) (h : Handle kind) :
    (a.add node).get h = if h = a.next then .ok node else a.get h := by
  obtain ⟨i⟩ := h
  simp only [add, get, next, Array.getElem?_push, Handle.mk.injEq]
  by_cases hi : i = a.nodes.size <;> simp [hi]

theorem set_eq_ok_iff {a b : Arena kind α} {h : Handle kind} {node : α} :
    a.set h node = .ok b ↔
      h.index < a.size ∧ b = ⟨a.nodes.setIfInBounds h.index node⟩ := by
  by_cases hi : h.index < a.nodes.size <;> simp [set, size, hi, eq_comm]

theorem get_set {a b : Arena kind α} {h : Handle kind} {node : α} (hb : a.set h node = .ok b)
    (j : Handle kind) : b.get j = if j = h then .ok node else a.get j := by
  obtain ⟨hi, rfl⟩ := set_eq_ok_iff.mp hb
  obtain ⟨i⟩ := h
  obtain ⟨j⟩ := j
  simp only [get, Handle.mk.injEq, Array.getElem?_setIfInBounds, eq_comm (a := j)]
  by_cases hij : i = j
  · subst hij
    simp_all [size]
  · simp [hij]

end Arena

end FlatTemplate

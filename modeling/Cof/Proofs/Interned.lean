/-
  Types in an arena.

  An arena is in order when the parts of every entry have smaller numbers than the entry itself.  Then
  unfolding a number ends, no matter how much depth is left (`treeWithin_eq`), and an entry that is added
  later changes the type under no earlier number (`tree_of_extends`).  Both are facts about one layer,
  carried through the layers by induction on the number.
-/
import Cof.CType.Arena
import Mathlib.Data.List.Basic

namespace Cof

open List

/-! ## One layer -/

def TypeNode.parts {τ : Type} : TypeNode τ → List τ
  | void | integral .. | floating _ => []
  | pointer target => [target]
  | array element _ => [element]
  | function result params _ => result :: params

/-- A layer is unfolded by what stands for its parts. -/
theorem TypeNode.unfold_congr {τ : Type} {f g : τ → CType} {node : TypeNode τ}
    (same : ∀ n ∈ node.parts, f n = g n) : node.unfold f = node.unfold g := by
  cases node with
  | void | integral | floating => rfl
  | pointer target => exact congrArg CType.pointer (same target (mem_singleton_self _))
  | array element size =>
    exact congrArg (CType.array · size) (same element (mem_singleton_self _))
  | function result params variadic =>
    have results : f result = g result := same result mem_cons_self
    have given : params.map f = params.map g := map_congr_left fun n hn => same n (mem_cons_of_mem _ hn)
    show CType.function (f result) (params.map f) variadic = _
    rw [results, given]
    rfl

namespace Arena

variable {a b c : Arena} {handle : UInt32} {node : TypeNode UInt32}

def Ordered (a : Arena) : Prop :=
  ∀ (index : Nat) (node : TypeNode UInt32), a.nodes[index]? = some node → ∀ part ∈ node.parts, part.toNat < index

/-- The number of an entry. -/
def Has (a : Arena) (handle : UInt32) : Prop := handle.toNat < a.nodes.length

/-- Every entry has a number of its own. -/
def Small (a : Arena) : Prop := a.nodes.length ≤ 2 ^ 32

def Extends (a b : Arena) : Prop := a.nodes <+: b.nodes

theorem Extends.refl (a : Arena) : a.Extends a := prefix_rfl

theorem Extends.trans (first : a.Extends b) (second : b.Extends c) : a.Extends c := List.IsPrefix.trans first second

theorem Extends.length_le (h : a.Extends b) : a.nodes.length ≤ b.nodes.length := List.IsPrefix.length_le h

theorem Small.of_extends (small : b.Small) (h : a.Extends b) : a.Small := Nat.le_trans h.length_le small

theorem Has.of_extends (known : a.Has handle) (h : a.Extends b) : b.Has handle :=
  Nat.lt_of_lt_of_le known h.length_le

theorem has_of_node? (found : a.node? handle = some node) : a.Has handle := (List.getElem?_eq_some_iff.1 found).1

theorem Has.exists_node? (known : a.Has handle) : ∃ node, a.node? handle = some node :=
  ⟨_, List.getElem?_eq_getElem known⟩

theorem Extends.node?_eq (h : a.Extends b) (found : a.node? handle = some node) : b.node? handle = some node := by
  obtain ⟨added, hb⟩ := h
  rw [node?, ← hb, List.getElem?_append_left (has_of_node? found)]
  exact found

theorem Ordered.part_lt (ordered : a.Ordered) (found : a.node? handle = some node) {part : UInt32}
    (mem : part ∈ node.parts) : part.toNat < handle.toNat := ordered _ node found part mem

/-- The parts of an entry are entries. -/
theorem Ordered.has_part (ordered : a.Ordered) (found : a.node? handle = some node) {part : UInt32}
    (mem : part ∈ node.parts) : a.Has part :=
  Nat.lt_trans (ordered.part_lt found mem) (has_of_node? found)

/-! ## Unfolding -/

/-- Where there is enough depth it does not matter how much. -/
theorem treeWithin_eq (ordered : a.Ordered) {depth depth' : Nat} (h : handle.toNat < depth)
    (h' : handle.toNat < depth') : a.treeWithin depth handle = a.treeWithin depth' handle := by
  induction number : handle.toNat using Nat.strongRecOn generalizing handle depth depth' with
  | ind _ ih =>
    subst number
    obtain ⟨depth, rfl⟩ : ∃ d, depth = d + 1 := ⟨depth - 1, by omega⟩
    obtain ⟨depth', rfl⟩ : ∃ d, depth' = d + 1 := ⟨depth' - 1, by omega⟩
    rw [treeWithin, treeWithin]
    cases found : a.node? handle with
    | none => rfl
    | some node =>
      refine TypeNode.unfold_congr fun part mem => ?_
      have smaller := ordered.part_lt found mem
      exact ih _ smaller (by omega) (by omega) rfl

theorem tree_eq (ordered : a.Ordered) (found : a.node? handle = some node) : a.tree handle = node.unfold a.tree := by
  have layer : a.tree handle = node.unfold (a.treeWithin handle.toNat) := by
    rw [tree, treeWithin, found]
    rfl
  rw [layer]
  refine TypeNode.unfold_congr fun part mem => ?_
  exact treeWithin_eq ordered (ordered.part_lt found mem) (Nat.lt_succ_self _)

/-- What is added later changes no type. -/
theorem tree_of_extends (ordered : a.Ordered) (ordered' : b.Ordered) (h : a.Extends b)
    (known : a.Has handle) : b.tree handle = a.tree handle := by
  induction number : handle.toNat using Nat.strongRecOn generalizing handle with
  | ind _ ih =>
    subst number
    obtain ⟨node, found⟩ := known.exists_node?
    rw [tree_eq ordered found, tree_eq ordered' (h.node?_eq found)]
    refine TypeNode.unfold_congr fun part mem => ?_
    exact ih _ (ordered.part_lt found mem) (ordered.has_part found mem) rfl

/-! ## Adding -/

theorem ordered_empty : empty.Ordered := by
  intro handle node found
  cases found

theorem Ordered.append (ordered : a.Ordered) (known : ∀ part ∈ node.parts, a.Has part) :
    Ordered ⟨a.nodes ++ [node]⟩ := by
  intro index found hfound part mem
  rcases Nat.lt_or_ge index a.nodes.length with old | new
  · rw [List.getElem?_append_left old] at hfound
    exact ordered index found hfound part mem
  · rw [List.getElem?_append_right new] at hfound
    have last : index - a.nodes.length = 0 := by
      have := (List.getElem?_eq_some_iff.1 hfound).1
      simp only [length_singleton] at this
      omega
    rw [last] at hfound
    obtain rfl : node = found := by simpa using hfound
    exact Nat.lt_of_lt_of_le (known part mem) new

/-- What comes of entering a layer: a larger arena in order, and a number of it, under which the layer
stands if there are few entries. -/
structure Entered (a : Arena) (node : TypeNode UInt32) (entered : UInt32 × Arena) : Prop where
  ordered : entered.2.Ordered
  keeps : a.Extends entered.2
  has : entered.2.Has entered.1
  found : entered.2.Small → entered.2.node? entered.1 = some node

theorem toNat_ofNat_le (n : Nat) : (UInt32.ofNat n).toNat ≤ n := by
  rw [UInt32.toNat_ofNat']
  exact Nat.mod_le _ _

theorem intern_spec (ordered : a.Ordered) (known : ∀ part ∈ node.parts, a.Has part) :
    a.Entered node (a.intern node) := by
  unfold intern
  cases found : a.nodes.idxOf? node with
  | some index =>
    obtain ⟨inside, same, _⟩ := findIdx?_eq_some_iff_getElem.1 found
    refine ⟨ordered, .refl a, Nat.lt_of_le_of_lt (toNat_ofNat_le index) inside, fun small => ?_⟩
    have whole : (UInt32.ofNat index).toNat = index := UInt32.toNat_ofNat_of_lt' (Nat.lt_of_lt_of_le inside small)
    show a.nodes[(UInt32.ofNat index).toNat]? = some node
    rw [whole, List.getElem?_eq_getElem inside]
    exact congrArg some (eq_of_beq same)
  | none =>
    have longer : a.nodes.length < (a.nodes ++ [node]).length := by simp
    refine ⟨ordered.append known, prefix_append _ _, Nat.lt_of_le_of_lt (toNat_ofNat_le _) longer, fun small => ?_⟩
    have whole : (UInt32.ofNat a.nodes.length).toNat = a.nodes.length :=
      UInt32.toNat_ofNat_of_lt' (Nat.lt_of_lt_of_le longer small)
    show (a.nodes ++ [node])[(UInt32.ofNat a.nodes.length).toNat]? = some node
    rw [whole]
    simp

/-- The type under the number is made of those that were asked for. -/
theorem Entered.tree {entered : UInt32 × Arena} (h : a.Entered node entered) (ordered : a.Ordered)
    (known : ∀ part ∈ node.parts, a.Has part) (small : entered.2.Small) :
    entered.2.tree entered.1 = node.unfold a.tree := by
  rw [tree_eq h.ordered (h.found small)]
  exact TypeNode.unfold_congr fun part mem => tree_of_extends ordered h.ordered h.keeps (known part mem)

end Arena

end Cof

/-
  Types by number.

  An arena hands out a number for every type that is asked for, and the same number for the same type.
  An entry holds the outermost layer of a type and refers to its parts by their own numbers, so that a
  type costs one small entry however large it is, and comparing types is comparing numbers.

  An entry can only refer to numbers that were handed out before it.  That is why `tree` can unfold a
  number into a type: every step goes to a smaller number.

  A number has 32 bits, and where an entry stands is cut down to that.  Up to the first 2 ^ 32 entries
  each has a number of its own; behind them a number that is handed out is that of an earlier entry.
-/
import Cof.CType

namespace Cof

/-- One layer of a type, over whatever stands for its parts. -/
inductive TypeNode (τ : Type) where
  | void
  | integral (width : IntWidth) (signed : Bool)
  | floating (width : FloatWidth)
  | pointer (target : τ)
  | array (element : τ) (size : ArraySize)
  | function (result : τ) (params : List τ) (variadic : Bool)
deriving DecidableEq, Repr

def TypeNode.map {τ τ' : Type} (part : τ → τ') : TypeNode τ → TypeNode τ'
  | void => .void
  | integral width signed => .integral width signed
  | floating width => .floating width
  | pointer target => .pointer (part target)
  | array element size => .array (part element) size
  | function result params variadic => .function (part result) (params.map part) variadic

def TypeNode.unfold {τ : Type} (part : τ → CType) : TypeNode τ → CType
  | void => .void
  | integral width signed => .integral width signed
  | floating width => .floating width
  | pointer target => .pointer (part target)
  | array element size => .array (part element) size
  | function result params variadic => .function (part result) (params.map part) variadic

/-- The layers that were asked for, in order and without repetition. -/
structure Arena where
  nodes : List (TypeNode UInt32)
deriving DecidableEq, Repr

namespace Arena

def empty : Arena := ⟨[]⟩

def node? (a : Arena) (handle : UInt32) : Option (TypeNode UInt32) := a.nodes[handle.toNat]?

def intern (a : Arena) (node : TypeNode UInt32) : UInt32 × Arena :=
  match a.nodes.idxOf? node with
  | some index => (.ofNat index, a)
  | none => (.ofNat a.nodes.length, ⟨a.nodes ++ [node]⟩)

/-- The type under a number, unfolded at most `depth` layers deep. -/
def treeWithin (a : Arena) : Nat → UInt32 → CType
  | 0, _ => .void
  | depth + 1, handle => ((a.node? handle).map (TypeNode.unfold (a.treeWithin depth))).getD .void

/-- The type under a number.  Parts have smaller numbers, so one more layer than the number is deep
enough. -/
def tree (a : Arena) (handle : UInt32) : CType := a.treeWithin (handle.toNat + 1) handle

def pointee? (a : Arena) (handle : UInt32) : Option UInt32 :=
  match a.node? handle with
  | some (.pointer target) => some target
  | some (.array element _) => some element
  | _ => none

def result? (a : Arena) (handle : UInt32) : Option UInt32 :=
  match a.node? handle with
  | some (.function result _ _) => some result
  | _ => none

/-- The number of the type of a value: arrays become pointers to their element type and functions
pointers to themselves. -/
def decay (a : Arena) (handle : UInt32) : UInt32 × Arena :=
  match a.node? handle with
  | some (.array element _) => a.intern (.pointer element)
  | some (.function ..) => a.intern (.pointer handle)
  | _ => (handle, a)

end Arena

end Cof

/-
  What evaluating a program does, read off its tree.

  Three things that an expression does can be told apart in code: a pointer is moved, or two pointers are
  subtracted, in units of elements; an object of type `void` is read or written; a function is called.  They are
  the *events* of the expression, and `Expr.events` lists them in the order of evaluation.  Which ones there are is
  a matter of types, since the sum of two numbers is no event, so the list is made for a table of names.
-/
import Cof.Proofs.Nesting

namespace Cof

open Lowering

/-! ## Events of expressions -/

/-- Something that evaluation does, other than working with numbers. -/
inductive Event where
  /-- A pointer is moved by a number of elements. -/
  | offset (element : CType)
  /-- The distance of two pointers is taken in elements. -/
  | distance (element : CType)
  /-- An object of type `void` is read. -/
  | read (object : Expr)
  /-- An object of type `void` is written. -/
  | write (object : Expr)
  /-- A function is called by an expression, with so many arguments. -/
  | call (callee : Expr) (function : Callee) (count : Nat)

def Event.callee? : Event → Option Expr
  | .call callee .. => some callee
  | .offset _ | .distance _ | .read _ | .write _ => none

def BinOp.scaling : BinOp → CType → CType → List Event
  | .add, .pointer target, .integral .. => [.offset target]
  | .add, .integral .., .pointer target => [.offset target]
  | .sub, .pointer target, .integral .. => [.offset target]
  | .sub, .pointer target, .pointer _ => [.distance target]
  | _, _, _ => []

def CType.callee? (name : Name) : CType → Option Callee
  | .function result params variadic => some ⟨name, result, params, variadic⟩
  | _ => none

namespace Expr

/-- The type of what an expression denotes; without one it counts as `void`. -/
def typeIn (t : Scopes) (e : Expr) : CType := (typeOf t e).toOption.getD .void

def valueType (t : Scopes) (e : Expr) : CType := (e.typeIn t).decay

def reading (t : Scopes) (e : Expr) : List Event := if (e.typeIn t).isVoid then [.read e] else []

def writing (t : Scopes) (e : Expr) : List Event := if (e.typeIn t).isVoid then [.write e] else []

def callee? (t : Scopes) : Expr → Option Callee
  | .ident _ name => (t.lookup name).bind fun symbol => symbol.type.callee? name
  | _ => none

def calling (t : Scopes) (callee : Expr) (count : Nat) : List Event :=
  ((callee.callee? t).map (.call callee · count)).toList

mutual

def events (t : Scopes) : Expr → List Event
  | .int .. | .float .. | .char .. | .string .. | .sizeofType .. | .sizeofExpr .. | .member .. => []
  | .ident loc name => (Expr.ident loc name).reading t
  | .binary _ op left right =>
    left.events t ++ (right.events t ++ op.scaling (left.valueType t) (right.valueType t))
  | .unary loc op operand =>
    match op with
    | .deref => operand.events t ++ (Expr.unary loc .deref operand).reading t
    | .addrOf => operand.placeEvents t
    | .plus | .neg | .bitNot | .not => operand.events t
  | .step _ s _ operand =>
    operand.placeEvents t ++ (operand.reading t ++ ((stepOp s).scaling (operand.valueType t) .int ++ operand.writing t))
  | .assign _ target op source =>
    match op with
    | none => target.placeEvents t ++ (source.events t ++ target.writing t)
    | some op =>
      target.placeEvents t ++ (target.reading t ++ (source.events t ++
        (op.scaling (target.valueType t) (source.valueType t) ++ target.writing t)))
  | .call _ callee args => argEvents t args ++ callee.calling t args.length
  | .index loc base position =>
    base.events t ++ (position.events t ++ (BinOp.add.scaling (base.valueType t) (position.valueType t) ++
      (Expr.index loc base position).reading t))
  | .conditional _ cond yes no => cond.events t ++ (yes.events t ++ no.events t)
  | .cast _ _ operand => operand.events t

/-- What is done to find the place that an expression denotes, in order. -/
def placeEvents (t : Scopes) : Expr → List Event
  | .unary _ .deref operand => operand.events t
  | .index _ base position =>
    base.events t ++ (position.events t ++ BinOp.add.scaling (base.valueType t) (position.valueType t))
  | _ => []

def argEvents (t : Scopes) : List Expr → List Event
  | [] => []
  | arg :: args => arg.events t ++ argEvents t args

end

end Expr

/-! ## Evaluation in a program -/

/-- An expression that is evaluated, under a table of names. -/
structure Evaluation where
  scopes : Scopes
  expr : Expr

def Evaluation.events (e : Evaluation) : List Event := e.expr.events e.scopes

/-- The table after a declaration.  A name that the current scope has already keeps its binding. -/
def Scopes.introduce (t : Scopes) (name : Name) (type : CType) : Scopes :=
  if (t.lookupCurrent name).isSome then t else t.bind ⟨name, type, t.depth, .global name⟩

/-- A way through a part of a program: the evaluations on the way, and the table of names behind it. -/
abbrev Walk := Scopes → List Evaluation × Scopes

namespace Walk

def stay : Walk := fun t => ([], t)

def andThen (first second : Walk) : Walk := fun t =>
  ((first t).1 ++ (second (first t).2).1, (second (first t).2).2)

theorem andThen_stay (w : Walk) : w.andThen stay = w := by
  funext t
  exact Prod.ext (List.append_nil _) rfl

def evaluate (e : Expr) : Walk := fun t => ([⟨t, e⟩], t)

def evaluate? (e : Option Expr) : Walk := (e.map evaluate).getD stay

def declare (name : Name) (type : CType) : Walk := fun t => ([], t.introduce name type)

def inside (w : Walk) : Walk := fun t => ((w t.enter).1, (w t.enter).2.exit)

def all {α : Type} (walk : α → Walk) : List α → Walk
  | [] => stay
  | a :: as => (walk a).andThen (all walk as)

end Walk

/-- Through a declaration in a block.  The value of an automatic variable is found when the variable is declared
already. -/
def Declaration.walk : Declaration → Walk
  | .proto f => .declare f.name f.type
  | .var v => (Walk.declare v.name v.type).andThen (if v.linkage = .plain then .evaluate? v.init else .stay)

def ForInit.walk : ForInit → Walk
  | .expr _ e => .evaluate e
  | .decls _ ds => .all Declaration.walk ds

mutual

def Stmt.walk : Stmt → Walk
  | .expr _ e => .evaluate e
  | .block _ body => .inside (Stmt.walkAll body)
  | .ifThen _ cond yes => (Walk.evaluate cond).andThen yes.walk
  | .ifElse _ cond yes no => (Walk.evaluate cond).andThen (yes.walk.andThen no.walk)
  | .whileLoop _ cond body => (Walk.evaluate cond).andThen body.walk
  | .doWhile _ body cond => body.walk.andThen (.evaluate cond)
  | .forLoop _ init cond step body =>
    .inside (((init.map ForInit.walk).getD .stay).andThen
      ((Walk.evaluate? cond).andThen (body.walk.andThen (.evaluate? step))))
  | .ret _ value => .evaluate? value
  | .decls _ ds => .all Declaration.walk ds
  | .brk _ | .cont _ | .empty _ => .stay

def Stmt.walkAll : List Stmt → Walk
  | [] => .stay
  | st :: rest => st.walk.andThen (Stmt.walkAll rest)

end

def Param.walk (p : Param) : Walk := .declare (p.name.getD []) p.type

def TopLevel.walk : TopLevel → Walk
  | .declare d => .declare d.name d.type
  | .define f body =>
    (Walk.declare f.name f.type).andThen
      (.inside (.inside ((Walk.all Param.walk f.params).andThen (Stmt.walkAll body))))

def Program.evaluations (p : Program) : List Evaluation := (Walk.all TopLevel.walk p .empty).1

def Program.events (p : Program) : List Event := p.evaluations.flatMap Evaluation.events

/-! ## Tables without storage -/

def Symbol.bare (symbol : Symbol) : Symbol := { symbol with storage := .global symbol.name }

def Entry.bare (e : Entry) : Entry := { e with symbol := e.symbol.bare }

namespace Scopes

def bare (t : Scopes) : Scopes := { t with log := t.log.map Entry.bare }

theorem lookup_bare (t : Scopes) (name : Name) : t.bare.lookup name = (t.lookup name).map Symbol.bare := by
  unfold lookup bare
  rw [List.find?_map, Option.map_map, Option.map_map]
  rfl

theorem lookupCurrent_bare (t : Scopes) (name : Name) :
    t.bare.lookupCurrent name = (t.lookupCurrent name).map Symbol.bare := by
  unfold lookupCurrent bare
  rw [List.find?_map, Option.map_map, Option.map_map]
  rfl

theorem bare_exit (t : Scopes) : t.exit.bare = t.bare.exit := by
  obtain ⟨log, current, outer, last⟩ := t
  cases outer <;> rfl

variable {t : Scopes} {name : Name}

theorem bare_bind (free : t.lookupCurrent name = none) (type : CType)
    (storage : Storage) : (t.bind ⟨name, type, t.depth, storage⟩).bare = t.bare.introduce name type := by
  rw [introduce, lookupCurrent_bare, free]
  rfl

theorem bare_taken {symbol : Symbol} (taken : t.lookupCurrent name = some symbol)
    (type : CType) : t.bare = t.bare.introduce name type := by
  rw [introduce, lookupCurrent_bare, taken]
  rfl

end Scopes

theorem typeOf_bare (t : Scopes) (e : Expr) : typeOf t.bare e = typeOf t e := by
  induction e using typeOf.induct t with
  | case5 loc name symbol found => simp only [typeOf, Scopes.lookup_bare, found, Option.map_some, Symbol.bare]
  | case6 loc name missing => simp only [typeOf, Scopes.lookup_bare, missing, Option.map_none]
  | _ => simp_all only [typeOf, if_true]

namespace Expr

theorem typeIn_bare (t : Scopes) (e : Expr) : e.typeIn t.bare = e.typeIn t := by
  rw [typeIn, typeIn, typeOf_bare]

theorem valueType_bare (t : Scopes) (e : Expr) : e.valueType t.bare = e.valueType t := by
  rw [valueType, valueType, typeIn_bare]

theorem reading_bare (t : Scopes) (e : Expr) : e.reading t.bare = e.reading t := by
  rw [reading, reading, typeIn_bare]

theorem writing_bare (t : Scopes) (e : Expr) : e.writing t.bare = e.writing t := by
  rw [writing, writing, typeIn_bare]

theorem callee?_bare (t : Scopes) (e : Expr) : e.callee? t.bare = e.callee? t := by
  cases e with
  | ident loc name =>
    rw [callee?, callee?, Scopes.lookup_bare]
    cases t.lookup name <;> rfl
  | _ => rfl

theorem calling_bare (t : Scopes) (e : Expr) (count : Nat) : e.calling t.bare count = e.calling t count := by
  rw [calling, calling, callee?_bare]

mutual

theorem events_bare (t : Scopes) (e : Expr) : e.events t.bare = e.events t := by
  match e with
  | .int .. | .float .. | .char .. | .string .. | .sizeofType .. | .sizeofExpr .. | .member .. => simp only [events]
  | .ident loc name => simp only [events, reading_bare]
  | .binary _ op left right => simp only [events, events_bare t left, events_bare t right, valueType_bare]
  | .unary loc op operand =>
    cases op with
    | deref => simp only [events, events_bare t operand, reading_bare]
    | addrOf => simp only [events, placeEvents_bare t operand]
    | plus | neg | bitNot | not => simp only [events, events_bare t operand]
  | .step _ s _ operand =>
    simp only [events, placeEvents_bare t operand, reading_bare, writing_bare, valueType_bare]
  | .assign _ target op source =>
    cases op <;> simp only [events, placeEvents_bare t target, events_bare t source, reading_bare, writing_bare,
      valueType_bare]
  | .call _ callee args => simp only [events, argEvents_bare t args, calling_bare]
  | .index loc base position =>
    simp only [events, events_bare t base, events_bare t position, reading_bare, valueType_bare]
  | .conditional _ cond yes no => simp only [events, events_bare t cond, events_bare t yes, events_bare t no]
  | .cast _ _ operand => simp only [events, events_bare t operand]

theorem placeEvents_bare (t : Scopes) (e : Expr) : e.placeEvents t.bare = e.placeEvents t := by
  match e with
  | .unary _ op operand =>
    cases op with
    | deref => simp only [placeEvents, events_bare t operand]
    | plus | neg | bitNot | not | addrOf => simp only [placeEvents]
  | .index _ base position => simp only [placeEvents, events_bare t base, events_bare t position, valueType_bare]
  | .int .. | .float .. | .char .. | .string .. | .ident .. | .binary .. | .step .. | .assign .. | .call ..
  | .member .. | .conditional .. | .cast .. | .sizeofType .. | .sizeofExpr .. => simp only [placeEvents]

theorem argEvents_bare (t : Scopes) (args : List Expr) : argEvents t.bare args = argEvents t args := by
  match args with
  | [] => simp only [argEvents]
  | arg :: args => simp only [argEvents, events_bare t arg, argEvents_bare t args]

end

end Expr

end Cof

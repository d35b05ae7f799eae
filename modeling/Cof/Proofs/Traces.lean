/-
  What statements do, from what declarations do.

  Between the declarations of a statement there is plain code, and there are scopes that are opened and closed
  and loops that are entered and left.  So a relation between the states before and after that is graded by
  declarations holds of every run of a statement if

    * it composes, and the grades are put behind each other;
    * plain code, marks of scopes and changes of names and loops are related at the empty grade;
    * every declaration is related at the grade of itself.
-/
import Cof.Proofs.Reach

namespace Cof.Lowering

variable {G : Type}

/-- A relation between states that composes, and that looks neither at plain code nor at scopes and loops. -/
structure Composes (R : List G → State → State → Prop) : Prop where
  append : ∀ {gs gs' s t s'}, R gs s t → R gs' t s' → R (gs ++ gs') s s'
  growth : ∀ {s s'}, AnyGrowth s s' → R [] s s'
  scope : ∀ {s opcode bytes}, opcode = .scopeBegin ∨ opcode = .scopeEnd →
    Instr.encode ⟨opcode, .none, []⟩ = .ok bytes → R [] s (s.push ⟨opcode, .none, []⟩ bytes)
  context : ∀ s scopes loops, R [] s { s with scopes := scopes, loops := loops }

/-- One that follows the declarations on the way. -/
structure Traces (R : List Declaration → State → State → Prop) : Prop extends Composes R where
  declaration : ∀ {d s s'}, localDeclaration d s = .ok () s' → R [d] s s'

/-- The states before and after a run are related at a grade. -/
def Traced {α : Type} (R : List G → State → State → Prop) (gs : List G) (m : Lower α) : Prop :=
  ∀ s a s', m s = .ok a s' → R gs s s'

/-! ## Runs in general -/

namespace Composes

variable {α β : Type} {R : List G → State → State → Prop} {gs gs' : List G} {m : Lower α} {f : α → Lower β}

section

variable (h : Composes R)
include h

theorem refl (s : State) : R [] s s := h.context s s.scopes s.loops

theorem bind (hm : Traced R gs m) (hf : ∀ a, Traced R gs' (f a)) : Traced R (gs ++ gs') (m >>= f) := by
  intro s b s' run
  obtain ⟨a, t, first, second⟩ := bind_eq_ok.1 run
  exact h.append (hm s a t first) (hf a t b s' second)

theorem skip (hm : Traced R [] m) (hf : ∀ a, Traced R gs (f a)) : Traced R gs (m >>= f) := h.bind hm hf

theorem last (hm : Traced R gs m) (hf : ∀ a, Traced R [] (f a)) : Traced R gs (m >>= f) := by
  have both := h.bind hm hf
  rwa [List.append_nil] at both

theorem pure {a : α} : Traced R [] (pure a : Lower α) := by
  intro s b s' run
  obtain ⟨-, rfl⟩ := pure_eq_ok.1 run
  exact h.refl s

theorem grows (grows : Follows AnyGrowth m) : Traced R [] m := by
  intro s a s' run
  have steps := grows.of_ok run
  clear run
  induction steps with
  | refl => exact h.refl s
  | tail _ step ih => exact h.append ih (h.growth step)

theorem mark {opcode : Opcode} (mark : opcode = .scopeBegin ∨ opcode = .scopeEnd) :
    Traced R [] (Lowering.emit opcode .none []) := by
  intro s u s' run
  obtain ⟨bytes, encodes, rfl⟩ := emit_eq_ok.1 run
  exact h.scope mark encodes

theorem enterScope : Traced R [] enterScope := by
  intro s u s' run
  obtain rfl := modify_eq_ok.1 run
  exact h.context ..

theorem exitScope : Traced R [] exitScope := by
  intro s u s' run
  obtain rfl := modify_eq_ok.1 run
  exact h.context ..

theorem inLoop (labels : LoopLabels) (hm : Traced R gs m) : Traced R gs (inLoop labels m) := by
  intro s a s' run
  unfold Lowering.inLoop at run
  cases body : m { s with loops := labels :: s.loops } with
  | error e t =>
    rw [body] at run
    cases run
  | ok b t =>
    rw [body] at run
    cases run
    have inside := h.append (h.context s s.scopes (labels :: s.loops)) (hm _ a t body)
    have outside := h.append inside (h.context t t.scopes t.loops.tail)
    rwa [List.append_nil] at outside

end

end Composes

/-! ## Statements -/

def declaredNames : Grading (List Declaration) where
  one := []
  mul := (· ++ ·)
  inside := id
  evaluation _ := []
  declarations := id
  one_mul _ := rfl
  mul_one := List.append_nil
  nil := rfl
  cons _ _ := rfl

theorem grades_declarations : declaredNames.Grades Stmt.declarations Stmt.allDeclarations where
  expr _ _ := rfl
  block _ _ := rfl
  ifThen _ _ _ := rfl
  ifElse _ _ _ _ := rfl
  whileLoop _ _ _ := rfl
  doWhile _ body _ := (List.append_nil body.declarations).symm
  forLoop _ init cond step body := by
    have none : ∀ e, declaredNames.optional e = [] := by rintro (_ | _) <;> rfl
    have opening : declaredNames.opening init = (init.map ForInit.declarations).getD [] := by
      rcases init with _ | _ | _ <;> rfl
    rw [none, none, opening]
    exact congrArg _ (List.append_nil body.declarations).symm
  ret _ e := by cases e <;> rfl
  decls _ _ := rfl
  brk _ := rfl
  cont _ := rfl
  empty _ := rfl
  none := rfl
  more _ _ := rfl

namespace Traces

variable {R : List Declaration → State → State → Prop}

theorem growing (h : Traces R) : Growing (fun _ => True) declaredNames fun ds m => Traced R ds m where
  silent _ := rfl
  growth := h.grows
  bind := h.bind
  declaration _ _ _ _ run := h.declaration run
  scope inner := h.skip h.enterScope fun _ =>
    h.last (h.skip (h.mark (.inl rfl)) fun _ => h.last inner fun _ => h.mark (.inr rfl)) fun _ => h.exitScope
  inLoop labels := h.inLoop labels

theorem statements (h : Traces R) (body : List Stmt) : Traced R (Stmt.allDeclarations body) (Lowering.statements body) :=
  h.growing.statements grades_declarations body fun _ _ => trivial

end Traces

end Cof.Lowering

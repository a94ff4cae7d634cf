import Lox.Proofs.Execution.Results
import Mathlib.Data.List.Forall2

/-!
# Values that are alike

A program tells functions apart by their numbers and sees their names and how many arguments they take,
but not their bodies, nor what they have captured. Operators, printing and discreet built-in functions
treat values the same that differ in the latter only.
-/

namespace Lox

inductive Value.Alike : Value → Value → Prop where
  | refl (v : Value) : Alike v v
  | closure (id : Nat) {c d : Closure} (hname : c.name = d.name)
    (harity : c.params.length = d.params.length) :
    Alike (.function id (.closure c)) (.function id (.closure d))

namespace Value.Alike

variable {u u' v v' : Value}

theorem kind (h : Alike u v) : u.kind = v.kind := by
  cases h <;> rfl

theorem isTruthy (h : Alike u v) : u.isTruthy = v.isTruthy := by
  cases h <;> rfl

theorem text (h : Alike u v) : u.text = v.text := by
  cases h with
  | refl => rfl
  | closure id hname harity => simp only [Value.text, Callable.text, hname]

theorem isSettledBy (h : Alike u v) (op : LogicalOp) : op.isSettledBy u = op.isSettledBy v := by
  cases op <;> simp only [LogicalOp.isSettledBy, h.isTruthy]

theorem applyUnary (h : Alike u v) (op : UnaryOp) : op.apply u = op.apply v := by
  cases h with
  | refl => rfl
  | closure => cases op <;> rfl

theorem applyBinary (h : Alike u v) (h' : Alike u' v') (op : BinaryOp) :
    op.apply u u' = op.apply v v' := by
  -- one operand at a time: a function decides by its number or its kind
  have hleft : op.apply u u' = op.apply v u' := by
    cases h with
    | refl => rfl
    | closure => cases op <;> cases u' <;> rfl
  have hright : op.apply v u' = op.apply v v' := by
    cases h' with
    | refl => rfl
    | closure => cases op <;> cases v <;> rfl
  rw [hleft, hright]

end Value.Alike

/-! ### Built-in functions -/

/-- A built-in function cannot tell values that are alike from each other, and gives constants. -/
structure Native.Discreet (n : Native) : Prop where
  sees : ∀ now args args', List.Forall₂ Value.Alike args args' → n.run now args = n.run now args'
  gives : ∀ now args v, n.run now args = .ok v → v.IsConstant

def Registry.Discreet (r : Registry) : Prop := ∀ n ∈ r.natives, n.Discreet

namespace Registry.Discreet

variable {r : Registry} {name : String} {now : Float} {args : List Value}

theorem answer_congr (hn : r.Discreet) (name : String) (now : Float) {args' : List Value}
    (h : List.Forall₂ Value.Alike args args') :
    r.answer name now args = r.answer name now args' := by
  rcases r.answer_cases name with hnil | ⟨native, hmem, hrun⟩
  · rw [hnil, hnil]
  · rw [hrun, hrun, (hn native hmem).sees now args args' h]

theorem isConstant_of_answer (hn : r.Discreet) {v : Value} (h : r.answer name now args = .ok v) :
    v.IsConstant := by
  rcases r.answer_cases name with hnil | ⟨native, hmem, hrun⟩
  · rw [hnil] at h
    cases h
    exact ⟨.nil, rfl⟩
  · rw [hrun] at h
    exact (hn native hmem).gives now args v h

end Registry.Discreet

theorem Registry.discreet_standard : Registry.standard.Discreet := by
  intro n hn
  refine ⟨fun now args args' h => ?_, fun now args v => isConstant_of_standard hn⟩
  simp only [standard, List.mem_cons, List.not_mem_nil, or_false] at hn
  cases h with
  | nil => rfl
  | cons hv hrest =>
    cases hrest with
    | nil =>
      rcases hn with rfl | rfl | rfl | rfl
      · simp only [Native.str, hv.text]
      · cases hv <;> rfl
      · simp only [Native.type, hv.kind]
      · rfl
    | cons =>
      rcases hn with rfl | rfl | rfl | rfl
      · rfl
      · have hmore (u v : Value) (vs : List Value) : Native.num.run now (u :: v :: vs) = .ok .nil := by
          cases u <;> rfl
        rw [hmore, hmore]
      · rfl
      · rfl

end Lox

import Lox.Proofs.Execution.Results
import Lox.Proofs.Lexical.Evaluation

/-!
# Outlines

Operators treat a function by its number alone and printing by its name, so neither sees how its body
was resolved or which frames it has captured. A built-in function is plain if it sees no more than that
and gives constants.
-/

namespace Lox

/-- A value without the environment that it has captured, if it is a function. -/
def Value.outline : Value → Value
  | .function id (.closure c) =>
    .function id (.closure ⟨c.name, c.params, Lexical.bareBody c.body, default⟩)
  | v => v

theorem Value.outline_cases (v : Value) :
    v.outline = v ∨ ∃ id c d, v = .function id (.closure c) ∧ v.outline = .function id (.closure d) ∧
      d.name = c.name := by
  cases v with
  | function id f =>
    cases f with
    | native name arity => exact Or.inl rfl
    | closure c => exact Or.inr ⟨id, c, _, rfl, rfl, rfl⟩
  | _ => exact Or.inl rfl

theorem Value.kind_outline (v : Value) : v.outline.kind = v.kind := by
  rcases v.outline_cases with h | ⟨id, c, d, rfl, h, -⟩ <;> rw [h]
  rfl

theorem Value.isTruthy_outline (v : Value) : v.outline.isTruthy = v.isTruthy := by
  rcases v.outline_cases with h | ⟨id, c, d, rfl, h, -⟩ <;> rw [h]
  rfl

theorem Value.text_outline (v : Value) : v.outline.text = v.text := by
  rcases v.outline_cases with h | ⟨id, c, d, rfl, h, hname⟩
  · rw [h]
  · rw [h]
    simp only [text, Callable.text, hname]

theorem LogicalOp.isSettledBy_outline (op : LogicalOp) (v : Value) :
    op.isSettledBy v.outline = op.isSettledBy v := by
  cases op <;> simp only [isSettledBy, Value.isTruthy_outline]

theorem UnaryOp.apply_outline (op : UnaryOp) (v : Value) : op.apply v.outline = op.apply v := by
  rcases v.outline_cases with h | ⟨id, c, d, rfl, h, -⟩
  · rw [h]
  · rw [h]
    cases op <;> rfl

theorem BinaryOp.apply_outline (op : BinaryOp) (u v : Value) :
    op.apply u.outline v.outline = op.apply u v := by
  -- one operand at a time: a function decides by its number or its kind
  have hleft : ∀ v, op.apply u.outline v = op.apply u v := by
    intro v
    rcases u.outline_cases with h | ⟨id, c, d, rfl, h, -⟩
    · rw [h]
    · rw [h]
      cases op <;> cases v <;> rfl
  have hright : op.apply u v.outline = op.apply u v := by
    rcases v.outline_cases with h | ⟨id, c, d, rfl, h, -⟩
    · rw [h]
    · rw [h]
      cases op <;> cases u <;> rfl
  rw [hleft, hright]

/-! ### Built-in functions -/

/-- A built-in function sees outlines only and gives constants. -/
structure Native.Plain (n : Native) : Prop where
  sees : ∀ now args, n.run now (args.map Value.outline) = n.run now args
  gives : ∀ now args v, n.run now args = .ok v → v.IsConstant

def Registry.Plain (r : Registry) : Prop := ∀ n ∈ r.natives, n.Plain

namespace Registry.Plain

variable {r : Registry} {name : String} {now : Float} {args : List Value}

theorem answer_outline (hn : r.Plain) (name : String) (now : Float) (args : List Value) :
    r.answer name now (args.map Value.outline) = r.answer name now args := by
  rcases r.answer_cases name with hnil | ⟨native, hmem, hrun⟩
  · rw [hnil, hnil]
  · rw [hrun, hrun, (hn native hmem).sees]

theorem isConstant_of_answer (hn : r.Plain) {v : Value} (h : r.answer name now args = .ok v) :
    v.IsConstant := by
  rcases r.answer_cases name with hnil | ⟨native, hmem, hrun⟩
  · rw [hnil] at h
    cases h
    exact ⟨.nil, rfl⟩
  · rw [hrun] at h
    exact (hn native hmem).gives now args v h

end Registry.Plain

theorem Native.sees_str (now : Float) (args : List Value) :
    str.run now (args.map Value.outline) = str.run now args := by
  match args with
  | [] => rfl
  | [v] => simp only [str, List.map_cons, List.map_nil, Value.text_outline]
  | _ :: _ :: _ => rfl

theorem Native.sees_num (now : Float) (args : List Value) :
    num.run now (args.map Value.outline) = num.run now args := by
  cases args with
  | nil => rfl
  | cons v vs =>
    rw [List.map_cons]
    rcases v.outline_cases with h | ⟨id, c, d, rfl, h, -⟩
    · rw [h]
      cases vs <;> cases v <;> rfl
    · rw [h]
      cases vs <;> rfl

theorem Native.sees_type (now : Float) (args : List Value) :
    type.run now (args.map Value.outline) = type.run now args := by
  match args with
  | [] => rfl
  | [v] => simp only [type, List.map_cons, List.map_nil, Value.kind_outline]
  | _ :: _ :: _ => rfl

theorem Registry.plain_standard : Registry.standard.Plain := by
  intro n hn
  refine ⟨fun now args => ?_, fun now args v => isConstant_of_standard hn⟩
  simp only [standard, List.mem_cons, List.not_mem_nil, or_false] at hn
  rcases hn with rfl | rfl | rfl | rfl
  · exact Native.sees_str now args
  · exact Native.sees_num now args
  · exact Native.sees_type now args
  · rfl

end Lox

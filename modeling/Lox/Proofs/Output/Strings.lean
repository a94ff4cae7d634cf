import Lox.Native
import Lox.Proofs.Execution.Calls
import Lox.Proofs.Numbers.Notations
import Lox.Proofs.Syntax.Spelling

/-!
# The strings of programs

A string of a program has neither quotation marks nor line feeds in it, wherever it comes from: a literal,
two strings put together, or a built-in function. So the text of every value is one line.
-/

namespace Lox

open Leaf (AllSpelled)

/-! ### Bare texts -/

/-- A text without quotation marks and line feeds. -/
def Text.Bare (s : String) : Prop := '"' ∉ s.toList ∧ '\n' ∉ s.toList

namespace Text.Bare

instance (s : String) : Decidable (Bare s) := inferInstanceAs (Decidable (_ ∧ _))

theorem of_forall {s : String} (h : ∀ c ∈ s.toList, c ≠ '"' ∧ c ≠ '\n') : Bare s :=
  ⟨fun hc => (h _ hc).1 rfl, fun hc => (h _ hc).2 rfl⟩

theorem append {s t : String} (hs : Bare s) (ht : Bare t) : Bare (s ++ t) := by
  rw [Bare, String.toList_append, List.mem_append, List.mem_append, not_or, not_or]
  exact ⟨⟨hs.1, ht.1⟩, hs.2, ht.2⟩

theorem of_name {name : String} (h : (Leaf.name name).Spelled) : Bare name := by
  obtain ⟨-, -, hword, -⟩ := Lexer.IsLexeme.eq_identifier h rfl
  refine of_forall fun c hc => ?_
  have hin := hword c hc
  constructor <;> rintro rfl <;> exact absurd hin (by decide +kernel)

/-- A number is written with digits, a point and a sign, or is one of three words. -/
theorem plain (x : Float) : Bare (Decimal.plain x) := by
  cases hx : Decimal.Binary.ofFloat x with
  | nan =>
    rw [Decimal.plain_eq, Decimal.Style.write, hx]
    decide
  | infinite negative =>
    rw [Decimal.plain_eq, Decimal.Style.write, hx]
    cases negative <;> decide
  | finite negative m q =>
    obtain ⟨d, hbody, -⟩ := Decimal.denotes_unsignedChars hx .plain (Or.inl rfl)
    rw [Decimal.plain_eq, Decimal.write_finite hx]
    refine of_forall fun c hc => ?_
    rw [String.toList_ofList] at hc
    have hnumeral : Decimal.isNumeralChar c = true := by
      cases negative with
      | true =>
        rcases List.mem_cons.mp hc with rfl | hc
        · rfl
        · exact hbody.chars c hc
      | false => exact hbody.chars c hc
    exact Decimal.isNumeralChar_cases (P := fun c => c ≠ '"' ∧ c ≠ '\n') (by decide) (by decide) (by decide)
      (by decide) (by decide) hnumeral

end Text.Bare

/-! ### Values -/

/-- A function with a bare name, in whose body names and literals are spelled as in a source. -/
def Callable.Bare : Callable → Prop
  | .native name _ => Text.Bare name
  | .closure c => Text.Bare c.name ∧ AllSpelled (Stmt.leavesAll c.body)

/-- A bare string or function, or a value of another kind. -/
def Value.Bare : Value → Prop
  | .string s => Text.Bare s
  | .function _ f => f.Bare
  | .nil | .boolean _ | .number _ => True

namespace Value.Bare

variable {v w u : Value}

theorem text (h : v.Bare) : Text.Bare v.text := by
  cases v with
  | nil => decide
  | boolean b => cases b <;> decide
  | number x => exact .plain x
  | string s => exact h
  | function id f =>
    cases f with
    | native name arity => exact .append (.append (by decide) h) (by decide)
    | closure c => exact .append (.append (by decide) h.1) (by decide)

theorem ofLiteral {l : Literal} (h : (Leaf.literal l).Spelled) : (Value.ofLiteral l).Bare := by
  cases l with
  | string s => exact .of_forall h
  | nil | boolean | number => trivial

theorem unary {op : UnaryOp} (h : op.apply v = .ok w) : w.Bare := by
  unfold UnaryOp.apply at h
  split at h <;> cases h <;> trivial

theorem numbers {op : BinaryOp} {x y : Float} (h : op.applyNumbers x y = .ok u) : u.Bare := by
  cases op with
  | divide =>
    simp only [BinaryOp.applyNumbers] at h
    split_ifs at h
    cases h
    trivial
  | _ =>
    cases h
    trivial

theorem binary {op : BinaryOp} (hv : v.Bare) (hw : w.Bare) (h : op.apply v w = .ok u) : u.Bare := by
  unfold BinaryOp.apply at h
  split at h
  · cases h
    trivial
  · cases h
    trivial
  · split at h
    · exact numbers h
    · cases h
      exact .append hv hw
    · cases h
    · cases h

end Value.Bare

/-! ### Built-in functions -/

/-- The functions have bare names and make bare values of bare values. -/
def Registry.Bare (r : Registry) : Prop :=
  ∀ native ∈ r.natives, Text.Bare native.name ∧
    ∀ now arguments v, (∀ a ∈ arguments, a.Bare) → native.run now arguments = .ok v → v.Bare

theorem Registry.Bare.of_answer {r : Registry} (hn : r.Bare) {name : String} {now : Float}
    {args : List Value} {v : Value} (hargs : ∀ a ∈ args, a.Bare)
    (h : r.answer name now args = .ok v) : v.Bare := by
  rcases r.answer_cases name with hnil | ⟨native, hmem, hrun⟩
  · rw [hnil] at h
    cases h
    exact trivial
  · rw [hrun] at h
    exact (hn native hmem).2 now args v hargs h

theorem Kind.bare_name (k : Kind) : Text.Bare k.name := by
  cases k <;> decide

theorem Registry.bare_standard : Registry.standard.Bare := by
  intro native hnative
  simp only [Registry.standard, List.mem_cons, List.not_mem_nil, or_false] at hnative
  rcases hnative with rfl | rfl | rfl | rfl
  · refine ⟨by decide, fun now arguments v hargs hrun => ?_⟩
    simp only [Native.str] at hrun
    split at hrun <;> cases hrun
    · exact (hargs _ List.mem_cons_self).text
    · trivial
  · refine ⟨by decide, fun now arguments v hargs hrun => ?_⟩
    simp only [Native.num] at hrun
    split at hrun
    · cases hrun
      trivial
    · split at hrun <;> cases hrun
      trivial
    · cases hrun
    · cases hrun
      trivial
  · refine ⟨by decide, fun now arguments v hargs hrun => ?_⟩
    simp only [Native.type] at hrun
    split at hrun <;> cases hrun
    · exact Kind.bare_name _
    · trivial
  · refine ⟨by decide, fun now arguments v hargs hrun => ?_⟩
    cases hrun
    trivial

end Lox

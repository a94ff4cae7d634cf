import Lox.Proofs.Syntax.Forms
import Lox.Syntax.Printer

/-!
# Trees as forms

A tree is printed as a form and a program as a row of forms.
-/

namespace Lox

variable {ρ : Type}

/-! ### Trees as forms -/

namespace Form

def headed (head : String) (parts : List Form) : Form := .node (.word head.toList :: parts)

end Form

open Form (headed)

mutual

def Expr.form : Expr ρ → Form
  | .literal _ v => .word v.render.toList
  | .varRef _ name _ => .word name.toList
  | .assign _ name _ e => headed "=" [.word name.toList, e.form]
  | .unary _ op e => headed op.symbol [e.form]
  | .binary _ op l r => headed op.symbol [l.form, r.form]
  | .logical _ op l r => headed op.symbol [l.form, r.form]
  | .call _ f args => headed "call" (f.form :: Expr.formAll args)
  | .group _ e => headed "group" [e.form]

def Expr.formAll : List (Expr ρ) → List Form
  | [] => []
  | e :: es => e.form :: Expr.formAll es

end

mutual

def Stmt.form : Stmt ρ → Form
  | .expression _ e => headed ";" [e.form]
  | .print _ e => headed "print" [e.form]
  | .varDecl _ name none => headed "var" [.word name.toList]
  | .varDecl _ name (some e) => headed "var" [.word name.toList, e.form]
  | .block _ body => headed "block" (Stmt.formAll body)
  | .conditional _ c t none => headed "if" [c.form, t.form]
  | .conditional _ c t (some e) => headed "if" [c.form, t.form, e.form]
  | .loop _ c b => headed "while" [c.form, b.form]
  | .funDecl _ name params body =>
    headed "fun" (.word name.toList :: .node (params.map fun p => .word p.name.toList) :: Stmt.formAll body)
  | .ret _ none => headed "return" []
  | .ret _ (some e) => headed "return" [e.form]

def Stmt.formAll : List (Stmt ρ) → List Form
  | [] => []
  | s :: ss => s.form :: Stmt.formAll ss

end

namespace Form

theorem charsAll_eq_map (fs : List Form) : charsAll fs = fs.map chars := by
  induction fs with
  | nil => rfl
  | cons f fs ih => rw [charsAll, ih, List.map_cons]

theorem chars_headed {head : String} {parts : List Form} {texts : List String}
    (h : charsAll parts = texts.map String.toList) :
    (headed head parts).chars = (parenthesized head texts).toList := by
  rw [headed, chars, charsAll, chars, h, parenthesized, String.toList_append, String.toList_append,
    String.toList_intercalate, List.map_cons]
  rfl

end Form

mutual

theorem Expr.chars_form (e : Expr ρ) : e.form.chars = e.render.toList := by
  cases e with
  | literal | varRef => rfl
  | assign span name ref e => exact Form.chars_headed (by simp [Form.charsAll, Form.chars, Expr.chars_form e])
  | unary span op e | group span e =>
    exact Form.chars_headed (by simp [Form.charsAll, Expr.chars_form e])
  | binary span op l r | logical span op l r =>
    exact Form.chars_headed (by simp [Form.charsAll, Expr.chars_form l, Expr.chars_form r])
  | call span f args =>
    exact Form.chars_headed (by simp [Form.charsAll, Expr.chars_form f, Expr.charsAll_formAll args])

theorem Expr.charsAll_formAll (es : List (Expr ρ)) :
    Form.charsAll (Expr.formAll es) = (Expr.renderAll es).map String.toList := by
  cases es with
  | nil => rfl
  | cons e es =>
    simp only [Expr.formAll, Form.charsAll, Expr.renderAll, List.map_cons, Expr.chars_form e,
      Expr.charsAll_formAll es]

end

theorem Form.chars_params (params : List Parameter) :
    (Form.node (params.map fun p => .word p.name.toList)).chars =
      ("(" ++ " ".intercalate (params.map Parameter.name) ++ ")").toList := by
  rw [Form.chars, Form.charsAll_eq_map, String.toList_append, String.toList_append,
    String.toList_intercalate, List.map_map, List.map_map]
  rfl

mutual

theorem Stmt.chars_form (s : Stmt ρ) : s.form.chars = s.render.toList := by
  cases s with
  | expression span e | print span e =>
    exact Form.chars_headed (by simp [Form.charsAll, Expr.chars_form])
  | varDecl span name e | ret span e =>
    cases e <;> exact Form.chars_headed (by simp [Form.charsAll, Form.chars, Expr.chars_form])
  | block span body => exact Form.chars_headed (Stmt.charsAll_formAll body)
  | conditional span c t e =>
    cases e with
    | none => exact Form.chars_headed (by simp [Form.charsAll, Expr.chars_form, Stmt.chars_form t])
    | some e =>
      exact Form.chars_headed (by simp [Form.charsAll, Expr.chars_form, Stmt.chars_form t, Stmt.chars_form e])
  | loop span c b => exact Form.chars_headed (by simp [Form.charsAll, Expr.chars_form, Stmt.chars_form b])
  | funDecl span name params body =>
    refine Form.chars_headed ?_
    rw [Form.charsAll, Form.charsAll, Form.chars_params, Stmt.charsAll_formAll body, Form.chars,
      List.map_cons, List.map_cons]

theorem Stmt.charsAll_formAll (ss : List (Stmt ρ)) :
    Form.charsAll (Stmt.formAll ss) = (Stmt.renderAll ss).map String.toList := by
  cases ss with
  | nil => rfl
  | cons s ss =>
    simp only [Stmt.formAll, Form.charsAll, Stmt.renderAll, List.map_cons, Stmt.chars_form s,
      Stmt.charsAll_formAll ss]

end

theorem Program.row_form (p : Program ρ) :
    Form.row '\n' (Stmt.formAll p.statements) = p.render.toList := by
  rw [Form.row, Stmt.charsAll_formAll, Program.render, String.toList_intercalate,
    Stmt.renderAll_eq_map]
  rfl

end Lox

import Lox.Proofs.Numbers.Exact
import Lox.Proofs.Syntax.Spelling
import Lox.Proofs.Syntax.TreeForms

/-!
# Texts of leaves

The names and literals of a source are printed as words. The text of a literal can be read back and is
never that of a name, with one exception: an infinite number is printed like a variable.
-/

namespace Lox

open Form (IsWord)

/-! ### Words -/

namespace Literal

def isInfinite : Literal → Bool
  | .number x => x.isInf
  | _ => false

theorem toList_render_string (s : String) : (string s).render.toList = '"' :: (s.toList ++ ['"']) := by
  rw [render, String.toList_append, String.toList_append]
  rfl

theorem denotes_number {x : Float} (h : (Leaf.literal (.number x)).Spelled) (hx : x.isInf = false) :
    ∃ body d, Decimal.exact x = String.ofList body ∧ Decimal.Denotes body d ∧
      Decimal.nearestFloat d.digits d.exponent = x := by
  obtain ⟨text, -, rfl⟩ := h
  obtain ⟨m, q, hfinite⟩ := (Decimal.unsigned_ofLexeme text).finite hx
  exact Decimal.denotes_exact hfinite

end Literal

namespace Form

theorem isWord_identifier {text : List Char} (h : Lexer.IsLexeme .identifier text) : IsWord text := by
  obtain ⟨hne, -, htext, -⟩ := h.eq_identifier rfl
  refine .plain hne fun c hc => ?_
  have hword := htext c hc
  refine ⟨?_, ?_, ?_⟩
  · rw [← Bool.not_eq_true]
    intro hcloses
    simp only [closes, Bool.or_eq_true, beq_iff_eq] at hcloses
    rcases hcloses with (rfl | rfl) | rfl <;> exact absurd hword (by decide +kernel)
  · rintro rfl
    exact absurd hword (by decide +kernel)
  · rintro rfl
    exact absurd hword (by decide +kernel)

theorem isWord_keyword : IsWord ['n', 'i', 'l'] ∧ IsWord ['t', 'r', 'u', 'e'] ∧
    IsWord ['f', 'a', 'l', 's', 'e'] ∧ IsWord ['i', 'n', 'f'] :=
  ⟨.plain nofun (by simp [closes]), .plain nofun (by simp [closes]), .plain nofun (by simp [closes]),
    .plain nofun (by simp [closes])⟩

theorem isWord_literal {v : Literal} (h : (Leaf.literal v).Spelled) : IsWord v.render.toList := by
  obtain ⟨hnil, htrue, hfalse, hinf⟩ := isWord_keyword
  cases v with
  | nil => exact hnil
  | boolean b =>
    cases b with
    | true => exact htrue
    | false => exact hfalse
  | number x =>
    change IsWord (Decimal.exact x).toList
    by_cases hx : x.isInf = true
    · obtain ⟨text, -, rfl⟩ := h
      rw [Decimal.exact_infinity (Decimal.unsigned_ofLexeme text) hx]
      exact hinf
    · obtain ⟨body, d, htext, hbody, -⟩ := Literal.denotes_number h (Bool.eq_false_iff.mpr hx)
      rw [htext, String.toList_ofList]
      obtain ⟨c, cs, hfirst, -⟩ := hbody.first
      refine .plain (hfirst ▸ List.cons_ne_nil c cs) fun d hd => ?_
      exact Decimal.isNumeralChar_cases (P := fun c => closes c = false ∧ c ≠ '(' ∧ c ≠ '"') (by decide)
        (by decide) (by decide) (by decide) (by decide) (hbody.chars d hd)
  | string s =>
    rw [Literal.toList_render_string]
    exact .quoted fun c hc => (h c hc).1

end Form

/-! ### Reading back -/

namespace Literal

variable {v w : Literal}

theorem render_ne_name (h : (Leaf.literal v).Spelled) (hv : v.isInfinite = false) {name : String}
    (hname : (Leaf.name name).Spelled) : v.render ≠ name := by
  rintro rfl
  obtain ⟨-, hfirst, -, hword⟩ := Lexer.IsLexeme.eq_identifier hname rfl
  rw [String.ofList_toList] at hword
  cases v with
  | nil => exact absurd hword (by decide)
  | boolean b => cases b <;> exact absurd hword (by decide)
  | number x =>
    obtain ⟨body, d, htext, hbody, -⟩ := denotes_number h hv
    obtain ⟨c, cs, rfl, hc⟩ := hbody.first
    change ∀ c ∈ (Decimal.exact x).toList.head?, _ at hfirst
    rw [htext, String.toList_ofList] at hfirst
    have hno : Lexer.beginsWord c = false :=
      Decimal.isDigit_cases (P := fun c => Lexer.beginsWord c = false) (by decide +kernel) hc
    rw [hfirst c rfl] at hno
    cases hno
  | string s =>
    rw [toList_render_string] at hfirst
    exact absurd (hfirst '"' rfl) (by decide +kernel)

/-- The literal that a text stands for. -/
def ofText? (text : String) : Option Literal :=
  if text = "nil" then some .nil
  else if text = "true" then some (.boolean true)
  else if text = "false" then some (.boolean false)
  else if text.toList.head? = some '"' then some (.string (String.ofList text.toList.tail.dropLast))
  else (Decimal.float? text).map .number

theorem ofText?_render (h : (Leaf.literal v).Spelled) (hv : v.isInfinite = false) :
    ofText? v.render = some v := by
  have hother {text word : String} (hfirst : text.toList.head? ≠ word.toList.head?) : text ≠ word :=
    fun heq => hfirst (heq ▸ rfl)
  cases v with
  | nil => rfl
  | boolean b => cases b <;> rfl
  | number x =>
    obtain ⟨text, -, rfl⟩ := id h
    obtain ⟨body, d, htext, hbody, hread⟩ := denotes_number h hv
    obtain ⟨m, q, hfinite⟩ := (Decimal.unsigned_ofLexeme text).finite hv
    obtain ⟨c, cs, rfl, hc⟩ := hbody.first
    have hfirst : (number (Decimal.ofLexeme text)).render.toList.head? = some c := by
      change (Decimal.exact _).toList.head? = _
      rw [htext, String.toList_ofList, List.head?_cons]
    have hdigit : c ≠ 'n' ∧ c ≠ 't' ∧ c ≠ 'f' ∧ c ≠ '"' :=
      Decimal.isDigit_cases (P := fun c => c ≠ 'n' ∧ c ≠ 't' ∧ c ≠ 'f' ∧ c ≠ '"') (by decide) hc
    obtain ⟨hn, ht, hf, hquote⟩ := hdigit
    rw [ofText?, if_neg (hother (by rw [hfirst]; exact fun h => hn (Option.some.inj h))),
      if_neg (hother (by rw [hfirst]; exact fun h => ht (Option.some.inj h))),
      if_neg (hother (by rw [hfirst]; exact fun h => hf (Option.some.inj h))),
      if_neg (by rw [hfirst]; exact fun h => hquote (Option.some.inj h))]
    change (Decimal.float? (Decimal.exact _)).map _ = _
    rw [Decimal.float?_exact hfinite]
    rfl
  | string s =>
    have hquote := toList_render_string s
    have hfirst : (string s).render.toList.head? = some '"' := by rw [hquote, List.head?_cons]
    rw [ofText?, if_neg (hother (by rw [hfirst]; decide +kernel)),
      if_neg (hother (by rw [hfirst]; decide +kernel)), if_neg (hother (by rw [hfirst]; decide +kernel)),
      if_pos hfirst, hquote, List.tail_cons, List.dropLast_concat, String.ofList_toList]

theorem render_injective (h : (Leaf.literal v).Spelled) (hv : v.isInfinite = false)
    (h' : (Leaf.literal w).Spelled) (hw : w.isInfinite = false) (heq : v.render = w.render) : v = w := by
  have hread := ofText?_render h hv
  rw [heq, ofText?_render h' hw] at hread
  exact (Option.some.inj hread).symm

end Literal

end Lox

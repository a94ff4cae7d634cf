import Lox.Proofs.Syntax.NodeTexts
import Lox.Proofs.Syntax.Printed
import Lox.Proofs.Syntax.Respacing

/-!
# Infinite numbers in printed trees

A number with too many digits is infinite, and is printed like the variable of that name. With infinite
numbers taken for variables, two sources have the same printed tree exactly if they have the same tree, up
to places.
-/

namespace Lox

variable {ρ : Type}

open Leaf (AllSpelled)

/-! ### Variables for infinite numbers -/

mutual

/-- The expression with variables where it has infinite numbers. -/
def Expr.infinitiesNamed : Expr Unit → Expr Unit
  | .literal span v => if v.isInfinite then .varRef span "inf" () else .literal span v
  | .varRef span name ref => .varRef span name ref
  | .assign span name ref e => .assign span name ref e.infinitiesNamed
  | .unary span op e => .unary span op e.infinitiesNamed
  | .binary span op l r => .binary span op l.infinitiesNamed r.infinitiesNamed
  | .logical span op l r => .logical span op l.infinitiesNamed r.infinitiesNamed
  | .call span f args => .call span f.infinitiesNamed (Expr.infinitiesNamedAll args)
  | .group span e => .group span e.infinitiesNamed

def Expr.infinitiesNamedAll : List (Expr Unit) → List (Expr Unit)
  | [] => []
  | e :: es => e.infinitiesNamed :: Expr.infinitiesNamedAll es

end

mutual

def Stmt.infinitiesNamed : Stmt Unit → Stmt Unit
  | .expression span e => .expression span e.infinitiesNamed
  | .print span e => .print span e.infinitiesNamed
  | .varDecl span name initializer => .varDecl span name (initializer.map Expr.infinitiesNamed)
  | .block span body => .block span (Stmt.infinitiesNamedAll body)
  | .conditional span c t none => .conditional span c.infinitiesNamed t.infinitiesNamed none
  | .conditional span c t (some e) =>
    .conditional span c.infinitiesNamed t.infinitiesNamed (some e.infinitiesNamed)
  | .loop span c b => .loop span c.infinitiesNamed b.infinitiesNamed
  | .funDecl span name params body => .funDecl span name params (Stmt.infinitiesNamedAll body)
  | .ret span value => .ret span (value.map Expr.infinitiesNamed)

def Stmt.infinitiesNamedAll : List (Stmt Unit) → List (Stmt Unit)
  | [] => []
  | s :: ss => s.infinitiesNamed :: Stmt.infinitiesNamedAll ss

end

namespace Program

def infinitiesNamed (p : Program Unit) : Program Unit := ⟨p.span, Stmt.infinitiesNamedAll p.statements⟩

def Finite (p : Program ρ) : Prop := ∀ v, Leaf.literal v ∈ p.leaves → v.isInfinite = false

end Program

/-! ### Leaves -/

def Leaf.infinityNamed : Leaf → Leaf
  | .literal v => if v.isInfinite then .name "inf" else .literal v
  | .name text => .name text

theorem Leaf.Spelled.told {leaf : Leaf} (h : leaf.Spelled) : leaf.infinityNamed.Told := by
  cases leaf with
  | name text => exact ⟨h, nofun⟩
  | literal v =>
    simp only [infinityNamed]
    split_ifs with hv
    · have hword : Lexer.IsLexeme (TokenKind.ofWord (String.ofList ['i', 'n', 'f'])) ['i', 'n', 'f'] :=
        .word (by decide +kernel) (by simp; decide +kernel)
      exact ⟨hword, nofun⟩
    · refine ⟨h, fun w hw => ?_⟩
      obtain rfl := Leaf.literal.inj hw
      exact Bool.eq_false_iff.mpr hv

mutual

theorem Expr.leaves_infinitiesNamed (e : Expr Unit) :
    e.infinitiesNamed.leaves = e.leaves.map Leaf.infinityNamed := by
  cases e with
  | literal span v =>
    simp only [Expr.infinitiesNamed, Expr.leaves, List.map_cons, List.map_nil, Leaf.infinityNamed]
    split_ifs <;> rfl
  | varRef => rfl
  | assign span name ref e =>
    simp only [Expr.infinitiesNamed, Expr.leaves, List.map_cons, Expr.leaves_infinitiesNamed e,
      Leaf.infinityNamed]
  | unary span op e | group span e =>
    simp only [Expr.infinitiesNamed, Expr.leaves, Expr.leaves_infinitiesNamed e]
  | binary span op l r | logical span op l r =>
    simp only [Expr.infinitiesNamed, Expr.leaves, List.map_append, Expr.leaves_infinitiesNamed l,
      Expr.leaves_infinitiesNamed r]
  | call span f args =>
    simp only [Expr.infinitiesNamed, Expr.leaves, List.map_append, Expr.leaves_infinitiesNamed f,
      Expr.leavesAll_infinitiesNamedAll args]

theorem Expr.leavesAll_infinitiesNamedAll (es : List (Expr Unit)) :
    Expr.leavesAll (Expr.infinitiesNamedAll es) = (Expr.leavesAll es).map Leaf.infinityNamed := by
  cases es with
  | nil => rfl
  | cons e es =>
    simp only [Expr.infinitiesNamedAll, Expr.leavesAll, List.map_append, Expr.leaves_infinitiesNamed e,
      Expr.leavesAll_infinitiesNamedAll es]

end

mutual

theorem Stmt.leaves_infinitiesNamed (s : Stmt Unit) :
    s.infinitiesNamed.leaves = s.leaves.map Leaf.infinityNamed := by
  cases s with
  | expression span e | print span e =>
    simp only [Stmt.infinitiesNamed, Stmt.leaves, Expr.leaves_infinitiesNamed]
  | varDecl span name e =>
    cases e <;> simp only [Stmt.infinitiesNamed, Option.map_none, Option.map_some, Stmt.leaves,
      List.map_cons, List.map_nil, Expr.leaves_infinitiesNamed, Leaf.infinityNamed]
  | ret span e =>
    cases e <;> simp only [Stmt.infinitiesNamed, Option.map_none, Option.map_some, Stmt.leaves,
      List.map_nil, Expr.leaves_infinitiesNamed]
  | block span body =>
    simp only [Stmt.infinitiesNamed, Stmt.leaves, Stmt.leavesAll_infinitiesNamedAll body]
  | conditional span c t e =>
    cases e <;> simp only [Stmt.infinitiesNamed, Stmt.leaves, List.map_append,
      Expr.leaves_infinitiesNamed, Stmt.leaves_infinitiesNamed]
  | loop span c b =>
    simp only [Stmt.infinitiesNamed, Stmt.leaves, List.map_append, Expr.leaves_infinitiesNamed,
      Stmt.leaves_infinitiesNamed b]
  | funDecl span name params body =>
    simp only [Stmt.infinitiesNamed, Stmt.leaves, List.map_cons, List.map_append, List.map_map,
      Stmt.leavesAll_infinitiesNamedAll body, Leaf.infinityNamed]
    rfl

theorem Stmt.leavesAll_infinitiesNamedAll (ss : List (Stmt Unit)) :
    Stmt.leavesAll (Stmt.infinitiesNamedAll ss) = (Stmt.leavesAll ss).map Leaf.infinityNamed := by
  cases ss with
  | nil => rfl
  | cons s ss =>
    simp only [Stmt.infinitiesNamedAll, Stmt.leavesAll, List.map_append, Stmt.leaves_infinitiesNamed s,
      Stmt.leavesAll_infinitiesNamedAll ss]

end

/-! ### Forms -/

theorem Literal.render_infinite {v : Literal} (h : (Leaf.literal v).Spelled) (hv : v.isInfinite = true) :
    v.render = "inf" := by
  cases v with
  | number x =>
    obtain ⟨text, -, rfl⟩ := h
    exact Decimal.exact_infinity (Decimal.unsigned_ofLexeme text) hv
  | nil | boolean | string => cases hv

mutual

theorem Expr.form_infinitiesNamed (e : Expr Unit) (h : AllSpelled e.leaves) :
    e.infinitiesNamed.form = e.form := by
  cases e with
  | literal span v =>
    unfold Expr.infinitiesNamed
    split_ifs with hv
    · rw [Expr.form, Expr.form, Literal.render_infinite (h _ List.mem_cons_self) hv]
    · rfl
  | varRef => rfl
  | assign span name ref e =>
    simp only [Expr.infinitiesNamed, Expr.form, Expr.form_infinitiesNamed e (Leaf.allSpelled_cons.mp h).2]
  | unary span op e | group span e =>
    simp only [Expr.infinitiesNamed, Expr.form, Expr.form_infinitiesNamed e h]
  | binary span op l r | logical span op l r =>
    obtain ⟨hl, hr⟩ := Leaf.allSpelled_append.mp h
    simp only [Expr.infinitiesNamed, Expr.form, Expr.form_infinitiesNamed l hl,
      Expr.form_infinitiesNamed r hr]
  | call span f args =>
    obtain ⟨hf, hargs⟩ := Leaf.allSpelled_append.mp h
    simp only [Expr.infinitiesNamed, Expr.form, Expr.form_infinitiesNamed f hf,
      Expr.formAll_infinitiesNamedAll args hargs]

theorem Expr.formAll_infinitiesNamedAll (es : List (Expr Unit)) (h : AllSpelled (Expr.leavesAll es)) :
    Expr.formAll (Expr.infinitiesNamedAll es) = Expr.formAll es := by
  cases es with
  | nil => rfl
  | cons e es =>
    obtain ⟨he, hes⟩ := Leaf.allSpelled_append.mp h
    simp only [Expr.infinitiesNamedAll, Expr.formAll, Expr.form_infinitiesNamed e he,
      Expr.formAll_infinitiesNamedAll es hes]

end

mutual

theorem Stmt.form_infinitiesNamed (s : Stmt Unit) (h : AllSpelled s.leaves) :
    s.infinitiesNamed.form = s.form := by
  cases s with
  | expression span e | print span e =>
    simp only [Stmt.infinitiesNamed, Stmt.form, e.form_infinitiesNamed h]
  | varDecl span name e =>
    cases e with
    | none => rfl
    | some e =>
      simp only [Stmt.infinitiesNamed, Option.map_some, Stmt.form,
        e.form_infinitiesNamed (Leaf.allSpelled_cons.mp h).2]
  | block span body => simp only [Stmt.infinitiesNamed, Stmt.form, Stmt.formAll_infinitiesNamedAll body h]
  | conditional span c t e =>
    cases e with
    | none =>
      obtain ⟨hc, ht⟩ := Leaf.allSpelled_append.mp h
      simp only [Stmt.infinitiesNamed, Stmt.form, c.form_infinitiesNamed hc, Stmt.form_infinitiesNamed t ht]
    | some e =>
      obtain ⟨hc, hte⟩ := Leaf.allSpelled_append.mp h
      obtain ⟨ht, he⟩ := Leaf.allSpelled_append.mp hte
      simp only [Stmt.infinitiesNamed, Stmt.form, c.form_infinitiesNamed hc, Stmt.form_infinitiesNamed t ht,
        Stmt.form_infinitiesNamed e he]
  | loop span c b =>
    obtain ⟨hc, hb⟩ := Leaf.allSpelled_append.mp h
    simp only [Stmt.infinitiesNamed, Stmt.form, c.form_infinitiesNamed hc, Stmt.form_infinitiesNamed b hb]
  | funDecl span name params body =>
    have hbody := (Leaf.allSpelled_append.mp (Leaf.allSpelled_cons.mp h).2).2
    simp only [Stmt.infinitiesNamed, Stmt.form, Stmt.formAll_infinitiesNamedAll body hbody]
  | ret span e =>
    cases e with
    | none => rfl
    | some e => simp only [Stmt.infinitiesNamed, Option.map_some, Stmt.form, e.form_infinitiesNamed h]

theorem Stmt.formAll_infinitiesNamedAll (ss : List (Stmt Unit)) (h : AllSpelled (Stmt.leavesAll ss)) :
    Stmt.formAll (Stmt.infinitiesNamedAll ss) = Stmt.formAll ss := by
  cases ss with
  | nil => rfl
  | cons s ss =>
    obtain ⟨hs, hss⟩ := Leaf.allSpelled_append.mp h
    simp only [Stmt.infinitiesNamedAll, Stmt.formAll, Stmt.form_infinitiesNamed s hs,
      Stmt.formAll_infinitiesNamedAll ss hss]

end

mutual

theorem Expr.form_mapSpan (g : Span → Span) (e : Expr ρ) : (e.mapSpan g).form = e.form := by
  cases e with
  | literal | varRef => rfl
  | assign span name ref e | unary span op e | group span e =>
    simp only [Expr.mapSpan, Expr.form, Expr.form_mapSpan g e]
  | binary span op l r | logical span op l r =>
    simp only [Expr.mapSpan, Expr.form, Expr.form_mapSpan g l, Expr.form_mapSpan g r]
  | call span f args =>
    simp only [Expr.mapSpan, Expr.form, Expr.form_mapSpan g f, Expr.formAll_mapSpanAll g args]

theorem Expr.formAll_mapSpanAll (g : Span → Span) (es : List (Expr ρ)) :
    Expr.formAll (Expr.mapSpanAll g es) = Expr.formAll es := by
  cases es with
  | nil => rfl
  | cons e es => simp only [Expr.mapSpanAll, Expr.formAll, Expr.form_mapSpan g e, Expr.formAll_mapSpanAll g es]

end

mutual

theorem Stmt.form_mapSpan (g : Span → Span) (s : Stmt ρ) : (s.mapSpan g).form = s.form := by
  cases s with
  | expression span e | print span e => simp only [Stmt.mapSpan, Stmt.form, Expr.form_mapSpan]
  | varDecl span name e | ret span e =>
    cases e with
    | none => rfl
    | some e => simp only [Stmt.mapSpan, Option.map_some, Stmt.form, Expr.form_mapSpan]
  | block span body => simp only [Stmt.mapSpan, Stmt.form, Stmt.formAll_mapSpanAll g body]
  | conditional span c t e =>
    cases e <;> simp only [Stmt.mapSpan, Stmt.form, Expr.form_mapSpan, Stmt.form_mapSpan g]
  | loop span c b => simp only [Stmt.mapSpan, Stmt.form, Expr.form_mapSpan, Stmt.form_mapSpan g b]
  | funDecl span name params body =>
    simp only [Stmt.mapSpan, Stmt.form, List.map_map, Stmt.formAll_mapSpanAll g body]
    rfl

theorem Stmt.formAll_mapSpanAll (g : Span → Span) (ss : List (Stmt ρ)) :
    Stmt.formAll (Stmt.mapSpanAll g ss) = Stmt.formAll ss := by
  cases ss with
  | nil => rfl
  | cons s ss => simp only [Stmt.mapSpanAll, Stmt.formAll, Stmt.form_mapSpan g s, Stmt.formAll_mapSpanAll g ss]

end

/-! ### Texts of programs -/

namespace Program

variable {p q : Program Unit}

theorem render_infinitiesNamed (h : AllSpelled p.leaves) : p.infinitiesNamed.render = p.render := by
  rw [← String.toList_inj, ← row_form, ← row_form]
  exact congrArg (Form.row '\n') (Stmt.formAll_infinitiesNamedAll p.statements h)

theorem render_unplaced (p : Program ρ) : p.unplaced.render = p.render := by
  rw [← String.toList_inj, ← row_form, ← row_form]
  exact congrArg (Form.row '\n') (Stmt.formAll_mapSpanAll _ p.statements)

theorem told_infinitiesNamed (h : AllSpelled p.leaves) : ∀ leaf ∈ p.infinitiesNamed.leaves, leaf.Told := by
  change ∀ leaf ∈ Stmt.leavesAll (Stmt.infinitiesNamedAll p.statements), leaf.Told
  rw [Stmt.leavesAll_infinitiesNamedAll]
  intro leaf hleaf
  obtain ⟨inner, hinner, rfl⟩ := List.mem_map.mp hleaf
  exact (h inner hinner).told

theorem render_eq_iff (h : AllSpelled p.leaves) (h' : AllSpelled q.leaves) :
    p.render = q.render ↔ p.infinitiesNamed.unplaced = q.infinitiesNamed.unplaced := by
  rw [← render_infinitiesNamed h, ← render_infinitiesNamed h']
  constructor
  · exact unplaced_of_render (told_infinitiesNamed h) (told_infinitiesNamed h')
  · intro heq
    rw [← render_unplaced p.infinitiesNamed, heq, render_unplaced]

theorem Finite.told (hfinite : p.Finite) (h : AllSpelled p.leaves) : ∀ leaf ∈ p.leaves, leaf.Told := by
  refine fun leaf hleaf => ⟨h leaf hleaf, ?_⟩
  rintro v rfl
  exact hfinite v hleaf

theorem render_of_render? {prints : Program Unit → Bool} {text : String}
    (h : p.render? prints = some text) : p.render = text := by
  unfold render? at h
  split at h
  · exact Option.some.inj h
  · cases h

/-- Two sources have the same printed tree exactly if they have the same tree, up to places and with
variables for infinite numbers. Where no number is infinite, the trees themselves are the same up to
places. -/
theorem render_tells_apart {limit limit' : Nat} {prints prints' : Program Unit → Bool}
    {file file' source source' : String} {tokens tokens' : List Token}
    (ht : Lexer.tokenize file source = .ok tokens) (hp : Parser.parse limit tokens = .ok p)
    (ht' : Lexer.tokenize file' source' = .ok tokens') (hq : Parser.parse limit' tokens' = .ok q)
    {text text' : String} (hr : p.render? prints = some text) (hr' : q.render? prints' = some text') :
    (text = text' ↔ p.infinitiesNamed.unplaced = q.infinitiesNamed.unplaced) ∧
      (p.Finite → q.Finite → text = text' → p.unplaced = q.unplaced) := by
  have hspelled := spelled_of_parse ht hp
  have hspelled' := spelled_of_parse ht' hq
  obtain rfl := render_of_render? hr
  obtain rfl := render_of_render? hr'
  exact ⟨render_eq_iff hspelled hspelled',
    fun hfinite hfinite' => unplaced_of_render (hfinite.told hspelled) (hfinite'.told hspelled')⟩

theorem parse_number {limit : Nat} (hlimit : 3 < limit) {digits : List Char}
    (h : Lexer.IsLexeme .number digits) (file : String) :
    ∃ tokens span span' place,
      Lexer.tokenize file (String.ofList (digits ++ [' ', ';'])) = .ok tokens ∧
        Parser.parse limit tokens =
          .ok ⟨span, [.expression span' (.literal place (.number (Decimal.ofLexeme digits)))]⟩ := by
  have hspaced : Lexer.Spaced [digits, [';']] (digits ++ [' ', ';']) :=
    .more (⟨List.cons_ne_nil _ _, by simp⟩ : Lexer.IsSpacing [' ']) (.one [';'])
  have hwords : ∀ t ∈ [(⟨.number, String.ofList digits, .nowhere⟩ : Token), ⟨.semicolon, ";", .nowhere⟩],
      Lexer.IsLexeme t.kind t.lexeme.toList := by
    rintro t (_ | ⟨_, _ | ⟨_, ⟨⟩⟩⟩)
    · rwa [String.toList_ofList]
    · exact Lexer.IsLexeme.single rfl
  obtain ⟨body, last, hbody, hscan⟩ := Lexer.scanFrom_spaced file .origin hwords
    (by simpa using hspaced) (List.forall_mem_nil _)
  obtain ⟨t, rest, ht, hrest, rfl⟩ := List.forall₂_cons_left_iff.mp hbody
  obtain ⟨u, none, hu, hnone, rfl⟩ := List.forall₂_cons_left_iff.mp hrest
  obtain rfl := List.forall₂_nil_left_iff.mp hnone
  have hscan : Lexer.scan file (String.ofList (digits ++ [' ', ';'])) =
      ⟨[t] ++ [u, ⟨.endOfInput, "", last⟩], none⟩ := by
    rw [Lexer.scan, String.toList_ofList]
    exact hscan
  have hvalue : Grammar.literal? t = some (.number (Decimal.ofLexeme digits)) := by
    have hnumber : t.numberValue = Decimal.ofLexeme (String.ofList digits).toList := ht.numberValue.symm
    rw [Grammar.literal?, ← ht.kind, hnumber, String.toList_ofList]
  obtain ⟨span, span', hparse⟩ := Parser.parse_expression (Grammar.Derives.literal hvalue).isExpr
    hlimit hu.kind.symm (rfl : (⟨.endOfInput, "", last⟩ : Token).kind = .endOfInput)
  refine ⟨_, span, span', t.span, ?_, hparse⟩
  rw [Lexer.tokenize_of_no_fault (by rw [hscan]), hscan]

/-- A number with too many digits and the variable are two trees with one text. -/
theorem render_tells_apart_infinity :
    let digits := List.replicate 311 '9'
    ∃ tokens tokens' p q,
      (Lexer.tokenize "" "inf;" = .ok tokens ∧ Parser.parse 500 tokens = .ok p ∧
        p.render? (fun _ => true) = some "(; inf)") ∧
        (Lexer.tokenize "" (String.ofList (digits ++ [' ', ';'])) = .ok tokens' ∧
          Parser.parse 500 tokens' = .ok q ∧ q.render? (fun _ => true) = some "(; inf)") ∧
        p.infinitiesNamed.unplaced = q.infinitiesNamed.unplaced ∧ p.unplaced ≠ q.unplaced := by
  intro digits
  have hlexeme : Lexer.IsLexeme .number digits :=
    .whole (by decide) fun d hd => by rw [List.eq_of_mem_replicate hd]; rfl
  have hlimit : 3 < 500 := by decide
  obtain ⟨tokens', span, span', place, ht', hq⟩ := parse_number hlimit hlexeme ""
  have ht : Lexer.tokenize "" "inf;" = .ok (Lexer.scan "" "inf;").tokens :=
    Lexer.tokenize_of_no_fault (by decide +kernel)
  have hp : Parser.parse 500 (Lexer.scan "" "inf;").tokens =
      .ok (Parser.parseProgram 500 (Lexer.scan "" "inf;").tokens).program :=
    Parser.parse_eq_ok_iff_faults.mpr ⟨by decide +kernel, rfl⟩
  have hr : (Parser.parseProgram 500 (Lexer.scan "" "inf;").tokens).program.render? (fun _ => true) =
      some "(; inf)" := by
    decide +kernel
  have hinfinite : (Decimal.ofLexeme digits).isInf = true := by decide +kernel
  have hr' : (⟨span, [.expression span' (.literal place (.number (Decimal.ofLexeme digits)))]⟩ :
      Program Unit).render? (fun _ => true) = some "(; inf)" := by
    have htext := Decimal.exact_infinity (Decimal.unsigned_ofLexeme digits) hinfinite
    unfold render? render
    simp only [if_true, List.map_cons, List.map_nil, Stmt.render,
      Expr.render, Literal.render, htext]
    decide +kernel
  refine ⟨_, tokens', _, _, ⟨ht, hp, hr⟩, ⟨ht', hq, hr'⟩,
    (render_tells_apart ht hp ht' hq hr hr').1.mp rfl, fun h => ?_⟩
  have hreferences := congrArg (fun r : Program Unit => (Stmt.referencesAll r.statements).length) h
  change _ = 0 at hreferences
  revert hreferences
  decide +kernel

end Program

end Lox

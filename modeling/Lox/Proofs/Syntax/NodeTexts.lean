import Lox.Proofs.Syntax.Excerpts
import Lox.Proofs.Syntax.Nesting
import Lox.Proofs.Syntax.TokenOrder

/-!
# The text of a node

The place of an expression in an accepted program is exactly its text: read by itself, with a semicolon
behind it, it gives the same tree. The place of a statement has the places of all that is in it, and
statements that follow each other have places that do.
-/

namespace Lox

/-! ### Expression statements -/

mutual

theorem Expr.nesting_mapSpan {ρ : Type} (g : Span → Span) (e : Expr ρ) :
    (e.mapSpan g).nesting = e.nesting := by
  cases e with
  | literal | varRef => rfl
  | assign span name ref e | unary span op e | group span e =>
    simp only [mapSpan, nesting, Expr.nesting_mapSpan g e]
  | binary span op l r | logical span op l r =>
    simp only [mapSpan, nesting, Expr.nesting_mapSpan g l, Expr.nesting_mapSpan g r]
  | call span f args =>
    simp only [mapSpan, nesting, Expr.nesting_mapSpan g f, Expr.nestingAll_mapSpanAll g args]

theorem Expr.nestingAll_mapSpanAll {ρ : Type} (g : Span → Span) (es : List (Expr ρ)) :
    Expr.nestingAll (Expr.mapSpanAll g es) = Expr.nestingAll es := by
  cases es with
  | nil => rfl
  | cons e es =>
    simp only [mapSpanAll, nestingAll, Expr.nesting_mapSpan g e, Expr.nestingAll_mapSpanAll g es]

end

theorem Grammar.Derives.isExpr {level : Level} {ts : List Token} {e : Parser.RawExpr}
    (h : Derives level ts e) : IsExpr ts e := by
  have hand (h : Derives .and ts e) : IsExpr ts e := .tighter rfl (.tighter rfl h)
  have hcomparison (h : Derives .comparison ts e) : IsExpr ts e :=
    hand (.tighter rfl (.tighter rfl h))
  have hfactor (h : Derives .factor ts e) : IsExpr ts e :=
    hcomparison (.tighter rfl (.tighter rfl h))
  have hcall (h : Derives .call ts e) : IsExpr ts e := hfactor (.tighter rfl (.tighter rfl h))
  cases level with
  | assignment => exact h
  | or => exact .tighter rfl h
  | and => exact hand h
  | equality => exact hand (.tighter rfl h)
  | comparison => exact hcomparison h
  | term => exact hcomparison (.tighter rfl h)
  | factor => exact hfactor h
  | unary => exact hfactor (.tighter rfl h)
  | call => exact hcall h
  | primary => exact hcall (.tighter rfl h)

namespace Parser

open Grammar

theorem recovering_of_ok {α : Type} {rule : Rule α} {s s' : State} {a : α} (h : rule s = .ok a s') :
    recovering rule s = .ok (some a) s' := by
  rw [recovering, h]

theorem declaration_of_statement {depth : Nat} {s s' : State} {stmt : RawStmt}
    (hfun : s.current.kind ≠ .kwFun) (hvar : s.current.kind ≠ .kwVar)
    (h : statement depth s = .ok stmt s') : declaration (depth + 1) s = .ok (some stmt) s' := by
  rw [declaration]
  have hshort : ¬ False := id
  refine recovering_of_ok (YieldsUnless.eq_ok (YieldsUnless.bind (Or.inl rfl) ?_) hshort)
  split
  case h_1 => exact absurd ‹_› hfun
  case h_2 => exact absurd ‹_› hvar
  case h_3 => exact Or.inl h

variable {limit : Nat}

theorem declarations_of_isEnd {s : State} (h : s.current.isEnd = true) (n : Nat) :
    declarations limit n s = ([], s) := by
  cases n with
  | zero => rfl
  | succ n => rw [declarations, if_pos h]

theorem declarations_single {s s' : State} {stmt : RawStmt} (hs : s.current.isEnd = false)
    (h : declaration limit s = .ok (some stmt) s') (hfaults : s'.faults = [])
    (hend : s'.current.isEnd = true) : declarations limit s.remaining s = ([stmt], s') := by
  have hroom : ¬ errorLimit ≤ s'.faults.length := by
    rw [hfaults]
    decide
  rw [State.remaining, declarations, if_neg (Bool.not_eq_true _ ▸ hs), h]
  dsimp only
  rw [if_neg hroom, declarations_of_isEnd hend]
  rfl

/-- An expression that does not nest too deep for it is a program with a semicolon behind it. -/
theorem parse_expression {us : List Token} {e : RawExpr} (he : IsExpr us e)
    (hd : e.nesting + 2 < limit) {semicolon last : Token} (hsemi : semicolon.kind = .semicolon)
    (hlast : last.kind = .endOfInput) :
    ∃ span span', parse limit (us ++ [semicolon, last]) = .ok ⟨span, [.expression span' e]⟩ := by
  obtain ⟨t, us, rfl, hk, -⟩ := he.begins
  let s := initialState t (us ++ [semicolon, last])
  let s' : State := ⟨(t :: us ++ [semicolon]).getLastD t, last, [], []⟩
  have hm : Moves s (t :: us ++ [semicolon]) s' := ⟨by simp [s, s', State.tokens, initialState], rfl, rfl⟩
  obtain ⟨depth, rfl⟩ := Nat.exists_eq_add_of_le' (Nat.le_trans (Nat.le_add_left 2 _) (Nat.le_of_lt hd))
  have hstatement : statement (depth + 1) s = .ok (.expression (spanOf (t :: us ++ [semicolon])) e) s' := by
    refine YieldsUnless.eq_ok ?_ (Nat.not_le_of_lt hd)
    refine yields_statement_expression (.intro he hsemi) depth (fun span e' heq hle => ?_) hm
    obtain ⟨-, rfl⟩ := Stmt.expression.inj heq
    exact Nat.add_le_add_right hle 2
  have hkeyword {k : TokenKind} (hkind : beginsExpr k = false) : t.kind ≠ k := by
    rintro rfl
    rw [hkind] at hk
    cases hk
  have hdeclaration : declaration (depth + 2) s = .ok _ s' :=
    declaration_of_statement (hkeyword rfl) (hkeyword rfl) hstatement
  have hrun := declarations_single (isEnd_eq_false rfl (hkeyword rfl)) hdeclaration rfl
    (beq_iff_eq.mpr hlast)
  have hparse : parseProgram (depth + 2) (t :: us ++ [semicolon, last]) =
      ⟨⟨t.span.join s'.previous.span, [.expression (spanOf (t :: us ++ [semicolon])) e]⟩, []⟩ := by
    rw [List.cons_append, parseProgram_cons]
    dsimp only
    rw [show initialState t (us ++ [semicolon, last]) = s from rfl, hrun]
    rfl
  refine ⟨t.span.join s'.previous.span, spanOf (t :: us ++ [semicolon]), ?_⟩
  rw [parse_eq_ok_iff_faults, hparse]
  exact ⟨rfl, rfl⟩

end Parser

/-! ### What was written -/

open Grammar

/-- The text at a place. -/
def Span.excerpt (source : String) (s : Span) : List Char :=
  Lexer.slice source.toList s.first.offset s.last.offset

/-- The `true` that is put in for the condition that a `for` loop does not have. -/
def IsSupplied (source : String) (e : Expr Unit) : Prop :=
  ∃ span, e = .literal span (.boolean true) ∧ span.excerpt source = "for".toList

/-- Read by itself with a semicolon behind it, the text of an expression gives one expression statement
with the same tree, in the places told from where the text begins. -/
def ReadsBack (limit : Nat) (file source : String) (e : Expr Unit) : Prop :=
  ∃ tokens span span',
    Lexer.tokenize file (String.ofList (e.span.excerpt source ++ [';'])) = .ok tokens ∧
      Parser.parse limit tokens = .ok ⟨span, [.expression span' (e.mapSpan (Span.since e.span.first))]⟩

/-- Statements have places one behind the other. -/
def InOrder (ss : List (Stmt Unit)) : Prop := (ss.map Stmt.span).Pairwise Span.Precedes

theorem readsBack_of_written {limit : Nat} {file source : String} {ts us rest : List Token} {level : Level}
    {e : Parser.RawExpr} (h : Lexer.tokenize file source = .ok (ts ++ (us ++ rest)))
    (hinner : ∀ t ∈ ts ++ us, t.kind ≠ .endOfInput) (he : Derives level us e)
    (hd : e.nesting + 2 < limit) : ReadsBack limit file source e := by
  have htokens := Lexer.tokenize_excerpt h he.ne_nil hinner
  rw [← he.span, List.map_append] at htokens
  let g := Span.since e.span.first
  have hmoved : IsExpr (us.map (Token.relocate g)) (e.mapSpan g) :=
    he.isExpr.relocate (Span.joins_since e.span.first)
  have hnesting : (e.mapSpan g).nesting + 2 < limit := by rwa [Expr.nesting_mapSpan]
  obtain ⟨span, span', hparse⟩ := Parser.parse_expression hmoved hnesting
    (rfl : (Token.relocate g ⟨.semicolon, ";", _⟩).kind = .semicolon)
    (rfl : (Token.relocate g ⟨.endOfInput, "", _⟩).kind = .endOfInput)
  exact ⟨_, span, span', htokens, hparse⟩

/-! ### The keyword of a `for` loop -/

theorem TokenKind.eq_for_of_ofWord {word : String} (h : ofWord word = .kwFor) : word = "for" := by
  rcases ofWord_eq_or_mem word with hname | hmem
  · rw [hname] at h
    cases h
  · have hall : ∀ entry ∈ keywords, entry.2 = kwFor → entry.1 = "for" := by decide
    exact hall _ hmem h

theorem Lexer.IsLexeme.eq_for {text : List Char} (h : IsLexeme .kwFor text) : text = "for".toList := by
  generalize hk : TokenKind.kwFor = kind at h
  cases h with
  | whole | fraction | string => cases hk
  | word => rw [← TokenKind.eq_for_of_ofWord hk.symm, String.toList_ofList]
  | withEquals hc | alone hc =>
    unfold paired? at hc
    split at hc <;> cases hc <;> cases hk
  | single hc =>
    unfold single? at hc
    split at hc <;> cases hc <;> cases hk

theorem Lexer.ReadAt.excerpt_for {file source : String} {t : Token} (h : ReadAt file source.toList t)
    (hk : t.kind = .kwFor) : t.span.excerpt source = "for".toList := by
  have hformed := h.formed
  rw [hk, h.text] at hformed
  exact hformed.eq_for

theorem Span.excerpt_prefix_excerpt {source : String} {s t : Span} (hfirst : s.first = t.first)
    (hlast : t.last.offset ≤ s.last.offset) : t.excerpt source <+: s.excerpt source := by
  rw [excerpt, excerpt, Lexer.slice, Lexer.slice, hfirst]
  exact List.take_prefix_take_left (Nat.sub_le_sub_right hlast _)

/-! ### Statements -/

namespace Grammar

theorem StandsOn.encloses {ts : List Token} {s : Parser.RawStmt} (h : StandsOn ts s)
    (hts : Increasing ts) : ∀ place ∈ s.places, s.span.Encloses place := by
  intro place hplace
  obtain ⟨us, hne, hus, rfl⟩ := h.placed place hplace
  rw [h.span]
  exact hts.encloses hus hne

theorem inOrder_items {items : List (List Token × Parser.RawStmt)}
    (h : Increasing (items.map Prod.fst).flatten) (hi : ∀ i ∈ items, StandsOn i.1 i.2) :
    InOrder (items.map Prod.snd) := by
  have hspans : (items.map Prod.snd).map Stmt.span = (items.map Prod.fst).map spanOf := by
    rw [List.map_map, List.map_map]
    exact List.map_congr_left fun i hmem => (hi i hmem).span
  rw [InOrder, hspans]
  exact h.pairwise_spanOf (List.forall_mem_map.mpr fun i hmem => (hi i hmem).ne_nil)

theorem StandsOn.inOrder_of_funDecl {ts : List Token} {span : Span} {name : String}
    {params : List Parameter} {body : List Parser.RawStmt}
    (h : StandsOn ts (.funDecl span name params body)) (hts : Increasing ts) : InOrder body := by
  cases h with
  | funDecl _ _ hitems hi => exact inOrder_items (hts.of_infix hitems) hi

/-- Only the blocks that a `for` loop stands for need not have their statements in order. -/
theorem StandsOn.inOrder_or_for {file source : String} {ts : List Token} {span : Span}
    {body : List Parser.RawStmt} (h : StandsOn ts (.block span body)) (hts : Increasing ts)
    (hread : ∀ t ∈ ts, Lexer.ReadAt file source.toList t) :
    InOrder body ∨ "for".toList <+: span.excerpt source := by
  cases h with
  | block _ hitems hi => exact Or.inl (inOrder_items (hts.of_infix hitems) hi)
  | forBlock hb =>
    obtain ⟨t, rest, rfl, hk⟩ := hb
    have hkeyword : (spanOf (t :: rest)).Encloses t.span :=
      hts.encloses (List.prefix_append [t] rest).isInfix (List.cons_ne_nil t [])
    rw [← (hread t List.mem_cons_self).excerpt_for hk]
    exact Or.inr (Span.excerpt_prefix_excerpt rfl hkeyword.2.2)

end Grammar

/-! ### Programs -/

namespace Parser

variable {limit : Nat}

theorem items_of_parse {file source : String} {tokens : List Token} {p : Program Unit}
    (ht : Lexer.tokenize file source = .ok tokens) (hp : parse limit tokens = .ok p) :
    ∃ items : List (List Token × RawStmt), ∃ last reached,
      tokens = (items.map Prod.fst).flatten ++ [last] ∧ p.statements = items.map Prod.snd ∧
        (∀ i ∈ items, StandsOn i.1 i.2) ∧
        Lexer.Tiles file source.toList 0 (items.map Prod.fst).flatten reached := by
  obtain ⟨body, reached, last, rfl, htiles, -⟩ := Lexer.tiles_of_tokenize ht
  have hprogram := isProgram_of_parse (Lexer.ended_tokenize ht) hp
  generalize htokens : body ++ [last] = tokens at hprogram
  obtain ⟨hi, -⟩ := hprogram
  rename_i items last'
  obtain ⟨rfl, hlast⟩ := List.append_inj' htokens rfl
  exact ⟨items, last', reached, rfl, rfl, fun i hmem => (hi i hmem).standsOn, htiles⟩

/-- All places in an accepted program are exact. Each expression that was written is what its text reads
back as; each statement has the places of all that is in it within its own; and the statements of the
program, of a function and of a block have places one behind the other, but for the blocks that stand for
a `for` loop. -/
theorem spans_of_parse (hlimit : 3 < limit) {file source : String} {tokens : List Token}
    {p : Program Unit} (ht : Lexer.tokenize file source = .ok tokens) (hp : parse limit tokens = .ok p) :
    (∀ e ∈ p.expressions, IsSupplied source e ∨ ReadsBack limit file source e) ∧
      (∀ s ∈ p.nodes, ∀ place ∈ s.places, s.span.Encloses place) ∧
      InOrder p.statements ∧
      (∀ span name params body, .funDecl span name params body ∈ p.nodes → InOrder body) ∧
      (∀ span body, .block span body ∈ p.nodes →
        InOrder body ∨ "for".toList <+: span.excerpt source) := by
  have hnesting := nesting_of_parse hlimit hp
  obtain ⟨items, last, reached, htokens, hstatements, hi, htiles⟩ := items_of_parse ht hp
  have hincreasing := htiles.increasing
  have hnodes : ∀ n ∈ p.nodes, ∃ us, us <:+: (items.map Prod.fst).flatten ∧ StandsOn us n := by
    intro n hn
    rw [Program.nodes, hstatements] at hn
    obtain ⟨s, hs, hn⟩ := Stmt.mem_nodesAll.mp hn
    obtain ⟨i, hmem, rfl⟩ := List.mem_map.mp hs
    obtain ⟨us, hus, h⟩ := (hi i hmem).nodes n hn
    exact ⟨us, hus.trans (List.infix_of_mem_flatten (List.mem_map_of_mem hmem)), h⟩
  refine ⟨fun e he => ?_, fun s hs => ?_, ?_, fun span name params body hmem => ?_,
    fun span body hmem => ?_⟩
  · have hexpression := he
    rw [Program.expressions, hstatements] at hexpression
    obtain ⟨s, hs, hexpression⟩ := Stmt.mem_expressionsAll.mp hexpression
    obtain ⟨i, hmem, rfl⟩ := List.mem_map.mp hs
    have hpart : i.1 <:+: (items.map Prod.fst).flatten :=
      List.infix_of_mem_flatten (List.mem_map_of_mem hmem)
    rcases (hi i hmem).expressions e hexpression with hwritten | ⟨t, htmem, hk, rfl⟩
    · obtain ⟨level, us, ⟨ts, rest, hsplit⟩, hderives⟩ := hwritten.mono hpart
      rw [htokens, ← hsplit, List.append_assoc, List.append_assoc] at ht
      refine Or.inr (readsBack_of_written ht (fun t htmem => ?_) hderives (hnesting e he))
      exact (htiles.readAt t (hsplit ▸ List.mem_append_left rest htmem)).inner
    · exact Or.inl ⟨_, rfl, (htiles.readAt t (hpart.subset htmem)).excerpt_for hk⟩
  · obtain ⟨us, hus, h⟩ := hnodes s hs
    exact h.encloses (hincreasing.of_infix hus)
  · rw [hstatements]
    exact inOrder_items hincreasing hi
  · obtain ⟨us, hus, h⟩ := hnodes _ hmem
    exact h.inOrder_of_funDecl (hincreasing.of_infix hus)
  · obtain ⟨us, hus, h⟩ := hnodes _ hmem
    exact h.inOrder_or_for (hincreasing.of_infix hus) fun t htmem => htiles.readAt t (hus.subset htmem)

theorem spans_of_parse_loop :
    let source := "for (var i = a; ; i = i + b) { { print -(f(i, !c)); } } fun g(x) { x; return; }"
    let tokens := (Lexer.scan "" source).tokens
    let p := (parseProgram 500 tokens).program
    (3 < 500 ∧ Lexer.tokenize "" source = .ok tokens ∧ parse 500 tokens = .ok p) ∧
      (∀ e ∈ p.expressions, IsSupplied source e ∨ ReadsBack 500 "" source e) ∧
      (∀ s ∈ p.nodes, ∀ place ∈ s.places, s.span.Encloses place) ∧
      InOrder p.statements ∧
      (∀ span name params body, .funDecl span name params body ∈ p.nodes → InOrder body) ∧
      (∀ span body, .block span body ∈ p.nodes →
        InOrder body ∨ "for".toList <+: span.excerpt source) := by
  intro source tokens p
  have hscan : (Lexer.scan "" source).fault = none := by decide +kernel
  have hfaults : (parseProgram 500 tokens).faults = [] := by decide +kernel
  have ht := Lexer.tokenize_of_no_fault hscan
  have hp : parse 500 tokens = .ok p := parse_eq_ok_iff_faults.mpr ⟨hfaults, rfl⟩
  exact ⟨⟨by decide, ht, hp⟩, spans_of_parse (by decide) ht hp⟩

example :
    let source := "for (;;) { -(a) + f(b, !c); }"
    (parseProgram 500 (Lexer.scan "" source).tokens).program.expressions.map
        (fun e => String.ofList (e.span.excerpt source)) =
      ["for", "-(a) + f(b, !c)", "-(a)", "(a)", "a", "f(b, !c)", "f", "b", "!c", "c"] := by
  decide +kernel

end Parser

end Lox

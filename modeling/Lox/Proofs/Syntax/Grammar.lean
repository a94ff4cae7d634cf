import Lox.Syntax.Parser.Statement

/-!
# The grammar

Which tokens form an expression, a statement or a program, and the tree they stand for. Expressions are
derived by levels of precedence, and a node of the tree stands where its tokens do, from the first to
the last. Nothing is said here about the order in which tokens are looked at, how deep a derivation may
be, or what happens where there is none.
-/

namespace Lox.Grammar

open Lox.Parser (RawExpr RawStmt)

def spanOf : List Token → Span
  | [] => .nowhere
  | t :: ts => t.span.join (ts.getLastD t).span

/-- Parts one after the other with a token of the given kind between them. -/
inductive Separated (separator : TokenKind) : List (List Token) → List Token → Prop where
  | none : Separated separator [] []
  | one (part : List Token) : Separated separator [part] part
  | more {part next : List Token} {parts : List (List Token)} {t : Token} {rest : List Token} :
    t.kind = separator → Separated separator (next :: parts) rest →
      Separated separator (part :: next :: parts) (part ++ t :: rest)

/-! ### Levels of expressions -/

/-- The levels of precedence from the loosest to the tightest. -/
inductive Level where
  | assignment
  | or
  | and
  | equality
  | comparison
  | term
  | factor
  | unary
  | call
  | primary
deriving DecidableEq

def Level.tighter? : Level → Option Level
  | assignment => some or
  | or => some and
  | and => some equality
  | equality => some comparison
  | comparison => some term
  | term => some factor
  | factor => some unary
  | unary => some call
  | call => some primary
  | primary => none

inductive Operator where
  | logical (op : LogicalOp)
  | binary (op : BinaryOp)
deriving DecidableEq

def Operator.apply : Operator → Span → RawExpr → RawExpr → RawExpr
  | logical op, span, l, r => .logical span op l r
  | binary op, span, l, r => .binary span op l r

def Level.operator? : Level → TokenKind → Option Operator
  | or, .kwOr => some (.logical .or)
  | and, .kwAnd => some (.logical .and)
  | equality, .equal => some (.binary .equal)
  | equality, .notEqual => some (.binary .notEqual)
  | comparison, .less => some (.binary .less)
  | comparison, .lessEqual => some (.binary .lessEqual)
  | comparison, .greater => some (.binary .greater)
  | comparison, .greaterEqual => some (.binary .greaterEqual)
  | term, .plus => some (.binary .add)
  | term, .minus => some (.binary .subtract)
  | factor, .star => some (.binary .multiply)
  | factor, .slash => some (.binary .divide)
  | _, _ => none

def sign? : TokenKind → Option UnaryOp
  | .bang => some .not
  | .minus => some .negate
  | _ => none

def literal? (t : Token) : Option Literal :=
  match t.kind with
  | .kwNil => some .nil
  | .kwFalse => some (.boolean false)
  | .kwTrue => some (.boolean true)
  | .number => some (.number t.numberValue)
  | .string => some (.string t.stringValue)
  | _ => none

/-- The most arguments of a call, and the most parameters of a function. -/
def listLimit : Nat := 255

inductive Derives : Level → List Token → RawExpr → Prop where
  | literal {t : Token} {v : Literal} :
    literal? t = some v → Derives .primary [t] (.literal t.span v)
  | varRef {t : Token} :
    t.kind = .identifier → Derives .primary [t] (.varRef t.span t.lexeme ())
  | group {left right : Token} {ts : List Token} {e : RawExpr} :
    left.kind = .leftParen → Derives .assignment ts e → right.kind = .rightParen →
      Derives .primary (left :: (ts ++ [right])) (.group (spanOf (left :: (ts ++ [right]))) e)
  | call {fs as : List Token} {f : RawExpr} {left right : Token}
    {arguments : List (List Token × RawExpr)} :
    Derives .call fs f → left.kind = .leftParen → Separated .comma (arguments.map Prod.fst) as →
      (∀ a ∈ arguments, Derives .assignment a.1 a.2) → arguments.length ≤ listLimit →
      right.kind = .rightParen →
      Derives .call (fs ++ left :: (as ++ [right]))
        (.call (spanOf (fs ++ left :: (as ++ [right]))) f (arguments.map Prod.snd))
  | unary {t : Token} {op : UnaryOp} {ts : List Token} {e : RawExpr} :
    sign? t.kind = some op → Derives .unary ts e →
      Derives .unary (t :: ts) (.unary (spanOf (t :: ts)) op e)
  | binary {level inner : Level} {ls rs : List Token} {l r : RawExpr} {t : Token} {op : Operator} :
    Derives level ls l → level.operator? t.kind = some op → level.tighter? = some inner →
      Derives inner rs r → Derives level (ls ++ t :: rs) (op.apply (spanOf (ls ++ t :: rs)) l r)
  | assign {name equals : Token} {ts : List Token} {e : RawExpr} :
    name.kind = .identifier → equals.kind = .assign → Derives .assignment ts e →
      Derives .assignment (name :: equals :: ts)
        (.assign (spanOf (name :: equals :: ts)) name.lexeme () e)
  | tighter {level inner : Level} {ts : List Token} {e : RawExpr} :
    level.tighter? = some inner → Derives inner ts e → Derives level ts e

abbrev IsExpr : List Token → RawExpr → Prop := Derives .assignment

/-- Tokens form an expression that may be left out. -/
inductive IsOptional : List Token → Option RawExpr → Prop where
  | none : IsOptional [] .none
  | some {ts : List Token} {e : RawExpr} : IsExpr ts e → IsOptional ts (.some e)

/-! ### Statements -/

inductive IsVarDecl : List Token → RawStmt → Prop where
  | plain {keyword name semicolon : Token} :
    keyword.kind = .kwVar → name.kind = .identifier → semicolon.kind = .semicolon →
      IsVarDecl [keyword, name, semicolon]
        (.varDecl (spanOf [keyword, name, semicolon]) name.lexeme none)
  | initialized {keyword name equals semicolon : Token} {ts : List Token} {e : RawExpr} :
    keyword.kind = .kwVar → name.kind = .identifier → equals.kind = .assign → IsExpr ts e →
      semicolon.kind = .semicolon →
      IsVarDecl (keyword :: name :: equals :: (ts ++ [semicolon]))
        (.varDecl (spanOf (keyword :: name :: equals :: (ts ++ [semicolon]))) name.lexeme (some e))

inductive IsExprStmt : List Token → RawStmt → Prop where
  | intro {ts : List Token} {e : RawExpr} {semicolon : Token} :
    IsExpr ts e → semicolon.kind = .semicolon →
      IsExprStmt (ts ++ [semicolon]) (.expression (spanOf (ts ++ [semicolon])) e)

/-- Tokens form the first clause in the head of a `for` loop, with its semicolon. -/
inductive IsInitializer : List Token → Option RawStmt → Prop where
  | none {semicolon : Token} : semicolon.kind = .semicolon → IsInitializer [semicolon] .none
  | declaration {ts : List Token} {s : RawStmt} : IsVarDecl ts s → IsInitializer ts (.some s)
  | expression {ts : List Token} {s : RawStmt} : IsExprStmt ts s → IsInitializer ts (.some s)

/-- The places of a statement: one where an `else` behind it would belong to it or not, and one in a
block or at top level, where declarations may stand too. -/
inductive Place where
  | branch (takesElse : Bool)
  | item
deriving DecidableEq

/-- Tokens form a statement for a place. An `else` belongs to the nearest `if`, so the first branch of
an `if` with an `else` may not take one itself. -/
inductive IsStmt : Place → List Token → RawStmt → Prop where
  | expression {ts : List Token} {s : RawStmt} : IsExprStmt ts s → IsStmt (.branch false) ts s
  | print {keyword semicolon : Token} {ts : List Token} {e : RawExpr} :
    keyword.kind = .kwPrint → IsExpr ts e → semicolon.kind = .semicolon →
      IsStmt (.branch false) (keyword :: (ts ++ [semicolon]))
        (.print (spanOf (keyword :: (ts ++ [semicolon]))) e)
  | ret {keyword semicolon : Token} {ts : List Token} {e : Option RawExpr} :
    keyword.kind = .kwReturn → IsOptional ts e → semicolon.kind = .semicolon →
      IsStmt (.branch false) (keyword :: (ts ++ [semicolon]))
        (.ret (spanOf (keyword :: (ts ++ [semicolon]))) e)
  | block {left right : Token} {items : List (List Token × RawStmt)} :
    left.kind = .leftBrace → (∀ i ∈ items, IsStmt .item i.1 i.2) → right.kind = .rightBrace →
      IsStmt (.branch false) (left :: ((items.map Prod.fst).flatten ++ [right]))
        (.block (spanOf (left :: ((items.map Prod.fst).flatten ++ [right]))) (items.map Prod.snd))
  | ifThen {keyword left right : Token} {cs ts : List Token} {c : RawExpr} {t : RawStmt}
    {takesElse : Bool} :
    keyword.kind = .kwIf → left.kind = .leftParen → IsExpr cs c → right.kind = .rightParen →
      IsStmt (.branch takesElse) ts t →
      IsStmt (.branch true) (keyword :: left :: (cs ++ right :: ts))
        (.conditional (spanOf (keyword :: left :: (cs ++ right :: ts))) c t none)
  | ifElse {keyword left right kwElse : Token} {cs ts es : List Token} {c : RawExpr}
    {t e : RawStmt} {takesElse : Bool} :
    keyword.kind = .kwIf → left.kind = .leftParen → IsExpr cs c → right.kind = .rightParen →
      IsStmt (.branch false) ts t → kwElse.kind = .kwElse → IsStmt (.branch takesElse) es e →
      IsStmt (.branch takesElse) (keyword :: left :: (cs ++ right :: (ts ++ kwElse :: es)))
        (.conditional (spanOf (keyword :: left :: (cs ++ right :: (ts ++ kwElse :: es)))) c t
          (some e))
  | loop {keyword left right : Token} {cs bs : List Token} {c : RawExpr} {b : RawStmt}
    {takesElse : Bool} :
    keyword.kind = .kwWhile → left.kind = .leftParen → IsExpr cs c → right.kind = .rightParen →
      IsStmt (.branch takesElse) bs b →
      IsStmt (.branch takesElse) (keyword :: left :: (cs ++ right :: bs))
        (.loop (spanOf (keyword :: left :: (cs ++ right :: bs))) c b)
  | forLoop {keyword left semicolon right : Token} {is cs ns bs : List Token}
    {i : Option RawStmt} {c n : Option RawExpr} {b : RawStmt} {takesElse : Bool} :
    keyword.kind = .kwFor → left.kind = .leftParen → IsInitializer is i → IsOptional cs c →
      semicolon.kind = .semicolon → IsOptional ns n → right.kind = .rightParen →
      IsStmt (.branch takesElse) bs b →
      IsStmt (.branch takesElse) (keyword :: left :: (is ++ (cs ++ semicolon :: (ns ++ right :: bs))))
        (Parser.forLoop keyword.span
          (spanOf (keyword :: left :: (is ++ (cs ++ semicolon :: (ns ++ right :: bs))))) i c n b)
  | branch {ts : List Token} {s : RawStmt} {takesElse : Bool} :
    IsStmt (.branch takesElse) ts s → IsStmt .item ts s
  | varDecl {ts : List Token} {s : RawStmt} : IsVarDecl ts s → IsStmt .item ts s
  | funDecl {keyword name left right leftBrace rightBrace : Token} {params ps : List Token}
    {items : List (List Token × RawStmt)} :
    keyword.kind = .kwFun → name.kind = .identifier → left.kind = .leftParen →
      Separated .comma (params.map fun t => [t]) ps → (∀ t ∈ params, t.kind = .identifier) →
      params.length ≤ listLimit → right.kind = .rightParen → leftBrace.kind = .leftBrace →
      (∀ i ∈ items, IsStmt .item i.1 i.2) → rightBrace.kind = .rightBrace →
      IsStmt .item
        (keyword :: name :: left :: (ps ++ right :: leftBrace ::
          ((items.map Prod.fst).flatten ++ [rightBrace])))
        (.funDecl
          (spanOf (keyword :: name :: left :: (ps ++ right :: leftBrace ::
            ((items.map Prod.fst).flatten ++ [rightBrace]))))
          name.lexeme (params.map fun t => ⟨t.span, t.lexeme⟩) (items.map Prod.snd))

/-! ### Programs -/

/-- Tokens form a program: declarations and statements up to the end of the input. -/
inductive IsProgram : List Token → Program Unit → Prop where
  | intro {items : List (List Token × RawStmt)} {last : Token} :
    (∀ i ∈ items, IsStmt .item i.1 i.2) → last.kind = .endOfInput →
      IsProgram ((items.map Prod.fst).flatten ++ [last])
        ⟨if items = [] then last.span else spanOf (items.map Prod.fst).flatten, items.map Prod.snd⟩

/-! ### Spans -/

theorem getLastD_append (xs ys : List Token) (t : Token) :
    (xs ++ ys).getLastD t = ys.getLastD (xs.getLastD t) := by
  induction xs generalizing t with
  | nil => rfl
  | cons x xs ih => rw [List.cons_append, List.getLastD_cons, List.getLastD_cons, ih]

theorem spanOf_append {xs ys : List Token} (hx : xs ≠ []) (hy : ys ≠ []) :
    spanOf (xs ++ ys) = (spanOf xs).join (spanOf ys) := by
  obtain ⟨x, xs, rfl⟩ := List.exists_cons_of_ne_nil hx
  obtain ⟨y, ys, rfl⟩ := List.exists_cons_of_ne_nil hy
  rw [List.cons_append, spanOf, getLastD_append, List.getLastD_cons]
  rfl

theorem spanOf_cons {t : Token} {ts : List Token} (h : ts ≠ []) :
    spanOf (t :: ts) = t.span.join (spanOf ts) :=
  spanOf_append (List.cons_ne_nil t []) h

theorem spanOf_concat (t : Token) (ts : List Token) (last : Token) :
    spanOf (t :: (ts ++ [last])) = t.span.join last.span := by
  rw [spanOf, List.getLastD_concat]

def beginsExpr : TokenKind → Bool
  | .kwNil | .kwFalse | .kwTrue | .number | .string | .identifier | .leftParen | .bang | .minus => true
  | _ => false

theorem beginsExpr_of_literal {t : Token} {v : Literal} (h : literal? t = some v) :
    beginsExpr t.kind = true ∧ sign? t.kind = none := by
  unfold literal? at h
  split at h <;> simp_all [beginsExpr, sign?]

def BeginsWith (p : TokenKind → Prop) (ts : List Token) : Prop := ∃ t rest, ts = t :: rest ∧ p t.kind

theorem BeginsWith.append {p : TokenKind → Prop} {ts : List Token} (h : BeginsWith p ts)
    (rest : List Token) : BeginsWith p (ts ++ rest) := by
  obtain ⟨t, us, rfl, hp⟩ := h
  exact ⟨t, us ++ rest, rfl, hp⟩

theorem BeginsWith.ne_nil {p : TokenKind → Prop} {ts : List Token} (h : BeginsWith p ts) :
    ts ≠ [] := by
  obtain ⟨t, us, rfl, -⟩ := h
  exact List.cons_ne_nil t us

/-- An expression begins with a token that begins expressions, and unless it begins with an operator
also one of the tightest levels. -/
theorem Derives.begins {level : Level} {ts : List Token} {e : RawExpr} (h : Derives level ts e) :
    BeginsWith (fun k => beginsExpr k = true ∧
      (level = .call ∨ level = .primary → sign? k = none)) ts := by
  induction h with
  | literal hv => exact ⟨_, [], rfl, (beginsExpr_of_literal hv).1, fun _ => (beginsExpr_of_literal hv).2⟩
  | varRef hk => exact ⟨_, [], rfl, by rw [hk]; rfl, fun _ => by rw [hk]; rfl⟩
  | group hl _ _ _ => exact ⟨_, _, rfl, by rw [hl]; rfl, fun _ => by rw [hl]; rfl⟩
  | call _ _ _ _ _ _ ihf _ => exact ihf.append _
  | unary hop _ _ =>
    refine ⟨_, _, rfl, ?_, fun hlevel => by simp at hlevel⟩
    unfold sign? at hop
    split at hop <;> simp_all [beginsExpr]
  | binary _ _ _ _ ihl _ => exact BeginsWith.append ihl _
  | assign hn _ _ _ => exact ⟨_, _, rfl, by rw [hn]; rfl, fun hlevel => by simp at hlevel⟩
  | @tighter level inner ts e hi _ ih =>
    obtain ⟨t, rest, rfl, hk, hsign⟩ := ih
    refine ⟨t, rest, rfl, hk, fun hlevel => hsign ?_⟩
    rcases hlevel with rfl | rfl
    · exact Or.inr (Option.some.inj hi).symm
    · cases hi

theorem Derives.ne_nil {level : Level} {ts : List Token} {e : RawExpr} (h : Derives level ts e) :
    ts ≠ [] := h.begins.ne_nil

theorem Operator.span_apply (op : Operator) (span : Span) (l r : RawExpr) :
    (op.apply span l r).span = span := by
  cases op <;> rfl

theorem Derives.span {level : Level} {ts : List Token} {e : RawExpr} (h : Derives level ts e) :
    e.span = spanOf ts := by
  induction h with
  | binary => exact Operator.span_apply _ _ _ _
  | tighter _ _ ih => exact ih
  | _ => rfl

theorem Derives.eq_of_varRef {level : Level} {ts : List Token} {span : Span} {name : String}
    (h : Derives level ts (.varRef span name ())) :
    ∃ t, ts = [t] ∧ t.kind = .identifier ∧ span = t.span ∧ name = t.lexeme := by
  generalize he : (Expr.varRef span name () : RawExpr) = e at h
  induction h with
  | varRef hk =>
    cases he
    exact ⟨_, rfl, hk, rfl, rfl⟩
  | @binary _ _ _ _ _ _ _ op =>
    cases op <;> cases he
  | tighter _ _ ih => exact ih he
  | _ => cases he

theorem IsVarDecl.begins {ts : List Token} {s : RawStmt} (h : IsVarDecl ts s) :
    BeginsWith (fun k => k = .kwVar) ts := by
  cases h with
  | plain hk => exact ⟨_, _, rfl, hk⟩
  | initialized hk => exact ⟨_, _, rfl, hk⟩

theorem IsExprStmt.begins {ts : List Token} {s : RawStmt} (h : IsExprStmt ts s) :
    BeginsWith (fun k => beginsExpr k = true) ts := by
  obtain ⟨he, -⟩ := h
  obtain ⟨t, rest, rfl, hk, -⟩ := he.begins
  exact ⟨t, _, rfl, hk⟩

/-- Tokens that may begin a statement which is no declaration. -/
def beginsStmt : TokenKind → Bool
  | .kwPrint | .kwReturn | .leftBrace | .kwIf | .kwWhile | .kwFor => true
  | k => beginsExpr k

def Place.begins : Place → TokenKind → Bool
  | branch _, k => beginsStmt k
  | item, .kwVar => true
  | item, .kwFun => true
  | item, k => beginsStmt k

theorem begins_item {k : TokenKind} (h : beginsStmt k = true) : Place.item.begins k = true := by
  cases k <;> first | rfl | exact h

theorem IsStmt.begins {place : Place} {ts : List Token} {s : RawStmt} (h : IsStmt place ts s) :
    BeginsWith (fun k => place.begins k = true) ts := by
  induction h with
  | expression he =>
    obtain ⟨t, rest, rfl, hk⟩ := he.begins
    refine ⟨t, rest, rfl, ?_⟩
    generalize t.kind = k at hk
    cases k <;> first | rfl | exact hk
  | branch _ ih =>
    obtain ⟨t, rest, rfl, hk⟩ := ih
    exact ⟨t, rest, rfl, begins_item hk⟩
  | varDecl hv =>
    obtain ⟨t, rest, rfl, hk⟩ := hv.begins
    exact ⟨t, rest, rfl, by rw [hk]; rfl⟩
  | print hk | ret hk | block hk | ifThen hk | ifElse hk | loop hk | forLoop hk | funDecl hk =>
    exact ⟨_, _, rfl, by rw [hk]; rfl⟩

end Lox.Grammar

import Lox.Proofs.Syntax.Grammar
import Lox.Proofs.Syntax.TreePlaces

/-!
# The tokens of a node

Every node of a derived tree has tokens of its own, a stretch of those of the whole: an expression is
derived from them, and a statement has its place, and all places in it, among theirs. What a `for` loop
puts in is at the place of its keyword, of the whole or of the increment.
-/

namespace Lox

variable {ρ : Type}

mutual

/-- An expression and all expressions in it. -/
def Expr.nodes : Expr ρ → List (Expr ρ)
  | .literal span value => [.literal span value]
  | .varRef span name ref => [.varRef span name ref]
  | .assign span name ref e => .assign span name ref e :: e.nodes
  | .unary span op e => .unary span op e :: e.nodes
  | .binary span op l r => .binary span op l r :: (l.nodes ++ r.nodes)
  | .logical span op l r => .logical span op l r :: (l.nodes ++ r.nodes)
  | .call span f args => .call span f args :: (f.nodes ++ Expr.nodesAll args)
  | .group span e => .group span e :: e.nodes

def Expr.nodesAll : List (Expr ρ) → List (Expr ρ)
  | [] => []
  | e :: es => e.nodes ++ Expr.nodesAll es

end

mutual

/-- A statement and all statements in it. -/
def Stmt.nodes : Stmt ρ → List (Stmt ρ)
  | .expression span e => [.expression span e]
  | .print span e => [.print span e]
  | .varDecl span name e => [.varDecl span name e]
  | .ret span e => [.ret span e]
  | .block span body => .block span body :: Stmt.nodesAll body
  | .conditional span c t none => .conditional span c t none :: t.nodes
  | .conditional span c t (some e) => .conditional span c t (some e) :: (t.nodes ++ e.nodes)
  | .loop span c b => .loop span c b :: b.nodes
  | .funDecl span name params body => .funDecl span name params body :: Stmt.nodesAll body

def Stmt.nodesAll : List (Stmt ρ) → List (Stmt ρ)
  | [] => []
  | s :: ss => s.nodes ++ Stmt.nodesAll ss

end

mutual

/-- All expressions in a statement. -/
def Stmt.expressions : Stmt ρ → List (Expr ρ)
  | .expression _ e | .print _ e | .varDecl _ _ (some e) | .ret _ (some e) => e.nodes
  | .varDecl _ _ none | .ret _ none => []
  | .block _ body | .funDecl _ _ _ body => Stmt.expressionsAll body
  | .conditional _ c t none => c.nodes ++ t.expressions
  | .conditional _ c t (some e) => c.nodes ++ (t.expressions ++ e.expressions)
  | .loop _ c b => c.nodes ++ b.expressions

def Stmt.expressionsAll : List (Stmt ρ) → List (Expr ρ)
  | [] => []
  | s :: ss => s.expressions ++ Stmt.expressionsAll ss

end

def Program.nodes (p : Program ρ) : List (Stmt ρ) := Stmt.nodesAll p.statements

def Program.expressions (p : Program ρ) : List (Expr ρ) := Stmt.expressionsAll p.statements

theorem Expr.mem_nodesAll {e : Expr ρ} {es : List (Expr ρ)} :
    e ∈ Expr.nodesAll es ↔ ∃ e' ∈ es, e ∈ e'.nodes := by
  induction es with
  | nil => simp [nodesAll]
  | cons e' es ih => simp [nodesAll, ih]

theorem Stmt.mem_nodesAll {s : Stmt ρ} {ss : List (Stmt ρ)} :
    s ∈ Stmt.nodesAll ss ↔ ∃ s' ∈ ss, s ∈ s'.nodes := by
  induction ss with
  | nil => simp [nodesAll]
  | cons s' ss ih => simp [nodesAll, ih]

theorem Stmt.mem_expressionsAll {e : Expr ρ} {ss : List (Stmt ρ)} :
    e ∈ Stmt.expressionsAll ss ↔ ∃ s ∈ ss, e ∈ s.expressions := by
  induction ss with
  | nil => simp [expressionsAll]
  | cons s ss ih => simp [expressionsAll, ih]

theorem Stmt.mem_placesAll {place : Span} {ss : List (Stmt ρ)} :
    place ∈ Stmt.placesAll ss ↔ ∃ s ∈ ss, place ∈ s.places := by
  induction ss with
  | nil => simp [placesAll]
  | cons s ss ih => simp [placesAll, ih]

mutual

theorem Expr.places_eq (e : Expr ρ) : e.places = e.nodes.map Expr.span := by
  cases e with
  | literal | varRef => rfl
  | assign span name ref e | unary span op e | group span e =>
    rw [places, nodes, List.map_cons, Expr.places_eq e]
    rfl
  | binary span op l r | logical span op l r =>
    rw [places, nodes, List.map_cons, List.map_append, Expr.places_eq l, Expr.places_eq r]
    rfl
  | call span f args =>
    rw [places, nodes, List.map_cons, List.map_append, Expr.places_eq f, Expr.placesAll_eq args]
    rfl

theorem Expr.placesAll_eq (es : List (Expr ρ)) :
    Expr.placesAll es = (Expr.nodesAll es).map Expr.span := by
  cases es with
  | nil => rfl
  | cons e es => rw [placesAll, nodesAll, List.map_append, Expr.places_eq e, Expr.placesAll_eq es]

end

namespace Grammar

open Lox.Parser (RawExpr RawStmt)

/-! ### Expressions -/

/-- The expression is derived from some of the tokens that stand side by side. -/
def Written (ts : List Token) (e : RawExpr) : Prop :=
  ∃ level us, us <:+: ts ∧ Derives level us e

theorem Written.mono {ts us : List Token} {e : RawExpr} (h : Written us e) (hus : us <:+: ts) :
    Written ts e := by
  obtain ⟨level, vs, hvs, he⟩ := h
  exact ⟨level, vs, hvs.trans hus, he⟩

theorem Separated.infix_of_mem {separator : TokenKind} {parts : List (List Token)} {ts : List Token}
    (h : Separated separator parts ts) : ∀ part ∈ parts, part <:+: ts := by
  induction h with
  | none => exact nofun
  | one part => exact List.forall_mem_singleton.mpr (List.infix_refl part)
  | @more part next parts t rest _ _ ih =>
    refine List.forall_mem_cons.mpr ⟨(List.prefix_append _ _).isInfix, fun other hother => ?_⟩
    exact (ih other hother).trans ⟨part ++ [t], [], by simp⟩

theorem infix_inner (t : Token) (ts us : List Token) : ts <:+: t :: (ts ++ us) := ⟨[t], us, rfl⟩

theorem Derives.written {level : Level} {ts : List Token} {e : RawExpr} (h : Derives level ts e) :
    ∀ e' ∈ e.nodes, Written ts e' := by
  have self {level : Level} {ts : List Token} {e : RawExpr} (h : Derives level ts e) : Written ts e :=
    ⟨level, ts, List.infix_refl ts, h⟩
  induction h with
  | literal hv => exact List.forall_mem_singleton.mpr (self (.literal hv))
  | varRef hk => exact List.forall_mem_singleton.mpr (self (.varRef hk))
  | group hl he hr ih =>
    refine List.forall_mem_cons.mpr ⟨self (.group hl he hr), fun e' he' => ?_⟩
    exact (ih e' he').mono (infix_inner _ _ _)
  | @call fs as f left right arguments hf hl hsep ha hlimit hr ihf iha =>
    refine List.forall_mem_cons.mpr ⟨self (.call hf hl hsep ha hlimit hr), ?_⟩
    refine List.forall_mem_append.mpr ⟨fun e' he' => ?_, fun e' he' => ?_⟩
    · exact (ihf e' he').mono (List.prefix_append _ _).isInfix
    · obtain ⟨a, hmem, hnode⟩ := Expr.mem_nodesAll.mp he'
      obtain ⟨argument, hargument, rfl⟩ := List.mem_map.mp hmem
      have hpart := hsep.infix_of_mem _ (List.mem_map_of_mem hargument)
      exact (iha argument hargument e' hnode).mono (hpart.trans ⟨fs ++ [left], [right], by simp⟩)
  | unary hop he ih =>
    refine List.forall_mem_cons.mpr ⟨self (.unary hop he), fun e' he' => ?_⟩
    exact (ih e' he').mono (List.suffix_cons _ _).isInfix
  | @binary level inner ls rs l r t op hl hop hi hr ihl ihr =>
    have hself := self (.binary hl hop hi hr)
    have hleft : ∀ e' ∈ l.nodes, Written (ls ++ t :: rs) e' := fun e' he' =>
      (ihl e' he').mono (List.prefix_append _ _).isInfix
    have hright : ∀ e' ∈ r.nodes, Written (ls ++ t :: rs) e' := fun e' he' =>
      (ihr e' he').mono ⟨ls ++ [t], [], by simp⟩
    cases op <;>
      exact List.forall_mem_cons.mpr ⟨hself, List.forall_mem_append.mpr ⟨hleft, hright⟩⟩
  | @assign name equals ts e hn heq he ih =>
    refine List.forall_mem_cons.mpr ⟨self (.assign hn heq he), fun e' he' => ?_⟩
    exact (ih e' he').mono ⟨[name, equals], [], by simp⟩
  | tighter _ _ ih => exact ih

/-! ### Places -/

/-- The place is that of some tokens that stand side by side. -/
def Placed (ts : List Token) (span : Span) : Prop := ∃ us, us ≠ [] ∧ us <:+: ts ∧ span = spanOf us

theorem placed_self {ts : List Token} (h : ts ≠ []) : Placed ts (spanOf ts) :=
  ⟨ts, h, List.infix_refl ts, rfl⟩

theorem placed_of_mem {ts : List Token} {t : Token} (h : t ∈ ts) : Placed ts t.span := by
  obtain ⟨before, behind, rfl⟩ := List.append_of_mem h
  exact ⟨[t], List.cons_ne_nil t [], ⟨before, behind, by simp⟩, rfl⟩

theorem Placed.mono {ts us : List Token} {span : Span} (h : Placed us span) (hus : us <:+: ts) :
    Placed ts span := by
  obtain ⟨vs, hne, hvs, heq⟩ := h
  exact ⟨vs, hne, hvs.trans hus, heq⟩

theorem Derives.placed {level : Level} {ts : List Token} {e : RawExpr} (h : Derives level ts e) :
    ∀ place ∈ e.places, Placed ts place := by
  intro place hplace
  rw [Expr.places_eq] at hplace
  obtain ⟨e', he', rfl⟩ := List.mem_map.mp hplace
  obtain ⟨level', us, hus, hd⟩ := h.written e' he'
  exact ⟨us, hd.ne_nil, hus, hd.span⟩

/-! ### Statements -/

/-- The condition of a `for` loop that has none, at the place of the keyword. -/
def Supplied (ts : List Token) (e : RawExpr) : Prop :=
  ∃ t ∈ ts, t.kind = .kwFor ∧ e = .literal t.span (.boolean true)

/-- A statement on its tokens. It has their place, and its parts stand on stretches of them; the items of a
block in braces or of a function do so one behind the other. -/
inductive StandsOn : List Token → RawStmt → Prop where
  | expression {ts : List Token} {e : RawExpr} :
    ts ≠ [] → Written ts e → StandsOn ts (.expression (spanOf ts) e)
  | print {ts : List Token} {e : RawExpr} :
    ts ≠ [] → Written ts e → StandsOn ts (.print (spanOf ts) e)
  | varDecl {ts : List Token} {name : String} {i : Option RawExpr} :
    ts ≠ [] → (∀ e ∈ i, Written ts e) → StandsOn ts (.varDecl (spanOf ts) name i)
  | ret {ts : List Token} {value : Option RawExpr} :
    ts ≠ [] → (∀ e ∈ value, Written ts e) → StandsOn ts (.ret (spanOf ts) value)
  | block {ts : List Token} {items : List (List Token × RawStmt)} :
    ts ≠ [] → (items.map Prod.fst).flatten <:+: ts → (∀ i ∈ items, StandsOn i.1 i.2) →
      StandsOn ts (.block (spanOf ts) (items.map Prod.snd))
  | forBlock {ts us vs : List Token} {first second : RawStmt} :
    BeginsWith (fun k => k = .kwFor) ts → us <:+: ts → StandsOn us first → vs <:+: ts →
      StandsOn vs second → StandsOn ts (.block (spanOf ts) [first, second])
  | ifThen {ts us : List Token} {c : RawExpr} {t : RawStmt} :
    ts ≠ [] → Written ts c → us <:+: ts → StandsOn us t →
      StandsOn ts (.conditional (spanOf ts) c t none)
  | ifElse {ts us vs : List Token} {c : RawExpr} {t e : RawStmt} :
    ts ≠ [] → Written ts c → us <:+: ts → StandsOn us t → vs <:+: ts → StandsOn vs e →
      StandsOn ts (.conditional (spanOf ts) c t (some e))
  | loop {ts us : List Token} {c : RawExpr} {b : RawStmt} :
    ts ≠ [] → Written ts c ∨ Supplied ts c → us <:+: ts → StandsOn us b →
      StandsOn ts (.loop (spanOf ts) c b)
  | funDecl {ts : List Token} {name : String} {params : List Parameter}
    {items : List (List Token × RawStmt)} :
    ts ≠ [] → (∀ p ∈ params, Placed ts p.span) → (items.map Prod.fst).flatten <:+: ts →
      (∀ i ∈ items, StandsOn i.1 i.2) →
      StandsOn ts (.funDecl (spanOf ts) name params (items.map Prod.snd))

theorem StandsOn.ne_nil {ts : List Token} {s : RawStmt} (h : StandsOn ts s) : ts ≠ [] := by
  cases h with
  | forBlock hb => exact hb.ne_nil
  | _ => assumption

theorem StandsOn.span {ts : List Token} {s : RawStmt} (h : StandsOn ts s) : s.span = spanOf ts := by
  cases h <;> rfl

theorem Derives.toWritten {level : Level} {ts us : List Token} {e : RawExpr} (h : Derives level us e)
    (hus : us <:+: ts) : Written ts e := ⟨level, us, hus, h⟩

theorem IsOptional.written {ts us : List Token} {e : Option RawExpr} (h : IsOptional us e)
    (hus : us <:+: ts) : ∀ e' ∈ e, Written ts e' := by
  cases h with
  | none => exact nofun
  | some he => exact fun e' he' => Option.mem_some.mp he' ▸ he.toWritten hus

theorem IsVarDecl.standsOn {ts : List Token} {s : RawStmt} (h : IsVarDecl ts s) : StandsOn ts s := by
  cases h with
  | plain => exact .varDecl (List.cons_ne_nil _ _) nofun
  | @initialized keyword name equals semicolon ts e _ _ _ he _ =>
    refine .varDecl (List.cons_ne_nil _ _) fun e' he' => ?_
    obtain rfl := Option.mem_some.mp he'
    exact he.toWritten ⟨[keyword, name, equals], [semicolon], rfl⟩

theorem IsExprStmt.standsOn {ts : List Token} {s : RawStmt} (h : IsExprStmt ts s) : StandsOn ts s := by
  obtain ⟨he, -⟩ := h
  exact .expression (by simp) (he.toWritten (List.prefix_append _ _).isInfix)

theorem IsInitializer.standsOn {ts : List Token} {i : Option RawStmt} (h : IsInitializer ts i) :
    ∀ s ∈ i, StandsOn ts s := by
  cases h with
  | none => exact nofun
  | declaration h => exact fun s hs => Option.mem_some.mp hs ▸ h.standsOn
  | expression h => exact fun s hs => Option.mem_some.mp hs ▸ h.standsOn

/-- What a `for` loop stands for stands on its tokens: the two blocks and the loop on all of them. -/
theorem StandsOn.forLoop {ts is ns bs : List Token} {keyword : Token} {i : Option RawStmt}
    {c n : Option RawExpr} {b : RawStmt} (hts : BeginsWith (fun k => k = .kwFor) ts)
    (hkeyword : keyword ∈ ts) (hk : keyword.kind = .kwFor) (his : is <:+: ts)
    (hi : ∀ s ∈ i, StandsOn is s) (hc : ∀ e ∈ c, Written ts e) (hns : ns <:+: ts)
    (hn : IsOptional ns n) (hbs : bs <:+: ts) (hb : StandsOn bs b) :
    StandsOn ts (Parser.forLoop keyword.span (spanOf ts) i c n b) := by
  have hcondition : Written ts (c.getD (.literal keyword.span (.boolean true))) ∨
      Supplied ts (c.getD (.literal keyword.span (.boolean true))) := by
    cases c with
    | none => exact Or.inr ⟨keyword, hkeyword, hk, rfl⟩
    | some e => exact Or.inl (hc e rfl)
  have hloop {us : List Token} {step : RawStmt} (hus : us <:+: ts) (h : StandsOn us step) :
      StandsOn ts (.loop (spanOf ts) (c.getD (.literal keyword.span (.boolean true))) step) :=
    .loop hts.ne_nil hcondition hus h
  have hwhole {s : RawStmt} (h : StandsOn ts s) (s' : RawStmt) (hs' : s' ∈ i) :
      StandsOn ts (.block (spanOf ts) [s', s]) :=
    .forBlock hts his (hi s' hs') (List.infix_refl ts) h
  cases hn with
  | none =>
    cases i with
    | none => exact hloop hbs hb
    | some s => exact hwhole (hloop hbs hb) s rfl
  | @some ns e he =>
    have heffect : StandsOn ns (.expression e.span e) := by
      rw [he.span]
      exact .expression he.ne_nil (he.toWritten (List.infix_refl ns))
    have hstep : StandsOn ts (.block (spanOf ts) [b, .expression e.span e]) :=
      .forBlock hts hbs hb hns heffect
    cases i with
    | none => exact hloop (List.infix_refl ts) hstep
    | some s => exact hwhole (hloop (List.infix_refl ts) hstep) s rfl

theorem IsStmt.standsOn {place : Place} {ts : List Token} {s : RawStmt} (h : IsStmt place ts s) :
    StandsOn ts s := by
  induction h with
  | expression h => exact h.standsOn
  | print _ he _ => exact .print (List.cons_ne_nil _ _) (he.toWritten (infix_inner _ _ _))
  | ret _ he _ => exact .ret (List.cons_ne_nil _ _) (he.written (infix_inner _ _ _))
  | block _ _ _ ih => exact .block (List.cons_ne_nil _ _) (infix_inner _ _ _) ih
  | @ifThen keyword left right cs ts c t takesElse _ _ hc _ _ ih =>
    have hcs : cs <:+: keyword :: left :: (cs ++ right :: ts) := ⟨[keyword, left], right :: ts, by simp⟩
    have hts : ts <:+: keyword :: left :: (cs ++ right :: ts) :=
      ⟨keyword :: left :: (cs ++ [right]), [], by simp⟩
    exact .ifThen (List.cons_ne_nil _ _) (hc.toWritten hcs) hts ih
  | @ifElse keyword left right kwElse cs ts es c t e takesElse _ _ hc _ _ _ _ iht ihe =>
    have hcs : cs <:+: keyword :: left :: (cs ++ right :: (ts ++ kwElse :: es)) :=
      ⟨[keyword, left], right :: (ts ++ kwElse :: es), by simp⟩
    have hts : ts <:+: keyword :: left :: (cs ++ right :: (ts ++ kwElse :: es)) :=
      ⟨keyword :: left :: (cs ++ [right]), kwElse :: es, by simp⟩
    have hes : es <:+: keyword :: left :: (cs ++ right :: (ts ++ kwElse :: es)) :=
      ⟨keyword :: left :: (cs ++ right :: (ts ++ [kwElse])), [], by simp⟩
    exact .ifElse (List.cons_ne_nil _ _) (hc.toWritten hcs) hts iht hes ihe
  | @loop keyword left right cs bs c b takesElse _ _ hc _ _ ih =>
    have hcs : cs <:+: keyword :: left :: (cs ++ right :: bs) := ⟨[keyword, left], right :: bs, by simp⟩
    have hbs : bs <:+: keyword :: left :: (cs ++ right :: bs) :=
      ⟨keyword :: left :: (cs ++ [right]), [], by simp⟩
    exact .loop (List.cons_ne_nil _ _) (Or.inl (hc.toWritten hcs)) hbs ih
  | @forLoop keyword left semicolon right is cs ns bs i c n b takesElse hk _ hi hc _ hn _ _ ih =>
    have his : is <:+: keyword :: left :: (is ++ (cs ++ semicolon :: (ns ++ right :: bs))) :=
      ⟨[keyword, left], cs ++ semicolon :: (ns ++ right :: bs), by simp⟩
    have hcs : cs <:+: keyword :: left :: (is ++ (cs ++ semicolon :: (ns ++ right :: bs))) :=
      ⟨keyword :: left :: is, semicolon :: (ns ++ right :: bs), by simp⟩
    have hns : ns <:+: keyword :: left :: (is ++ (cs ++ semicolon :: (ns ++ right :: bs))) :=
      ⟨keyword :: left :: (is ++ (cs ++ [semicolon])), right :: bs, by simp⟩
    have hbs : bs <:+: keyword :: left :: (is ++ (cs ++ semicolon :: (ns ++ right :: bs))) :=
      ⟨keyword :: left :: (is ++ (cs ++ semicolon :: (ns ++ [right]))), [], by simp⟩
    exact .forLoop ⟨keyword, _, rfl, hk⟩ List.mem_cons_self hk his hi.standsOn (hc.written hcs) hns hn
      hbs ih
  | branch _ ih => exact ih
  | varDecl h => exact h.standsOn
  | @funDecl keyword name left right leftBrace rightBrace params ps items _ _ _ hps _ _ _ _ _ _ ih =>
    let behind := right :: leftBrace :: ((items.map Prod.fst).flatten ++ [rightBrace])
    have hparams : ∀ p ∈ params.map fun t => (⟨t.span, t.lexeme⟩ : Parameter),
        Placed (keyword :: name :: left :: (ps ++ behind)) p.span := by
      refine List.forall_mem_map.mpr fun t ht => ?_
      have hpart := hps.infix_of_mem [t] (List.mem_map_of_mem ht)
      exact (placed_of_mem List.mem_cons_self).mono
        (hpart.trans ⟨[keyword, name, left], behind, by simp⟩)
    have hitems : (items.map Prod.fst).flatten <:+: keyword :: name :: left :: (ps ++ behind) :=
      ⟨keyword :: name :: left :: (ps ++ [right, leftBrace]), [rightBrace], by simp [behind]⟩
    exact .funDecl (List.cons_ne_nil _ _) hparams hitems ih

/-! ### What stands on tokens -/

/-- What holds of something on some tokens holds on all that they are a stretch of. -/
def Widens {α : Type} (P : List Token → α → Prop) : Prop :=
  ∀ ⦃ts us : List Token⦄ ⦃a : α⦄, us <:+: ts → P us a → P ts a

theorem Widens.all {α : Type} {P : List Token → α → Prop} (hP : Widens P) {ts us : List Token}
    (hus : us <:+: ts) {parts : List α} (h : ∀ a ∈ parts, P us a) : ∀ a ∈ parts, P ts a :=
  fun a ha => hP hus (h a ha)

theorem Widens.items {α : Type} {P : List Token → α → Prop} (hP : Widens P) {ts : List Token}
    {items : List (List Token × RawStmt)} (hitems : (items.map Prod.fst).flatten <:+: ts)
    {parts : RawStmt → List α} (h : ∀ i ∈ items, ∀ a ∈ parts i.2, P i.1 a) (a : α)
    (ha : ∃ s ∈ items.map Prod.snd, a ∈ parts s) : P ts a := by
  obtain ⟨s, hs, ha⟩ := ha
  obtain ⟨i, hi, rfl⟩ := List.mem_map.mp hs
  exact hP ((List.infix_of_mem_flatten (List.mem_map_of_mem hi)).trans hitems) (h i hi a ha)

theorem StandsOn.nodes {ts : List Token} {s : RawStmt} (h : StandsOn ts s) :
    ∀ n ∈ s.nodes, ∃ us, us <:+: ts ∧ StandsOn us n := by
  have self {ts : List Token} {s : RawStmt} (h : StandsOn ts s) : ∃ us, us <:+: ts ∧ StandsOn us s :=
    ⟨ts, List.infix_refl ts, h⟩
  have hwidens : Widens fun ts (n : RawStmt) => ∃ us, us <:+: ts ∧ StandsOn us n :=
    fun ts us n hus h => have ⟨vs, hvs, h⟩ := h
    ⟨vs, hvs.trans hus, h⟩
  induction h with
  | expression hne he => exact List.forall_mem_singleton.mpr (self (.expression hne he))
  | print hne he => exact List.forall_mem_singleton.mpr (self (.print hne he))
  | varDecl hne he => exact List.forall_mem_singleton.mpr (self (.varDecl hne he))
  | ret hne he => exact List.forall_mem_singleton.mpr (self (.ret hne he))
  | block hne hitems hi ih =>
    refine List.forall_mem_cons.mpr ⟨self (.block hne hitems hi), fun n hn => ?_⟩
    exact hwidens.items hitems ih n (Stmt.mem_nodesAll.mp hn)
  | forBlock hb hus hf hvs hs ihf ihs =>
    refine List.forall_mem_cons.mpr ⟨self (.forBlock hb hus hf hvs hs), ?_⟩
    exact List.forall_mem_append.mpr ⟨hwidens.all hus ihf,
      List.forall_mem_append.mpr ⟨hwidens.all hvs ihs, nofun⟩⟩
  | ifThen hne hc hus ht ih =>
    exact List.forall_mem_cons.mpr ⟨self (.ifThen hne hc hus ht), hwidens.all hus ih⟩
  | ifElse hne hc hus ht hvs he iht ihe =>
    exact List.forall_mem_cons.mpr ⟨self (.ifElse hne hc hus ht hvs he),
      List.forall_mem_append.mpr ⟨hwidens.all hus iht, hwidens.all hvs ihe⟩⟩
  | loop hne hc hus hb ih =>
    exact List.forall_mem_cons.mpr ⟨self (.loop hne hc hus hb), hwidens.all hus ih⟩
  | funDecl hne hparams hitems hi ih =>
    refine List.forall_mem_cons.mpr ⟨self (.funDecl hne hparams hitems hi), fun n hn => ?_⟩
    exact hwidens.items hitems ih n (Stmt.mem_nodesAll.mp hn)

theorem Written.placed {ts : List Token} {e : RawExpr} (h : Written ts e) :
    ∀ place ∈ e.places, Placed ts place := by
  obtain ⟨level, us, hus, he⟩ := h
  exact fun place hplace => (he.placed place hplace).mono hus

theorem StandsOn.placed {ts : List Token} {s : RawStmt} (h : StandsOn ts s) :
    ∀ place ∈ s.places, Placed ts place := by
  have hwidens : Widens Placed := fun ts us place hus h => h.mono hus
  induction h with
  | expression hne he | print hne he => exact List.forall_mem_cons.mpr ⟨placed_self hne, he.placed⟩
  | @varDecl ts name e hne he | @ret ts e hne he =>
    cases e with
    | none => exact List.forall_mem_singleton.mpr (placed_self hne)
    | some e => exact List.forall_mem_cons.mpr ⟨placed_self hne, (he e rfl).placed⟩
  | block hne hitems _ ih =>
    refine List.forall_mem_cons.mpr ⟨placed_self hne, fun place hplace => ?_⟩
    exact hwidens.items hitems ih place (Stmt.mem_placesAll.mp hplace)
  | forBlock hb hus _ hvs _ ihf ihs =>
    exact List.forall_mem_cons.mpr ⟨placed_self hb.ne_nil, List.forall_mem_append.mpr
      ⟨hwidens.all hus ihf, List.forall_mem_append.mpr ⟨hwidens.all hvs ihs, nofun⟩⟩⟩
  | ifThen hne hc hus _ ih =>
    exact List.forall_mem_cons.mpr ⟨placed_self hne,
      List.forall_mem_append.mpr ⟨hc.placed, hwidens.all hus ih⟩⟩
  | ifElse hne hc hus _ hvs _ iht ihe =>
    exact List.forall_mem_cons.mpr ⟨placed_self hne, List.forall_mem_append.mpr
      ⟨hc.placed, List.forall_mem_append.mpr ⟨hwidens.all hus iht, hwidens.all hvs ihe⟩⟩⟩
  | @loop ts us c b hne hc hus _ ih =>
    have hcondition : ∀ place ∈ c.places, Placed ts place := by
      rcases hc with hc | ⟨t, ht, -, rfl⟩
      · exact hc.placed
      · exact List.forall_mem_singleton.mpr (placed_of_mem ht)
    exact List.forall_mem_cons.mpr ⟨placed_self hne,
      List.forall_mem_append.mpr ⟨hcondition, hwidens.all hus ih⟩⟩
  | funDecl hne hparams hitems _ ih =>
    refine List.forall_mem_cons.mpr ⟨placed_self hne,
      List.forall_mem_append.mpr ⟨List.forall_mem_map.mpr hparams, fun place hplace => ?_⟩⟩
    exact hwidens.items hitems ih place (Stmt.mem_placesAll.mp hplace)

theorem Supplied.mono {ts us : List Token} {e : RawExpr} (h : Supplied us e) (hus : us <:+: ts) :
    Supplied ts e := by
  obtain ⟨t, ht, hk, he⟩ := h
  exact ⟨t, hus.subset ht, hk, he⟩

theorem Written.expressions {ts : List Token} {e : RawExpr} (h : Written ts e) :
    ∀ e' ∈ e.nodes, Written ts e' ∨ Supplied ts e' := by
  obtain ⟨level, us, hus, he⟩ := h
  exact fun e' he' => Or.inl ((he.written e' he').mono hus)

theorem StandsOn.expressions {ts : List Token} {s : RawStmt} (h : StandsOn ts s) :
    ∀ e ∈ s.expressions, Written ts e ∨ Supplied ts e := by
  have hwidens : Widens fun ts e => Written ts e ∨ Supplied ts e :=
    fun ts us e hus h => h.imp (·.mono hus) (·.mono hus)
  induction h with
  | expression _ he | print _ he => exact he.expressions
  | @varDecl ts name e _ he | @ret ts e _ he =>
    cases e with
    | none => exact nofun
    | some e => exact (he e rfl).expressions
  | block _ hitems _ ih | funDecl _ _ hitems _ ih =>
    exact fun e he => hwidens.items hitems ih e (Stmt.mem_expressionsAll.mp he)
  | forBlock _ hus _ hvs _ ihf ihs =>
    exact List.forall_mem_append.mpr ⟨hwidens.all hus ihf,
      List.forall_mem_append.mpr ⟨hwidens.all hvs ihs, nofun⟩⟩
  | ifThen _ hc hus _ ih => exact List.forall_mem_append.mpr ⟨hc.expressions, hwidens.all hus ih⟩
  | ifElse _ hc hus _ hvs _ iht ihe =>
    exact List.forall_mem_append.mpr ⟨hc.expressions,
      List.forall_mem_append.mpr ⟨hwidens.all hus iht, hwidens.all hvs ihe⟩⟩
  | @loop ts us c b _ hc hus _ ih =>
    refine List.forall_mem_append.mpr ⟨?_, hwidens.all hus ih⟩
    rcases hc with hc | hc
    · exact hc.expressions
    · obtain ⟨t, -, -, rfl⟩ := id hc
      exact List.forall_mem_singleton.mpr (Or.inr hc)

end Grammar

end Lox

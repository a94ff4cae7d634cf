import Lox.Proofs.Scope.Erasure
import Lox.Proofs.Syntax.Recognition
import Lox.Proofs.Syntax.TokenOrder

/-!
# How the leaves of trees are spelled

The names and literals in the tree of a source are those of its tokens: a name is a word and no keyword, a
number is a numeral's nearest double, and a string has neither quotation marks nor line feeds in it.
-/

namespace Lox

variable {ρ τ : Type}

/-! ### Leaves -/

/-- What stands in a tree for a token of its own. -/
inductive Leaf where
  | name (name : String)
  | literal (value : Literal)

mutual

/-- The names and literals of an expression, in the order of the text. -/
def Expr.leaves : Expr ρ → List Leaf
  | .literal _ v => [.literal v]
  | .varRef _ name _ => [.name name]
  | .assign _ name _ e => .name name :: e.leaves
  | .unary _ _ e | .group _ e => e.leaves
  | .binary _ _ l r | .logical _ _ l r => l.leaves ++ r.leaves
  | .call _ f args => f.leaves ++ Expr.leavesAll args

def Expr.leavesAll : List (Expr ρ) → List Leaf
  | [] => []
  | e :: es => e.leaves ++ Expr.leavesAll es

end

mutual

def Stmt.leaves : Stmt ρ → List Leaf
  | .expression _ e | .print _ e => e.leaves
  | .varDecl _ name none => [.name name]
  | .varDecl _ name (some e) => .name name :: e.leaves
  | .block _ body => Stmt.leavesAll body
  | .conditional _ c t none => c.leaves ++ t.leaves
  | .conditional _ c t (some e) => c.leaves ++ (t.leaves ++ e.leaves)
  | .loop _ c b => c.leaves ++ b.leaves
  | .funDecl _ name params body =>
    .name name :: (params.map (fun p => .name p.name) ++ Stmt.leavesAll body)
  | .ret _ none => []
  | .ret _ (some e) => e.leaves

def Stmt.leavesAll : List (Stmt ρ) → List Leaf
  | [] => []
  | s :: ss => s.leaves ++ Stmt.leavesAll ss

end

namespace Leaf

def Spelled : Leaf → Prop
  | .name word => Lexer.IsLexeme .identifier word.toList
  | .literal (.number x) => ∃ text, Lexer.IsLexeme .number text ∧ x = Decimal.ofLexeme text
  | .literal (.string s) => ∀ c ∈ s.toList, c ≠ '"' ∧ c ≠ '\n'
  | .literal _ => True

def AllSpelled (leaves : List Leaf) : Prop := ∀ leaf ∈ leaves, leaf.Spelled

@[simp] theorem allSpelled_nil : AllSpelled [] := nofun

@[simp] theorem allSpelled_cons {leaf : Leaf} {leaves : List Leaf} :
    AllSpelled (leaf :: leaves) ↔ leaf.Spelled ∧ AllSpelled leaves := List.forall_mem_cons

@[simp] theorem allSpelled_append {leaves leaves' : List Leaf} :
    AllSpelled (leaves ++ leaves') ↔ AllSpelled leaves ∧ AllSpelled leaves' := List.forall_mem_append

end Leaf

open Leaf (AllSpelled)

theorem Expr.allSpelled_all {es : List (Expr ρ)} (h : ∀ e ∈ es, AllSpelled e.leaves) :
    AllSpelled (Expr.leavesAll es) := by
  induction es with
  | nil => exact Leaf.allSpelled_nil
  | cons e es ih =>
    obtain ⟨he, hes⟩ := List.forall_mem_cons.mp h
    exact Leaf.allSpelled_append.mpr ⟨he, ih hes⟩

theorem Stmt.allSpelled_all {ss : List (Stmt ρ)} (h : ∀ s ∈ ss, AllSpelled s.leaves) :
    AllSpelled (Stmt.leavesAll ss) := by
  induction ss with
  | nil => exact Leaf.allSpelled_nil
  | cons s ss ih =>
    obtain ⟨hs, hss⟩ := List.forall_mem_cons.mp h
    exact Leaf.allSpelled_append.mpr ⟨hs, ih hss⟩

/-! ### What a tree is labelled with is no leaf -/

mutual

theorem Expr.leaves_map (g : ρ → τ) (e : Expr ρ) : (e.map g).leaves = e.leaves := by
  cases e with
  | literal | varRef => rfl
  | assign span name ref value => simp only [Expr.map, Expr.leaves, Expr.leaves_map g value]
  | unary span op e | group span e => simp only [Expr.map, Expr.leaves, Expr.leaves_map g e]
  | binary span op l r | logical span op l r =>
    simp only [Expr.map, Expr.leaves, Expr.leaves_map g l, Expr.leaves_map g r]
  | call span f args =>
    simp only [Expr.map, Expr.leaves, Expr.leaves_map g f, Expr.leavesAll_mapAll g args]

theorem Expr.leavesAll_mapAll (g : ρ → τ) (es : List (Expr ρ)) :
    Expr.leavesAll (Expr.mapAll g es) = Expr.leavesAll es := by
  cases es with
  | nil => rfl
  | cons e es => simp only [Expr.mapAll, Expr.leavesAll, Expr.leaves_map g e, Expr.leavesAll_mapAll g es]

end

mutual

theorem Stmt.leaves_map (g : ρ → τ) (s : Stmt ρ) : (s.map g).leaves = s.leaves := by
  cases s with
  | expression span e | print span e => simp only [Stmt.map, Stmt.leaves, Expr.leaves_map]
  | varDecl span name e | ret span e =>
    cases e with
    | none => rfl
    | some e => simp only [Stmt.map, Option.map_some, Stmt.leaves, Expr.leaves_map]
  | block span body => simp only [Stmt.map, Stmt.leaves, Stmt.leavesAll_mapAll g body]
  | conditional span c t e =>
    cases e <;> simp only [Stmt.map, Stmt.leaves, Expr.leaves_map, Stmt.leaves_map g]
  | loop span c b => simp only [Stmt.map, Stmt.leaves, Expr.leaves_map, Stmt.leaves_map g b]
  | funDecl span name params body =>
    simp only [Stmt.map, Stmt.leaves, Stmt.leavesAll_mapAll g body]

theorem Stmt.leavesAll_mapAll (g : ρ → τ) (ss : List (Stmt ρ)) :
    Stmt.leavesAll (Stmt.mapAll g ss) = Stmt.leavesAll ss := by
  cases ss with
  | nil => rfl
  | cons s ss => simp only [Stmt.mapAll, Stmt.leavesAll, Stmt.leaves_map g s, Stmt.leavesAll_mapAll g ss]

end

/-! ### Tokens -/

theorem Lexer.inWord_of_beginsWord {c : Char} (h : beginsWord c = true) : inWord c = true := by
  simp only [beginsWord, inWord, Bool.or_eq_true] at h ⊢
  refine h.imp_left fun hletter => ?_
  unfold Text.isLetter at hletter
  unfold Text.isWordChar
  split_ifs at hletter ⊢
  · rw [Char.isAlphanum, hletter, Bool.true_or]
  · rw [Text.isLetter, if_neg ‹_›, hletter, Bool.true_or]

namespace Lexer.IsLexeme

theorem eq_string {kind : TokenKind} {text : List Char} (h : IsLexeme kind text) (hk : kind = .string) :
    ∃ body, text = '"' :: (body ++ ['"']) ∧ ∀ c ∈ body, c ≠ '"' ∧ c ≠ '\n' := by
  cases h with
  | string hbody => exact ⟨_, rfl, hbody⟩
  | whole | fraction => cases hk
  | word =>
    rcases TokenKind.ofWord_eq_or_mem _ with hname | hmem
    · rw [hname] at hk
      cases hk
    · rw [hk] at hmem
      have hall : ∀ entry ∈ TokenKind.keywords, entry.2 ≠ .string := by decide
      exact absurd rfl (hall _ hmem)
  | withEquals hc | alone hc =>
    unfold paired? at hc
    split at hc <;> cases hc <;> cases hk
  | single hc =>
    unfold single? at hc
    split at hc <;> cases hc <;> cases hk

theorem eq_identifier {kind : TokenKind} {text : List Char} (h : IsLexeme kind text)
    (hk : kind = .identifier) :
    text ≠ [] ∧ (∀ c ∈ text.head?, beginsWord c = true) ∧ (∀ c ∈ text, inWord c = true) ∧
      TokenKind.ofWord (String.ofList text) = .identifier := by
  cases h with
  | @word c cs hc hcs =>
    refine ⟨List.cons_ne_nil c cs, fun d hd => ?_, List.forall_mem_cons.mpr ⟨inWord_of_beginsWord hc, hcs⟩, hk⟩
    obtain rfl := Option.some.inj hd
    exact hc
  | whole | fraction | string => cases hk
  | withEquals hc | alone hc =>
    unfold paired? at hc
    split at hc <;> cases hc <;> cases hk
  | single hc =>
    unfold single? at hc
    split at hc <;> cases hc <;> cases hk

end Lexer.IsLexeme

/-- A token has a text of the lexical grammar, unless it is the end. -/
def Token.Formed (t : Token) : Prop := t.kind = .endOfInput ∨ Lexer.IsLexeme t.kind t.lexeme.toList

namespace Token.Formed

variable {t : Token}

theorem name (h : t.Formed) (hk : t.kind = .identifier) : (Leaf.name t.lexeme).Spelled := by
  rcases h with hend | htext
  · rw [hk] at hend
    cases hend
  · rwa [hk] at htext

theorem literal (h : t.Formed) {v : Literal} (hv : Grammar.literal? t = some v) :
    (Leaf.literal v).Spelled := by
  unfold Grammar.literal? at hv
  split at hv <;> cases hv
  · trivial
  · trivial
  · trivial
  · rename_i hk
    rw [Token.Formed, hk, or_iff_right nofun] at h
    exact ⟨t.lexeme.toList, h, rfl⟩
  · rename_i hk
    rw [Token.Formed, hk, or_iff_right nofun] at h
    obtain ⟨body, htext, hbody⟩ := h.eq_string rfl
    have hvalue : t.stringValue = String.ofList body := by
      rw [stringValue, htext, List.drop_one, List.tail_cons, List.dropLast_concat]
    rwa [Leaf.Spelled, hvalue, String.toList_ofList]

end Token.Formed

/-! ### Trees -/

namespace Grammar

open Lox.Parser (RawExpr RawStmt)

/-- Tokens that are part of tokens with the grammar's texts have them too. -/
def AllFormed (ts : List Token) : Prop := ∀ t ∈ ts, t.Formed

@[simp] theorem allFormed_cons {t : Token} {ts : List Token} :
    AllFormed (t :: ts) ↔ t.Formed ∧ AllFormed ts := List.forall_mem_cons

@[simp] theorem allFormed_append {ts us : List Token} :
    AllFormed (ts ++ us) ↔ AllFormed ts ∧ AllFormed us := List.forall_mem_append

theorem Separated.allFormed {separator : TokenKind} {parts : List (List Token)} {ts : List Token}
    (h : Separated separator parts ts) (hts : AllFormed ts) : ∀ part ∈ parts, AllFormed part := by
  induction h with
  | none => exact nofun
  | one part => exact List.forall_mem_singleton.mpr hts
  | more _ _ ih =>
    obtain ⟨hpart, -, hrest⟩ := by simpa only [allFormed_append, allFormed_cons] using hts
    exact List.forall_mem_cons.mpr ⟨hpart, ih hrest⟩

theorem allFormed_of_flatten {ts : List Token} {parts : List (List Token)}
    (h : AllFormed parts.flatten) (hts : ts ∈ parts) : AllFormed ts :=
  fun t ht => h t (List.mem_flatten_of_mem hts ht)

theorem spelled_of_derives {level : Level} {ts : List Token} {e : RawExpr} (h : Derives level ts e)
    (hts : AllFormed ts) : AllSpelled e.leaves := by
  induction h with
  | literal hv =>
    simp only [Expr.leaves, Leaf.allSpelled_cons, Leaf.allSpelled_nil, and_true]
    exact (hts _ List.mem_cons_self).literal hv
  | varRef hk =>
    simp only [Expr.leaves, Leaf.allSpelled_cons, Leaf.allSpelled_nil, and_true]
    exact (hts _ List.mem_cons_self).name hk
  | group _ _ _ ih =>
    simp only [allFormed_cons, allFormed_append] at hts
    exact ih hts.2.1
  | call _ _ hargs _ _ _ ihf iha =>
    simp only [allFormed_cons, allFormed_append] at hts
    obtain ⟨hf, -, has, -⟩ := hts
    refine Leaf.allSpelled_append.mpr ⟨ihf hf, Expr.allSpelled_all fun e he => ?_⟩
    obtain ⟨a, ha, rfl⟩ := List.mem_map.mp he
    exact iha a ha (hargs.allFormed has a.1 (List.mem_map_of_mem ha))
  | unary _ _ ih => exact ih (allFormed_cons.mp hts).2
  | @binary _ _ _ _ _ _ _ op _ _ _ _ ihl ihr =>
    simp only [allFormed_cons, allFormed_append] at hts
    cases op <;> exact Leaf.allSpelled_append.mpr ⟨ihl hts.1, ihr hts.2.2⟩
  | assign hn _ _ ih =>
    simp only [allFormed_cons] at hts
    exact Leaf.allSpelled_cons.mpr ⟨hts.1.name hn, ih hts.2.2⟩
  | tighter _ _ ih => exact ih hts

theorem spelled_of_isOptional {ts : List Token} {e : Option RawExpr} (h : IsOptional ts e)
    (hts : AllFormed ts) : ∀ e', e = some e' → AllSpelled e'.leaves := by
  intro e' he
  cases h with
  | none => cases he
  | some hexpr =>
    cases he
    exact spelled_of_derives hexpr hts

theorem spelled_of_isVarDecl {ts : List Token} {s : RawStmt} (h : IsVarDecl ts s)
    (hts : AllFormed ts) : AllSpelled s.leaves := by
  cases h with
  | plain _ hn =>
    simp only [allFormed_cons] at hts
    simpa only [Stmt.leaves, Leaf.allSpelled_cons, Leaf.allSpelled_nil, and_true] using hts.2.1.name hn
  | initialized _ hn _ he =>
    simp only [allFormed_cons, allFormed_append] at hts
    exact Leaf.allSpelled_cons.mpr ⟨hts.2.1.name hn, spelled_of_derives he hts.2.2.2.1⟩

theorem spelled_of_isExprStmt {ts : List Token} {s : RawStmt} (h : IsExprStmt ts s)
    (hts : AllFormed ts) : AllSpelled s.leaves := by
  obtain ⟨he, -⟩ := h
  exact spelled_of_derives he (allFormed_append.mp hts).1

theorem spelled_of_isInitializer {ts : List Token} {i : Option RawStmt} (h : IsInitializer ts i)
    (hts : AllFormed ts) : ∀ s, i = some s → AllSpelled s.leaves := by
  intro s hi
  cases h with
  | none => cases hi
  | declaration hv =>
    cases hi
    exact spelled_of_isVarDecl hv hts
  | expression he =>
    cases hi
    exact spelled_of_isExprStmt he hts

theorem spelled_forLoop {keyword span : Span} {i : Option RawStmt} {c n : Option RawExpr} {b : RawStmt}
    (hi : ∀ s, i = some s → AllSpelled s.leaves) (hc : ∀ e, c = some e → AllSpelled e.leaves)
    (hn : ∀ e, n = some e → AllSpelled e.leaves) (hb : AllSpelled b.leaves) :
    AllSpelled (Parser.forLoop keyword span i c n b).leaves := by
  have htrue : (Leaf.literal (.boolean true)).Spelled := trivial
  cases i <;> cases c <;> cases n <;>
    simp only [Option.some.injEq, forall_eq', reduceCtorEq, false_imp_iff, implies_true] at hi hc hn <;>
    simp [Parser.forLoop, Stmt.leaves, Stmt.leavesAll, Expr.leaves, *]

theorem spelled_items {items : List (List Token × RawStmt)}
    (h : ∀ i ∈ items, AllFormed i.1 → AllSpelled i.2.leaves)
    (hts : AllFormed (items.map Prod.fst).flatten) :
    AllSpelled (Stmt.leavesAll (items.map Prod.snd)) := by
  refine Stmt.allSpelled_all fun s hs => ?_
  obtain ⟨i, hi, rfl⟩ := List.mem_map.mp hs
  exact h i hi (allFormed_of_flatten hts (List.mem_map_of_mem hi))

theorem spelled_of_isStmt {place : Place} {ts : List Token} {s : RawStmt} (h : IsStmt place ts s)
    (hts : AllFormed ts) : AllSpelled s.leaves := by
  induction h with
  | expression he => exact spelled_of_isExprStmt he hts
  | print _ he _ =>
    simp only [allFormed_cons, allFormed_append] at hts
    exact spelled_of_derives he hts.2.1
  | @ret _ _ _ e _ he _ =>
    simp only [allFormed_cons, allFormed_append] at hts
    cases e with
    | none => exact Leaf.allSpelled_nil
    | some e => exact spelled_of_isOptional he hts.2.1 e rfl
  | block _ _ _ ih =>
    simp only [allFormed_cons, allFormed_append] at hts
    exact spelled_items ih hts.2.1
  | ifThen _ _ hc _ _ iht =>
    simp only [allFormed_cons, allFormed_append] at hts
    exact Leaf.allSpelled_append.mpr ⟨spelled_of_derives hc hts.2.2.1, iht hts.2.2.2.2⟩
  | ifElse _ _ hc _ _ _ _ iht ihe =>
    simp only [allFormed_cons, allFormed_append] at hts
    obtain ⟨-, -, hcs, -, hthen, -, helse⟩ := hts
    exact Leaf.allSpelled_append.mpr
      ⟨spelled_of_derives hc hcs, Leaf.allSpelled_append.mpr ⟨iht hthen, ihe helse⟩⟩
  | loop _ _ hc _ _ ihb =>
    simp only [allFormed_cons, allFormed_append] at hts
    exact Leaf.allSpelled_append.mpr ⟨spelled_of_derives hc hts.2.2.1, ihb hts.2.2.2.2⟩
  | forLoop _ _ hi hc _ hn _ _ ihb =>
    simp only [allFormed_cons, allFormed_append] at hts
    obtain ⟨-, -, his, hcs, -, hns, -, hbs⟩ := hts
    exact spelled_forLoop (spelled_of_isInitializer hi his) (spelled_of_isOptional hc hcs)
      (spelled_of_isOptional hn hns) (ihb hbs)
  | branch _ ih => exact ih hts
  | varDecl hv => exact spelled_of_isVarDecl hv hts
  | funDecl _ hn _ hsep hparams _ _ _ _ _ ih =>
    simp only [allFormed_cons, allFormed_append] at hts
    obtain ⟨-, hname, -, hps, -, -, hitems, -⟩ := hts
    refine Leaf.allSpelled_cons.mpr
      ⟨hname.name hn, Leaf.allSpelled_append.mpr ⟨fun leaf hleaf => ?_, spelled_items ih hitems⟩⟩
    obtain ⟨param, hparam, rfl⟩ := List.mem_map.mp hleaf
    obtain ⟨t, ht, rfl⟩ := List.mem_map.mp hparam
    have hformed := hsep.allFormed hps [t] (List.mem_map_of_mem ht)
    exact (hformed t List.mem_cons_self).name (hparams t ht)

theorem allFormed_of_tokenize {file source : String} {tokens : List Token}
    (h : Lexer.tokenize file source = .ok tokens) : AllFormed tokens := by
  obtain ⟨body, reached, last, rfl, htiles, hend⟩ := Lexer.tiles_of_tokenize h
  refine allFormed_append.mpr ⟨fun t ht => Or.inr (htiles.readAt t ht).formed, ?_⟩
  exact List.forall_mem_singleton.mpr (Or.inl hend.kind)

end Grammar

/-! ### Sources -/

namespace Program

def leaves (p : Program ρ) : List Leaf := Stmt.leavesAll p.statements

theorem spelled_of_parse {limit : Nat} {file source : String} {tokens : List Token} {p : Program Unit}
    (ht : Lexer.tokenize file source = .ok tokens) (hp : Parser.parse limit tokens = .ok p) :
    AllSpelled p.leaves := by
  have hformed := Grammar.allFormed_of_tokenize ht
  obtain ⟨hitems, -⟩ := Parser.isProgram_of_parse (Lexer.ended_tokenize ht) hp
  exact Grammar.spelled_items (fun i hi => Grammar.spelled_of_isStmt (hitems i hi))
    (Grammar.allFormed_append.mp hformed).1

end Program

end Lox

import Lox.Proofs.Scope.Findings
import Lox.Proofs.Syntax.TokenOrder

/-!
# The order of errors

A point of a program can have one error at most, and some kinds of points have none. The points that can have
one begin with tokens of their own, in the order of the source: what a `for` loop has moved behind its body,
and what an assignment has in front of its target, has no errors. So the errors of a program are found in the
order in which they were written.
-/

namespace Lox

variable {ρ : Type}

/-! ### Points that may be wrong -/

/-- An error can be found at a point of this kind. A name that is read can be wrong in the initializer of a
declaration only. -/
def PointKind.errs : PointKind → Bool
  | .declaration _ | .parameter _ | .reading _ (some _) | .ret _ => true
  | .scope | .reading _ none | .assignment _ => false

namespace Point

/-- Where the points begin at which errors can be found. -/
def errorStarts (points : List Point) : List Position :=
  (points.filter fun point => point.kind.errs).map fun point => point.span.first

theorem errorStarts_append (points more : List Point) :
    errorStarts (points ++ more) = errorStarts points ++ errorStarts more := by
  rw [errorStarts, List.filter_append, List.map_append]
  rfl

/-! ### One error at a point -/

def errorsOf (findings : List Finding) : List Position :=
  (findings.filter Finding.isError).map fun f => f.span.first

theorem errorsOf_append (findings more : List Finding) :
    errorsOf (findings ++ more) = errorsOf findings ++ errorsOf more := by
  rw [errorsOf, List.filter_append, List.map_append]
  rfl

theorem errorsOf_warnings (rules : Resolution.Rules) (past : List Point) (point : Point) :
    errorsOf (point.warnings rules past) = [] := by
  rw [errorsOf, warnings, List.filter_map, List.map_map, List.map_eq_nil_iff, List.filter_eq_nil_iff]
  exact fun _ _ => Bool.false_ne_true

theorem errorsOf_optional (issue : Span → ScopeIssue) (span : Span) (previous : Option Span) :
    (errorsOf (previous.toList.map fun s => ⟨issue s, span⟩)).Sublist [span.first] := by
  cases previous with
  | none => exact List.nil_sublist _
  | some s =>
    rw [errorsOf, Option.toList_some, List.map_singleton, ← List.map_singleton]
    exact List.filter_sublist.map _

theorem errorsOf_findings (rules : Resolution.Rules) (past : List Point) (point : Point) :
    (errorsOf (point.findings rules past)).Sublist (errorStarts [point]) := by
  obtain ⟨kind, span, around⟩ := point
  cases kind with
  | scope => exact List.nil_sublist _
  | declaration name =>
    dsimp only [findings]
    split
    · exact List.nil_sublist _
    · exact errorsOf_optional (.duplicateDeclaration name) span _
  | parameter name => exact errorsOf_optional (fun _ => .duplicateParameter name) span _
  | reading name initializing =>
    rw [findings, errorsOf_append, errorsOf_warnings, List.append_nil]
    split
    · rename_i hself
      obtain ⟨rfl, -⟩ := hself
      exact List.Sublist.refl _
    · exact List.nil_sublist _
  | assignment name =>
    rw [findings, errorsOf_warnings]
    exact List.nil_sublist _
  | ret functions =>
    dsimp only [findings]
    split
    · exact List.Sublist.refl _
    · exact List.nil_sublist _

theorem errorsOf_collect (rules : Resolution.Rules) (past points : List Point) :
    (errorsOf (collect (findings rules) past points)).Sublist (errorStarts points) := by
  induction points generalizing past with
  | nil => exact List.nil_sublist _
  | cons point points ih =>
    have hboth := (errorsOf_findings rules past point).append (ih (past ++ [point]))
    rwa [← errorsOf_append, ← errorStarts_append] at hboth

end Point

namespace Grammar

open Lox.Parser (RawExpr RawStmt)
open Point (errorStarts errorStarts_append)

/-! ### Tokens at which errors can be found -/

def starts (ts : List Token) : List Position := ts.map fun t => t.span.first

/-- The points that can have an error begin with tokens of the list, each with another one, in order. -/
def BeginIn (points : List Point) (ts : List Token) : Prop := (errorStarts points).Sublist (starts ts)

namespace BeginIn

variable {points more : List Point} {ts us : List Token} {point : Point} {t : Token}

theorem append (h : BeginIn points ts) (h' : BeginIn more us) : BeginIn (points ++ more) (ts ++ us) := by
  rw [BeginIn, errorStarts_append, starts, List.map_append]
  exact List.Sublist.append h h'

theorem mono (h : BeginIn points ts) (hts : ts.Sublist us) : BeginIn points us :=
  List.Sublist.trans h (hts.map _)

theorem inner (h : BeginIn points ts) (before behind : List Token) :
    BeginIn points (before ++ (ts ++ behind)) :=
  h.mono ((List.sublist_append_left ts behind).trans (List.sublist_append_right before _))

theorem first (h : BeginIn points ts) (hpoint : point.span.first = t.span.first) :
    BeginIn (point :: points) (t :: ts) := by
  have hstarts : (errorStarts [point]).Sublist (starts [t]) := by
    rw [starts, List.map_singleton, ← hpoint, ← List.map_singleton]
    exact List.filter_sublist.map _
  exact append hstarts h

theorem of_silent (h : ∀ point ∈ points, point.kind.errs = false) (ts : List Token) :
    BeginIn points ts := by
  have hnone : (points.filter fun point => point.kind.errs) = [] :=
    List.filter_eq_nil_iff.mpr fun point hpoint => by rw [h point hpoint]; exact Bool.false_ne_true
  rw [BeginIn, errorStarts, hnone]
  exact List.nil_sublist _

theorem of_silent_append (h : ∀ point ∈ points, point.kind.errs = false) (h' : BeginIn more ts) :
    BeginIn (points ++ more) ts := (of_silent h []).append h'

end BeginIn

theorem Separated.flatten_sublist {separator : TokenKind} {parts : List (List Token)} {ts : List Token}
    (h : Separated separator parts ts) : parts.flatten.Sublist ts := by
  induction h with
  | none => exact List.Sublist.refl _
  | one part => rw [List.flatten_singleton]
  | more _ _ ih => exact (List.Sublist.refl _).append (ih.cons _)

/-! ### Expressions -/

mutual

theorem silent_points (around : List Nat) (e : Expr ρ) :
    ∀ point ∈ e.points around none, point.kind.errs = false := by
  cases e with
  | literal => exact fun _ h => absurd h List.not_mem_nil
  | varRef => exact List.forall_mem_singleton.mpr rfl
  | assign span name ref value =>
    exact List.forall_mem_append.mpr ⟨silent_points around value, List.forall_mem_singleton.mpr rfl⟩
  | unary span op e | group span e => exact silent_points around e
  | binary span op l r | logical span op l r =>
    exact List.forall_mem_append.mpr ⟨silent_points around l, silent_points around r⟩
  | call span f args =>
    exact List.forall_mem_append.mpr ⟨silent_points around f, silent_pointsAll around args⟩

theorem silent_pointsAll (around : List Nat) (es : List (Expr ρ)) :
    ∀ point ∈ Expr.pointsAll around none es, point.kind.errs = false := by
  cases es with
  | nil => exact fun _ h => absurd h List.not_mem_nil
  | cons e es =>
    exact List.forall_mem_append.mpr ⟨silent_points around e, silent_pointsAll around es⟩

end

theorem silent_optionalPoints (around : List Nat) (e : Option (Expr ρ)) :
    ∀ point ∈ Expr.optionalPoints around none e, point.kind.errs = false := by
  cases e with
  | none => exact fun _ h => absurd h List.not_mem_nil
  | some e => exact silent_points around e

theorem beginIn_arguments {around : List Nat} {initializing : Option String}
    {arguments : List (List Token × RawExpr)}
    (h : ∀ a ∈ arguments, BeginIn (a.2.points around initializing) a.1) :
    BeginIn (Expr.pointsAll around initializing (arguments.map Prod.snd))
      (arguments.map Prod.fst).flatten := by
  induction arguments with
  | nil => exact List.Sublist.refl _
  | cons a arguments ih =>
    obtain ⟨ha, hrest⟩ := List.forall_mem_cons.mp h
    exact ha.append (ih hrest)

theorem Derives.beginIn {level : Level} {ts : List Token} {e : RawExpr} (h : Derives level ts e)
    (around : List Nat) (initializing : Option String) :
    BeginIn (e.points around initializing) ts := by
  induction h with
  | literal => exact List.nil_sublist _
  | varRef => exact BeginIn.first (List.nil_sublist _) rfl
  | @group left right ts e _ _ _ ih => exact ih.inner [left] [right]
  | @call fs as f left right arguments _ _ hsep _ _ _ ihf iha =>
    have harguments := (beginIn_arguments iha).mono hsep.flatten_sublist
    exact ihf.append (harguments.inner [left] [right])
  | @unary t op ts e _ _ ih => exact ih.mono (List.sublist_cons_self t ts)
  | @binary level inner ls rs l r t op _ _ _ _ ihl ihr =>
    have hboth := ihl.append (ihr.mono (List.sublist_cons_self t rs))
    cases op <;> exact hboth
  | @assign name equals ts e _ _ _ ih =>
    have htarget : BeginIn [⟨.assignment name.lexeme, spanOf (name :: equals :: ts), around⟩] [] :=
      BeginIn.of_silent (List.forall_mem_singleton.mpr rfl) []
    have hvalue := ih.append htarget
    rw [List.append_nil] at hvalue
    exact hvalue.mono ((List.sublist_cons_self _ _).trans (List.sublist_cons_self _ _))
  | tighter _ _ ih => exact ih

/-! ### Statements -/

/-- Under all scopes around it, the points of the statement begin in the tokens. -/
def StmtBeginsIn (s : RawStmt) (ts : List Token) : Prop :=
  ∀ around functions first, BeginIn (s.points around functions first) ts

theorem beginIn_items {items : List (List Token × RawStmt)}
    (h : ∀ i ∈ items, StmtBeginsIn i.2 i.1) (around : List Nat) (functions first : Nat) :
    BeginIn (Stmt.pointsAll around functions first (items.map Prod.snd))
      (items.map Prod.fst).flatten := by
  induction items generalizing first with
  | nil => exact List.Sublist.refl _
  | cons i items ih =>
    obtain ⟨hi, hrest⟩ := List.forall_mem_cons.mp h
    exact (hi around functions first).append (ih hrest _)

theorem beginIn_paramPoints (around : List Nat) (params : List Token) :
    BeginIn (paramPoints around (params.map fun t => ⟨t.span, t.lexeme⟩)) params := by
  induction params with
  | nil => exact List.Sublist.refl _
  | cons t params ih => exact ih.first rfl

namespace StmtBeginsIn

variable {ts us : List Token} {s : RawStmt}

theorem mono (h : StmtBeginsIn s ts) (hts : ts.Sublist us) : StmtBeginsIn s us :=
  fun around functions first => (h around functions first).mono hts

theorem expression (span : Span) (e : RawExpr) (ts : List Token) :
    StmtBeginsIn (.expression span e) ts :=
  fun around _ _ => BeginIn.of_silent (silent_points around e) ts

theorem loop {b : RawStmt} (h : StmtBeginsIn b ts) (span : Span) (c : RawExpr) :
    StmtBeginsIn (.loop span c b) ts :=
  fun around functions _ => BeginIn.of_silent_append (silent_points around c) (h around functions _)

theorem ifThen {t : RawStmt} (h : StmtBeginsIn t ts) (span : Span) (c : RawExpr) :
    StmtBeginsIn (.conditional span c t none) ts :=
  fun around functions _ => BeginIn.of_silent_append (silent_points around c) (h around functions _)

theorem ifElse {t e : RawStmt} (h : StmtBeginsIn t ts) (h' : StmtBeginsIn e us) (span : Span)
    (c : RawExpr) : StmtBeginsIn (.conditional span c t (some e)) (ts ++ us) :=
  fun around functions _ =>
    (BeginIn.of_silent_append (silent_points around c) (h around functions _)).append
      (h' around functions _)

theorem block {items : List (List Token × RawStmt)} (h : ∀ i ∈ items, StmtBeginsIn i.2 i.1)
    (span : Span) : StmtBeginsIn (.block span (items.map Prod.snd)) (items.map Prod.fst).flatten :=
  fun _ functions _ =>
    BeginIn.of_silent_append (List.forall_mem_singleton.mpr rfl) (beginIn_items h _ functions _)

theorem pair {first second : RawStmt} (h : StmtBeginsIn first ts) (h' : StmtBeginsIn second us)
    (span : Span) : StmtBeginsIn (.block span [first, second]) (ts ++ us) := by
  have hitems : ∀ i ∈ [(ts, first), (us, second)], StmtBeginsIn i.2 i.1 :=
    List.forall_mem_cons.mpr ⟨h, List.forall_mem_singleton.mpr h'⟩
  have hboth := block hitems span
  rwa [show ([(ts, first), (us, second)].map Prod.fst).flatten = ts ++ us by simp] at hboth

theorem funDecl {items : List (List Token × RawStmt)} (h : ∀ i ∈ items, StmtBeginsIn i.2 i.1)
    {span : Span} {keyword : Token} (hspan : span.first = keyword.span.first) (name : String)
    (params : List Token) :
    StmtBeginsIn (.funDecl span name (params.map fun t => ⟨t.span, t.lexeme⟩) (items.map Prod.snd))
      (keyword :: (params ++ (items.map Prod.fst).flatten)) := by
  intro around functions first
  have hparts (inner : List Nat) (start : Nat) :=
    (beginIn_paramPoints inner params).append (beginIn_items h inner (functions + 1) start)
  have hscope : BeginIn [⟨.scope, span, around⟩] [] :=
    BeginIn.of_silent (List.forall_mem_singleton.mpr rfl) []
  exact BeginIn.first (hscope.append (hparts _ _)) hspan

/-- The increment of a `for` loop, which goes behind the body, has no point that can have an error. -/
theorem forLoop {is bs : List Token} {i : Option RawStmt} {b : RawStmt}
    (hi : ∀ s ∈ i, StmtBeginsIn s is) (hb : StmtBeginsIn b bs) (keyword span : Span)
    (c n : Option RawExpr) : StmtBeginsIn (Parser.forLoop keyword span i c n b) (is ++ bs) := by
  have hstep (e : RawExpr) : StmtBeginsIn (.block span [b, .expression e.span e]) bs := by
    have hboth := hb.pair (expression e.span e []) span
    rwa [List.append_nil] at hboth
  cases i with
  | none =>
    have hbehind : bs.Sublist (is ++ bs) := List.sublist_append_right is bs
    cases n with
    | none => exact (hb.loop span _).mono hbehind
    | some e => exact ((hstep e).loop span _).mono hbehind
  | some s =>
    cases n with
    | none => exact (hi s rfl).pair (hb.loop span _) span
    | some e => exact (hi s rfl).pair ((hstep e).loop span _) span

end StmtBeginsIn

theorem IsVarDecl.beginsIn {ts : List Token} {s : RawStmt} (h : IsVarDecl ts s) : StmtBeginsIn s ts := by
  cases h with
  | plain => exact fun around _ _ => BeginIn.first (List.nil_sublist _) rfl
  | @initialized keyword name equals semicolon ts e _ _ _ he _ =>
    exact fun around _ _ => BeginIn.first ((he.beginIn around _).inner [name, equals] [semicolon]) rfl

theorem IsInitializer.beginsIn {ts : List Token} {i : Option RawStmt} (h : IsInitializer ts i) :
    ∀ s ∈ i, StmtBeginsIn s ts := by
  cases h with
  | none => exact nofun
  | declaration h => exact fun s hs => Option.mem_some.mp hs ▸ h.beginsIn
  | expression h =>
    obtain ⟨-, -⟩ := h
    exact fun s hs => Option.mem_some.mp hs ▸ .expression _ _ _

theorem sublist_behind_head (keyword left right : Token) (cs ts : List Token) :
    ts.Sublist (keyword :: left :: (cs ++ right :: ts)) :=
  (((List.sublist_cons_self right ts).trans (List.sublist_append_right cs _)).cons left).cons keyword

theorem IsStmt.beginsIn {place : Place} {ts : List Token} {s : RawStmt} (h : IsStmt place ts s) :
    StmtBeginsIn s ts := by
  induction h with
  | expression h =>
    obtain ⟨-, -⟩ := h
    exact .expression _ _ _
  | @print keyword semicolon ts e _ _ _ =>
    exact fun around _ _ => BeginIn.of_silent (silent_points around e) _
  | @ret keyword semicolon ts e _ _ _ =>
    exact fun around _ _ => BeginIn.first (BeginIn.of_silent (silent_optionalPoints around e) _) rfl
  | @block left right items _ _ _ ih =>
    exact (StmtBeginsIn.block ih _).mono ((List.sublist_append_left _ [right]).cons left)
  | @ifThen keyword left right cs ts c t takesElse _ _ _ _ _ ih =>
    exact (ih.ifThen _ c).mono (sublist_behind_head keyword left right cs ts)
  | @ifElse keyword left right kwElse cs ts es c t e takesElse _ _ _ _ _ _ _ iht ihe =>
    have hbranches := ihe.mono (List.sublist_cons_self kwElse es)
    exact (iht.ifElse hbranches _ c).mono (sublist_behind_head keyword left right cs _)
  | @loop keyword left right cs bs c b takesElse _ _ _ _ _ ih =>
    exact (ih.loop _ c).mono (sublist_behind_head keyword left right cs bs)
  | @forLoop keyword left semicolon right is cs ns bs i c n b takesElse _ _ hi _ _ _ _ _ ih =>
    -- the increment goes behind the body but has no such points
    refine (StmtBeginsIn.forLoop hi.beginsIn ih keyword.span _ c n).mono ?_
    have hbody : bs.Sublist (cs ++ semicolon :: (ns ++ right :: bs)) :=
      (((List.sublist_cons_self right bs).trans (List.sublist_append_right ns _)).cons semicolon).trans
        (List.sublist_append_right cs _)
    exact (((List.Sublist.refl is).append hbody).cons left).cons keyword
  | branch _ ih => exact ih
  | varDecl h => exact h.beginsIn
  | @funDecl keyword name left right leftBrace rightBrace params ps items _ _ _ hps _ _ _ _ _ _ ih =>
    have hsingle : (params.map fun t => [t]).flatten = params := by
      rw [← List.flatMap_def]
      exact List.flatMap_singleton' params
    have hparams : params.Sublist ps := hsingle ▸ hps.flatten_sublist
    refine (StmtBeginsIn.funDecl ih rfl name.lexeme params).mono (List.Sublist.cons_cons keyword ?_)
    have hbody : (items.map Prod.fst).flatten.Sublist
        (right :: leftBrace :: ((items.map Prod.fst).flatten ++ [rightBrace])) :=
      ((List.sublist_append_left _ _).cons leftBrace).cons right
    exact ((hparams.append hbody).cons left).cons name

end Grammar

/-! ### Programs -/

namespace Resolution

open Grammar

variable {limit : Nat}

theorem beginIn_of_parse {tokens : List Token} {p : Program Unit} (hended : Parser.Ended tokens)
    (hp : Parser.parse limit tokens = .ok p) : BeginIn p.points tokens := by
  obtain ⟨hi, -⟩ := Parser.isProgram_of_parse hended hp
  exact (beginIn_items (fun i hmem => (hi i hmem).beginsIn) [] 0 0).mono (List.sublist_append_left _ _)

/-- The errors in the names of an accepted source come in the order in which they were written, and no two
of them begin at the same place. -/
theorem errors_in_order {file source : String} {tokens : List Token} {p : Program Unit}
    (ht : Lexer.tokenize file source = .ok tokens) (hp : Parser.parse limit tokens = .ok p) (config : Config)
    (natives : List String) :
    (((ofProgram config natives p).diagnostics config).filter Diagnostic.isError).Pairwise
      fun d e => d.span.first.offset < e.span.first.offset := by
  let found := p.pointFindings (rulesFor config natives p)
  have hreported : (((ofProgram config natives p).diagnostics config).filter Diagnostic.isError).map
      (fun d => d.span.first) = (Point.errorsOf found).take config.maxErrors.val := by
    rw [diagnostics, reported, findings_ofProgram, List.filter_map, List.map_map, Point.errorsOf,
      ← List.map_take, ← Finding.filter_isError_limitErrors]
    rfl
  have hfound : (Point.errorsOf found).Sublist (starts tokens) :=
    (Point.errorsOf_collect _ [] p.points).trans (beginIn_of_parse (Lexer.ended_tokenize ht) hp)
  have hstarts := (List.take_sublist config.maxErrors.val _).trans hfound
  rw [← hreported] at hstarts
  have hsorted : (starts tokens).Pairwise fun q r => q.offset < r.offset :=
    List.pairwise_map.mpr ((Lexer.sorted_of_tokenize ht).imp And.left)
  have hfirst := hsorted.sublist hstarts
  rw [List.pairwise_map] at hfirst
  exact hfirst

/-- One error of each kind, in the head and the body of a loop, in a function and behind it. -/
theorem errors_in_order_loop :
    let source := "for (var i = i; ; i = i) { var a = (a = a) + a; fun a(b, b) {} var a; } return;"
    let tokens := (Lexer.scan "" source).tokens
    let p := (Parser.parseProgram 500 tokens).program
    let errors := ((ofProgram {} [] p).diagnostics {}).filter Diagnostic.isError
    (Lexer.tokenize "" source = .ok tokens ∧ Parser.parse 500 tokens = .ok p) ∧
      errors.map (fun d => (d.code, d.span.first.offset)) =
        [("E301", 13), ("E301", 40), ("E301", 45), ("E303", 48), ("E304", 57), ("E303", 63), ("E302", 72)] ∧
      errors.Pairwise fun d e => d.span.first.offset < e.span.first.offset := by
  intro source tokens p errors
  have hscan : (Lexer.scan "" source).fault = none := by decide +kernel
  have hfaults : (Parser.parseProgram 500 tokens).faults = [] := by decide +kernel
  have ht := Lexer.tokenize_of_no_fault hscan
  have hp : Parser.parse 500 tokens = .ok p := Parser.parse_eq_ok_iff_faults.mpr ⟨hfaults, rfl⟩
  exact ⟨⟨ht, hp⟩, by decide +kernel, errors_in_order ht hp {} []⟩

end Resolution

end Lox

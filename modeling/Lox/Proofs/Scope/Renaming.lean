import Lox.Proofs.Scope.Erasure
import Lox.Proofs.Scope.Numbering
import Mathlib.Data.List.Nodup

/-!
# Renamed locals

A local variable or parameter gets a new name in its declarations and in the references that are bound to
its scope. Where the new name occurs nowhere else, every reference still means the declaration that it
meant, and what was accepted without redeclarations is accepted.
-/

namespace Lox

variable {ρ τ : Type}

/-! ### Names of a tree -/

def Expr.names (e : Expr ρ) : List String := e.references.map Reference.name

mutual

def Stmt.names : Stmt ρ → List String
  | .expression _ e | .print _ e => e.names
  | .varDecl _ name none => [name]
  | .varDecl _ name (some e) => name :: e.names
  | .block _ body => Stmt.namesAll body
  | .conditional _ c t none => c.names ++ t.names
  | .conditional _ c t (some e) => c.names ++ t.names ++ e.names
  | .loop _ c b => c.names ++ b.names
  | .funDecl _ name params body => name :: (paramNames params ++ Stmt.namesAll body)
  | .ret _ none => []
  | .ret _ (some e) => e.names

def Stmt.namesAll : List (Stmt ρ) → List String
  | [] => []
  | s :: ss => s.names ++ Stmt.namesAll ss

end

def Program.names (p : Program ρ) : List String := Stmt.namesAll p.statements

theorem Expr.names_map (g : ρ → τ) (e : Expr ρ) : (e.map g).names = e.names := by
  rw [Expr.names, Expr.references_map, List.map_map]
  rfl

mutual

theorem Stmt.names_map (g : ρ → τ) (s : Stmt ρ) : (s.map g).names = s.names := by
  cases s with
  | expression span e | print span e => exact Expr.names_map g e
  | varDecl span name e | ret span e =>
    cases e with
    | none => rfl
    | some e => simp only [Stmt.map, Option.map_some, Stmt.names, Expr.names_map]
  | block span body => exact Stmt.namesAll_mapAll g body
  | conditional span c t e =>
    cases e <;> simp only [Stmt.map, Stmt.names, Expr.names_map, Stmt.names_map g]
  | loop span c b => simp only [Stmt.map, Stmt.names, Expr.names_map, Stmt.names_map g b]
  | funDecl span name params body => simp only [Stmt.map, Stmt.names, Stmt.namesAll_mapAll g body]

theorem Stmt.namesAll_mapAll (g : ρ → τ) (ss : List (Stmt ρ)) :
    Stmt.namesAll (Stmt.mapAll g ss) = Stmt.namesAll ss := by
  cases ss with
  | nil => rfl
  | cons s ss => simp only [Stmt.mapAll, Stmt.namesAll, Stmt.names_map g s, Stmt.namesAll_mapAll g ss]

end

theorem Stmt.annotateAll_annotateAll (scopes : List (List String)) (ss : List (Stmt ρ)) :
    Stmt.annotateAll hopsLabel scopes (Stmt.annotateAll hopsLabel scopes ss) =
      Stmt.annotateAll hopsLabel scopes ss := by
  have h := congrArg (Stmt.annotateAll hopsLabel scopes)
    (Stmt.mapAll_const_annotateAll () hopsLabel ss scopes)
  rwa [Stmt.annotateAll_mapAll, Stmt.annotateAll_mapAll] at h

theorem Program.accepted_annotate_iff (redeclare : Bool) (p : Program ρ) :
    p.annotate.Accepted redeclare ↔ p.Accepted redeclare := by
  have h := Stmt.mapAll_const_annotateAll () hopsLabel p.statements []
  unfold Program.Accepted
  rw [← Stmt.acceptedAll_mapAll_iff (fun _ => ()) redeclare [] false p.statements, ← h]
  exact (Stmt.acceptedAll_mapAll_iff _ redeclare [] false _).symm

theorem Program.names_annotate (p : Program ρ) : p.annotate.names = p.names := by
  have h := congrArg Stmt.namesAll (Stmt.mapAll_const_annotateAll () hopsLabel p.statements [])
  rwa [Stmt.namesAll_mapAll, Stmt.namesAll_mapAll] at h

inductive DeclarationKind where
  | variable
  | function
deriving DecidableEq

mutual

/-- The names that a statement declares in the scope around it, of one kind. -/
def Stmt.declaredAs (kind : DeclarationKind) : Stmt ρ → List String
  | .varDecl _ name _ => if kind = .variable then [name] else []
  | .funDecl _ name _ _ => if kind = .function then [name] else []
  | .conditional _ _ t none => t.declaredAs kind
  | .conditional _ _ t (some e) => e.declaredAs kind ++ t.declaredAs kind
  | .loop _ _ b => b.declaredAs kind
  | .expression _ _ | .print _ _ | .block _ _ | .ret _ _ => []

def Stmt.declaredAsAll (kind : DeclarationKind) : List (Stmt ρ) → List String
  | [] => []
  | s :: ss => Stmt.declaredAsAll kind ss ++ s.declaredAs kind

end

/-! ### Renaming -/

def renamed (x y name : String) : String := if name = x then y else name

def Parameter.rename (x y : String) (p : Parameter) : Parameter := ⟨p.span, renamed x y p.name⟩

/-- The name of a reference that many scopes inside the one where `x` is renamed. -/
def renamedRef (x y : String) (depth : Nat) (name : String) (ref : Option Nat) : String :=
  if ref = some depth then renamed x y name else name

/-- The name that is declared that many scopes inside the one where `x` is renamed. -/
def renamedDeclaration (x y : String) (depth : Nat) (name : String) : String :=
  if depth = 0 then renamed x y name else name

mutual

def Expr.renameIn (x y : String) (depth : Nat) : Expr (Option Nat) → Expr (Option Nat)
  | .literal span v => .literal span v
  | .varRef span name ref => .varRef span (renamedRef x y depth name ref) ref
  | .assign span name ref value =>
    .assign span (renamedRef x y depth name ref) ref (value.renameIn x y depth)
  | .unary span op operand => .unary span op (operand.renameIn x y depth)
  | .binary span op left right =>
    .binary span op (left.renameIn x y depth) (right.renameIn x y depth)
  | .logical span op left right =>
    .logical span op (left.renameIn x y depth) (right.renameIn x y depth)
  | .call span callee arguments =>
    .call span (callee.renameIn x y depth) (Expr.renameAllIn x y depth arguments)
  | .group span inner => .group span (inner.renameIn x y depth)

def Expr.renameAllIn (x y : String) (depth : Nat) : List (Expr (Option Nat)) → List (Expr (Option Nat))
  | [] => []
  | e :: es => e.renameIn x y depth :: Expr.renameAllIn x y depth es

end

mutual

/-- Renames the variable `x` of the scope that many scopes out. Functions keep their names. -/
def Stmt.renameIn (x y : String) (depth : Nat) : Stmt (Option Nat) → Stmt (Option Nat)
  | .expression span e => .expression span (e.renameIn x y depth)
  | .print span e => .print span (e.renameIn x y depth)
  | .varDecl span name e =>
    .varDecl span (renamedDeclaration x y depth name) (e.map fun e => e.renameIn x y depth)
  | .block span body => .block span (Stmt.renameAllIn x y (depth + 1) body)
  | .conditional span c t none =>
    .conditional span (c.renameIn x y depth) (t.renameIn x y depth) none
  | .conditional span c t (some e) =>
    .conditional span (c.renameIn x y depth) (t.renameIn x y depth) (some (e.renameIn x y depth))
  | .loop span c b => .loop span (c.renameIn x y depth) (b.renameIn x y depth)
  | .funDecl span name params body =>
    .funDecl span name params (Stmt.renameAllIn x y (depth + 1) body)
  | .ret span e => .ret span (e.map fun e => e.renameIn x y depth)

def Stmt.renameAllIn (x y : String) (depth : Nat) : List (Stmt (Option Nat)) → List (Stmt (Option Nat))
  | [] => []
  | s :: ss => s.renameIn x y depth :: Stmt.renameAllIn x y depth ss

end

mutual

/-- The second statement is the first one with a variable or parameter `x` of one of its scopes, the scope
of a block or of a function, renamed to `y`: the declaration, and the references bound to that scope under
the name `x`. -/
inductive Stmt.RenamesLocal (x y : String) : Stmt (Option Nat) → Stmt (Option Nat) → Prop where
  | ofBlock {span : Span} {body : List (Stmt (Option Nat))} :
    x ∈ Stmt.declaredAsAll .variable body →
      RenamesLocal x y (.block span body) (.block span (Stmt.renameAllIn x y 0 body))
  | ofFunction {span : Span} {name : String} {params : List Parameter}
    {body : List (Stmt (Option Nat))} :
    x ∈ Stmt.declaredAsAll .variable body ++ paramNames params →
      RenamesLocal x y (.funDecl span name params body)
        (.funDecl span name (params.map (Parameter.rename x y)) (Stmt.renameAllIn x y 0 body))
  | inBlock {span : Span} {body body' : List (Stmt (Option Nat))} :
    RenamesLocalAll x y body body' → RenamesLocal x y (.block span body) (.block span body')
  | inThen {span : Span} {c : Expr (Option Nat)} {t t' : Stmt (Option Nat)}
    {e : Option (Stmt (Option Nat))} :
    RenamesLocal x y t t' → RenamesLocal x y (.conditional span c t e) (.conditional span c t' e)
  | inElse {span : Span} {c : Expr (Option Nat)} {t e e' : Stmt (Option Nat)} :
    RenamesLocal x y e e' →
      RenamesLocal x y (.conditional span c t (some e)) (.conditional span c t (some e'))
  | inLoop {span : Span} {c : Expr (Option Nat)} {b b' : Stmt (Option Nat)} :
    RenamesLocal x y b b' → RenamesLocal x y (.loop span c b) (.loop span c b')
  | inFunction {span : Span} {name : String} {params : List Parameter}
    {body body' : List (Stmt (Option Nat))} :
    RenamesLocalAll x y body body' →
      RenamesLocal x y (.funDecl span name params body) (.funDecl span name params body')

inductive Stmt.RenamesLocalAll (x y : String) :
    List (Stmt (Option Nat)) → List (Stmt (Option Nat)) → Prop where
  | head {s s' : Stmt (Option Nat)} {ss : List (Stmt (Option Nat))} :
    Stmt.RenamesLocal x y s s' → RenamesLocalAll x y (s :: ss) (s' :: ss)
  | tail {s : Stmt (Option Nat)} {ss ss' : List (Stmt (Option Nat))} :
    RenamesLocalAll x y ss ss' → RenamesLocalAll x y (s :: ss) (s :: ss')

end

/-- The second program is the first one with one of its local variables or parameters renamed. -/
def Program.RenamesLocal (x y : String) (p q : Program (Option Nat)) : Prop :=
  q.span = p.span ∧ Stmt.RenamesLocalAll x y p.statements q.statements

/-! ### One name -/

variable {x y : String}

theorem renamed_inj {a b : String} (ha : a ≠ y) (hb : b ≠ y) : renamed x y a = renamed x y b ↔ a = b := by
  unfold renamed
  split <;> split <;> simp_all [eq_comm]

theorem mem_map_renamed {name : String} {names : List String} (hn : name ≠ y) (hy : y ∉ names) :
    renamed x y name ∈ names.map (renamed x y) ↔ name ∈ names := by
  refine List.mem_map.trans ⟨fun h => ?_, fun h => ⟨name, h, rfl⟩⟩
  obtain ⟨a, ha, heq⟩ := h
  rwa [← (renamed_inj (ne_of_mem_of_not_mem ha hy) hn).mp heq]

theorem nodup_map_renamed {names : List String} (hn : names.Nodup) (hy : y ∉ names) :
    (names.map (renamed x y)).Nodup := by
  refine List.Nodup.map_on (fun a ha b hb h => ?_) hn
  exact (renamed_inj (ne_of_mem_of_not_mem ha hy) (ne_of_mem_of_not_mem hb hy)).mp h

theorem paramNames_map_rename (params : List Parameter) :
    paramNames (params.map (Parameter.rename x y)) = (paramNames params).map (renamed x y) := by
  rw [paramNames, paramNames, List.map_reverse, List.map_map, List.map_map]
  rfl

/-! ### Scopes -/

/-- The scopes with `x` renamed in the one that many scopes out. -/
def renameScope (x y : String) (depth : Nat) (scopes : List (List String)) : List (List String) :=
  scopes.modify depth (List.map (renamed x y))

/-- The names declared that many scopes inside the one where `x` is renamed. -/
def renamedNames (x y : String) (depth : Nat) (names : List String) : List String :=
  names.map (renamedDeclaration x y depth)

@[simp] theorem renameScope_nil (depth : Nat) : renameScope x y depth [] = [] := by
  simp [renameScope]

@[simp] theorem renameScope_zero (names : List String) (scopes : List (List String)) :
    renameScope x y 0 (names :: scopes) = names.map (renamed x y) :: scopes := rfl

@[simp] theorem renameScope_succ (depth : Nat) (names : List String) (scopes : List (List String)) :
    renameScope x y (depth + 1) (names :: scopes) = names :: renameScope x y depth scopes := rfl

@[simp] theorem renamedNames_zero (names : List String) :
    renamedNames x y 0 names = names.map (renamed x y) := rfl

@[simp] theorem renamedNames_succ (depth : Nat) (names : List String) :
    renamedNames x y (depth + 1) names = names :=
  List.map_id names

theorem extendScope_renamedNames (depth : Nat) (names : List String) (scopes : List (List String)) :
    extendScope (renamedNames x y depth names) (renameScope x y depth scopes) =
      renameScope x y depth (extendScope names scopes) := by
  cases scopes with
  | nil => simp
  | cons held scopes =>
    cases depth with
    | zero => simp
    | succ depth => simp

theorem hopsIn_renameScope {name : String} (hn : name ≠ y) {scopes : List (List String)}
    (hy : ∀ names ∈ scopes, y ∉ names) (depth : Nat) :
    hopsIn (renamedRef x y depth name (hopsIn name scopes)) (renameScope x y depth scopes) =
      hopsIn name scopes := by
  unfold renamedRef
  -- Scope by scope: the renaming is in the innermost one or further out.
  induction scopes generalizing depth with
  | nil => simp [hopsIn_nil]
  | cons held scopes ih =>
    obtain ⟨hheld, hrest⟩ := List.forall_mem_cons.mp hy
    by_cases hmem : name ∈ held
    · rw [hopsIn_cons_of_mem hmem]
      cases depth with
      | zero => rw [if_pos rfl, renameScope_zero, hopsIn_cons_of_mem ((mem_map_renamed hn hheld).mpr hmem)]
      | succ depth => simp [hopsIn_cons_of_mem hmem]
    · rw [hopsIn_cons_of_not_mem hmem]
      cases depth with
      | zero =>
        have hnot : name ∉ held.map (renamed x y) := by
          intro h
          obtain ⟨a, ha, heq⟩ := List.mem_map.mp h
          unfold renamed at heq
          split at heq
          · exact hn heq.symm
          · exact hmem (heq ▸ ha)
        rw [if_neg (by simp), renameScope_zero, hopsIn_cons_of_not_mem hnot]
      | succ depth =>
        have hiff : (hopsIn name scopes).map (· + 1) = some (depth + 1) ↔
            hopsIn name scopes = some depth := by simp
        have hnot : (if hopsIn name scopes = some depth then renamed x y name else name) ∉ held := by
          unfold renamed
          split
          · split
            · exact hheld
            · exact hmem
          · exact hmem
        simp only [hiff]
        rw [renameScope_succ, hopsIn_cons_of_not_mem hnot, ih hrest]

/-! ### Labels -/

def Unheld (y : String) (scopes : List (List String)) : Prop := ∀ names ∈ scopes, y ∉ names

theorem unheld_nil (y : String) : Unheld y [] := fun _ h => nomatch h

theorem Unheld.cons {names : List String} {scopes : List (List String)} (h : Unheld y scopes)
    (hn : y ∉ names) : Unheld y (names :: scopes) :=
  List.forall_mem_cons.mpr ⟨hn, h⟩

theorem Unheld.extendScope {names : List String} {scopes : List (List String)} (h : Unheld y scopes)
    (hn : y ∉ names) : Unheld y (extendScope names scopes) := by
  cases scopes with
  | nil => exact h
  | cons held scopes =>
    obtain ⟨hheld, hrest⟩ := List.forall_mem_cons.mp h
    refine Unheld.cons hrest fun hmem => ?_
    exact (List.mem_append.mp hmem).elim hn hheld

mutual

theorem Expr.annotate_renameIn (e : Expr (Option Nat)) {scopes : List (List String)} (depth : Nat)
    (hy : Unheld y scopes) (hn : y ∉ e.names) (he : e.annotate hopsLabel scopes = e) :
    (e.renameIn x y depth).annotate hopsLabel (renameScope x y depth scopes) =
      e.renameIn x y depth := by
  cases e with
  | literal span v => rfl
  | varRef span name ref =>
    have hname : name ≠ y := fun h => hn (List.mem_singleton.mpr h.symm)
    injection he with _ _ hlabel
    have hops := @hopsIn_renameScope x y name hname scopes hy depth
    rw [show hopsIn name scopes = ref from hlabel] at hops
    simp only [Expr.renameIn, Expr.annotate, hopsLabel, hops]
  | assign span name ref value =>
    obtain ⟨hname, hvalue⟩ := not_or.mp (mt List.mem_cons.mpr hn)
    injection he with _ _ hlabel hrest
    have hops := @hopsIn_renameScope x y name (Ne.symm hname) scopes hy depth
    rw [show hopsIn name scopes = ref from hlabel] at hops
    simp only [Expr.renameIn, Expr.annotate, hopsLabel, hops,
      Expr.annotate_renameIn value depth hy hvalue hrest]
  | unary span op operand =>
    injection he with _ _ hoperand
    simp only [Expr.renameIn, Expr.annotate, Expr.annotate_renameIn operand depth hy hn hoperand]
  | binary span op left right | logical span op left right =>
    simp only [Expr.names, Expr.references, List.map_append, List.mem_append, not_or] at hn
    injection he with _ _ hleft hright
    simp only [Expr.renameIn, Expr.annotate, Expr.annotate_renameIn left depth hy hn.1 hleft,
      Expr.annotate_renameIn right depth hy hn.2 hright]
  | call span callee arguments =>
    simp only [Expr.names, Expr.references, List.map_append, List.mem_append, not_or] at hn
    injection he with _ hcallee harguments
    simp only [Expr.renameIn, Expr.annotate, Expr.annotate_renameIn callee depth hy hn.1 hcallee,
      Expr.annotateAll_renameAllIn arguments depth hy hn.2 harguments]
  | group span inner =>
    injection he with _ hinner
    simp only [Expr.renameIn, Expr.annotate, Expr.annotate_renameIn inner depth hy hn hinner]

theorem Expr.annotateAll_renameAllIn (es : List (Expr (Option Nat))) {scopes : List (List String)}
    (depth : Nat) (hy : Unheld y scopes) (hn : y ∉ (Expr.referencesAll es).map Reference.name)
    (hes : Expr.annotateAll hopsLabel scopes es = es) :
    Expr.annotateAll hopsLabel (renameScope x y depth scopes) (Expr.renameAllIn x y depth es) =
      Expr.renameAllIn x y depth es := by
  cases es with
  | nil => rfl
  | cons e es =>
    simp only [Expr.referencesAll, List.map_append, List.mem_append, not_or] at hn
    injection hes with he hes
    simp only [Expr.renameAllIn, Expr.annotateAll, Expr.annotate_renameIn e depth hy hn.1 he,
      Expr.annotateAll_renameAllIn es depth hy hn.2 hes]

end

theorem Expr.map_annotate_renameIn {e : Option (Expr (Option Nat))} {scopes : List (List String)}
    (depth : Nat) (hy : Unheld y scopes) (hn : ∀ e', e = some e' → y ∉ e'.names)
    (he : e.map (·.annotate hopsLabel scopes) = e) :
    (e.map (·.renameIn x y depth)).map (·.annotate hopsLabel (renameScope x y depth scopes)) =
      e.map (·.renameIn x y depth) := by
  cases e with
  | none => rfl
  | some e =>
    injection he with he
    exact congrArg some (Expr.annotate_renameIn e depth hy (hn e rfl) he)

/-! ### References -/

def Reference.renameIn (x y : String) (depth : Nat) (r : Reference (Option Nat)) :
    Reference (Option Nat) :=
  { r with name := renamedRef x y depth r.name r.ref }

mutual

theorem Expr.references_renameIn (x y : String) (depth : Nat) (e : Expr (Option Nat)) :
    (e.renameIn x y depth).references = e.references.map (Reference.renameIn x y depth) := by
  cases e with
  | literal span v => rfl
  | varRef span name ref => rfl
  | assign span name ref value => exact congrArg (List.cons _) (Expr.references_renameIn x y depth value)
  | unary span op operand => exact Expr.references_renameIn x y depth operand
  | binary span op left right | logical span op left right =>
    simp only [Expr.renameIn, Expr.references, List.map_append, Expr.references_renameIn x y depth left,
      Expr.references_renameIn x y depth right]
  | call span callee arguments =>
    simp only [Expr.renameIn, Expr.references, List.map_append,
      Expr.references_renameIn x y depth callee, Expr.referencesAll_renameAllIn x y depth arguments]
  | group span inner => exact Expr.references_renameIn x y depth inner

theorem Expr.referencesAll_renameAllIn (x y : String) (depth : Nat) (es : List (Expr (Option Nat))) :
    Expr.referencesAll (Expr.renameAllIn x y depth es) =
      (Expr.referencesAll es).map (Reference.renameIn x y depth) := by
  cases es with
  | nil => rfl
  | cons e es =>
    simp only [Expr.renameAllIn, Expr.referencesAll, List.map_append,
      Expr.references_renameIn x y depth e, Expr.referencesAll_renameAllIn x y depth es]

end

end Lox

import Lox.Proofs.Scope.Lexical
import Lox.Proofs.Syntax.Grammar

/-!
# Where declarations stand

The grammar has declarations in blocks, in the bodies of functions and at top level only, so a statement
that is a branch or the body of a loop declares nothing where it stands. Running it again and again then
leaves the names of the scope around it alone.
-/

namespace Lox

variable {ρ : Type}

mutual

/-- The branches and the bodies of loops within a statement declare nothing. -/
def Stmt.Placed : Stmt ρ → Prop
  | .block _ body | .funDecl _ _ _ body => Stmt.PlacedAll body
  | .conditional _ _ t none => t.declares = [] ∧ t.Placed
  | .conditional _ _ t (some e) => (t.declares = [] ∧ t.Placed) ∧ e.declares = [] ∧ e.Placed
  | .loop _ _ b => b.declares = [] ∧ b.Placed
  | .expression _ _ | .print _ _ | .varDecl _ _ _ | .ret _ _ => True

def Stmt.PlacedAll : List (Stmt ρ) → Prop
  | [] => True
  | s :: ss => s.Placed ∧ Stmt.PlacedAll ss

end

theorem placedAll_of_forall {ss : List (Stmt ρ)} (h : ∀ s ∈ ss, s.Placed) : Stmt.PlacedAll ss := by
  induction ss with
  | nil => trivial
  | cons s ss ih => exact ⟨h s List.mem_cons_self, ih fun t ht => h t (List.mem_cons_of_mem s ht)⟩

theorem Stmt.Placed.declares_eq_nil {s : Stmt ρ} (h : s.Placed) (hs : s.declared? = none) :
    s.declares = [] := by
  cases s with
  | varDecl => cases hs
  | funDecl => cases hs
  | conditional span c t e =>
    cases e with
    | none => exact h.1
    | some e =>
      obtain ⟨⟨ht, -⟩, he, -⟩ := h
      simp only [declares, ht, he, List.append_nil]
  | loop span c b => exact h.1
  | expression | print | block | ret => rfl

theorem Stmt.Placed.extendScope_declares {s : Stmt ρ} (h : s.Placed) (hs : s.declared? = none)
    (scopes : List (List String)) : extendScope s.declares scopes = scopes := by
  rw [h.declares_eq_nil hs, extendScope_nothing]

def Program.Placed (p : Program ρ) : Prop := Stmt.PlacedAll p.statements

namespace Grammar

open Lox.Parser (RawExpr RawStmt)

theorem placed_of_isVarDecl {ts : List Token} {s : RawStmt} (h : IsVarDecl ts s) : s.Placed := by
  cases h with
  | plain => trivial
  | initialized => trivial

theorem placed_of_isExprStmt {ts : List Token} {s : RawStmt} (h : IsExprStmt ts s) :
    s.declares = [] ∧ s.Placed := by
  obtain ⟨-, -⟩ := h
  exact ⟨rfl, trivial⟩

theorem placed_of_isInitializer {ts : List Token} {i : Option RawStmt} (h : IsInitializer ts i) :
    ∀ s, i = some s → s.Placed := by
  intro s hi
  cases h with
  | none => cases hi
  | declaration hv =>
    cases hi
    exact placed_of_isVarDecl hv
  | expression he =>
    cases hi
    exact (placed_of_isExprStmt he).2

theorem placed_forLoop {keyword span : Span} {i : Option RawStmt} {c n : Option RawExpr} {b : RawStmt}
    (hi : ∀ s, i = some s → s.Placed) (hb : b.declares = [] ∧ b.Placed) :
    (Parser.forLoop keyword span i c n b).declares = [] ∧ (Parser.forLoop keyword span i c n b).Placed := by
  cases n with
  | none =>
    cases i with
    | none => exact ⟨hb.1, hb⟩
    | some s => exact ⟨rfl, hi s rfl, hb, trivial⟩
  | some e =>
    have hstep : (Stmt.block span [b, .expression e.span e]).declares = [] ∧
        (Stmt.block span [b, .expression e.span e]).Placed := ⟨rfl, hb.2, trivial, trivial⟩
    cases i with
    | none => exact ⟨rfl, hstep⟩
    | some s => exact ⟨rfl, hi s rfl, hstep, trivial⟩

theorem placed_items {items : List (List Token × RawStmt)} (h : ∀ i ∈ items, i.2.Placed) :
    Stmt.PlacedAll (items.map Prod.snd) := by
  apply placedAll_of_forall
  intro s hs
  obtain ⟨i, hi, rfl⟩ := List.mem_map.mp hs
  exact h i hi

theorem placed_of_isStmt {place : Place} {ts : List Token} {s : RawStmt} (h : IsStmt place ts s) :
    (∀ takesElse, place = .branch takesElse → s.declares = []) ∧ s.Placed := by
  induction h with
  | expression he =>
    obtain ⟨hd, hp⟩ := placed_of_isExprStmt he
    exact ⟨fun _ _ => hd, hp⟩
  | print => exact ⟨fun _ _ => rfl, trivial⟩
  | ret => exact ⟨fun _ _ => rfl, trivial⟩
  | block _ _ _ ih => exact ⟨fun _ _ => rfl, placed_items fun i hi => (ih i hi).2⟩
  | ifThen _ _ _ _ _ ih =>
    have ht := ih.1 _ rfl
    exact ⟨fun _ _ => ht, ht, ih.2⟩
  | ifElse _ _ _ _ _ _ _ iht ihe =>
    have ht := iht.1 _ rfl
    have he := ihe.1 _ rfl
    refine ⟨fun _ _ => ?_, ⟨ht, iht.2⟩, he, ihe.2⟩
    simp only [Stmt.declares, ht, he, List.append_nil]
  | loop _ _ _ _ _ ih =>
    have hb := ih.1 _ rfl
    exact ⟨fun _ _ => hb, hb, ih.2⟩
  | forLoop _ _ hi _ _ _ _ _ ih =>
    obtain ⟨hd, hp⟩ := placed_forLoop (placed_of_isInitializer hi) ⟨ih.1 _ rfl, ih.2⟩
    exact ⟨fun _ _ => hd, hp⟩
  | branch _ ih =>
    refine ⟨fun _ he => ?_, ih.2⟩
    cases he
  | varDecl hv =>
    refine ⟨fun _ he => ?_, placed_of_isVarDecl hv⟩
    cases he
  | funDecl _ _ _ _ _ _ _ _ _ _ ih =>
    refine ⟨fun _ he => ?_, placed_items fun i hi => (ih i hi).2⟩
    cases he

theorem placed_of_isProgram {tokens : List Token} {p : Program Unit} (h : IsProgram tokens p) :
    p.Placed := by
  obtain ⟨hitems, -⟩ := h
  exact placed_items fun i hi => (placed_of_isStmt (hitems i hi)).2

end Grammar

end Lox

import Lox.Proofs.Scope.Bindings
import Lox.Proofs.Syntax.Nodes

/-!
# Where statements stand

Every statement in a tree stands in some scopes: those around the tree, those that the tree opens around
it, and in them the names declared ahead of it. In a resolved program each statement is the one that was
written, labelled in the scopes that it stands in.
-/

namespace Lox

variable {ρ τ : Type}

mutual

/-- The statements in a statement, in the order of its nodes, with the scopes that they stand in. -/
def Stmt.standing (scopes : List (List String)) : Stmt ρ → List (List (List String) × Stmt ρ)
  | .expression span e => [(scopes, .expression span e)]
  | .print span e => [(scopes, .print span e)]
  | .varDecl span name e => [(scopes, .varDecl span name e)]
  | .ret span e => [(scopes, .ret span e)]
  | .block span body => (scopes, .block span body) :: Stmt.standingAll ([] :: scopes) body
  | .conditional span c t none => (scopes, .conditional span c t none) :: t.standing scopes
  | .conditional span c t (some e) =>
    (scopes, .conditional span c t (some e)) ::
      (t.standing scopes ++ e.standing (extendScope t.declares scopes))
  | .loop span c b => (scopes, .loop span c b) :: b.standing scopes
  | .funDecl span name params body =>
    (scopes, .funDecl span name params body) ::
      Stmt.standingAll (paramNames params :: extendScope [name] scopes) body

def Stmt.standingAll (scopes : List (List String)) :
    List (Stmt ρ) → List (List (List String) × Stmt ρ)
  | [] => []
  | s :: ss => s.standing scopes ++ Stmt.standingAll (extendScope s.declares scopes) ss

end

def Program.standing (p : Program ρ) : List (List (List String) × Stmt ρ) :=
  Stmt.standingAll [] p.statements

mutual

theorem Stmt.map_snd_standing (s : Stmt ρ) (scopes : List (List String)) :
    (s.standing scopes).map Prod.snd = s.nodes := by
  cases s with
  | expression | print | varDecl | ret => rfl
  | block span body => exact congrArg (_ :: ·) (Stmt.map_snd_standingAll body _)
  | conditional span c t e =>
    cases e with
    | none => exact congrArg (_ :: ·) (Stmt.map_snd_standing t scopes)
    | some e =>
      simp only [Stmt.standing, Stmt.nodes, List.map_cons, List.map_append,
        Stmt.map_snd_standing t, Stmt.map_snd_standing e]
  | loop span c b => exact congrArg (_ :: ·) (Stmt.map_snd_standing b scopes)
  | funDecl span name params body => exact congrArg (_ :: ·) (Stmt.map_snd_standingAll body _)

theorem Stmt.map_snd_standingAll (ss : List (Stmt ρ)) (scopes : List (List String)) :
    (Stmt.standingAll scopes ss).map Prod.snd = Stmt.nodesAll ss := by
  cases ss with
  | nil => rfl
  | cons s ss =>
    simp only [Stmt.standingAll, Stmt.nodesAll, List.map_append, Stmt.map_snd_standing s,
      Stmt.map_snd_standingAll ss]

end

theorem Program.map_snd_standing (p : Program ρ) : p.standing.map Prod.snd = p.nodes :=
  Stmt.map_snd_standingAll p.statements []

mutual

theorem Stmt.nodes_annotate (f : ρ → Option Nat → τ) (s : Stmt ρ) (scopes : List (List String)) :
    (s.annotate f scopes).nodes = (s.standing scopes).map fun t => t.2.annotate f t.1 := by
  cases s with
  | expression | print | varDecl | ret => rfl
  | block span body => exact congrArg (_ :: ·) (Stmt.nodesAll_annotateAll f body _)
  | conditional span c t e =>
    cases e with
    | none => exact congrArg (_ :: ·) (Stmt.nodes_annotate f t scopes)
    | some e =>
      simp only [Stmt.annotate, Stmt.standing, Stmt.nodes, List.map_cons, List.map_append,
        Stmt.nodes_annotate f t, Stmt.nodes_annotate f e]
  | loop span c b => exact congrArg (_ :: ·) (Stmt.nodes_annotate f b scopes)
  | funDecl span name params body => exact congrArg (_ :: ·) (Stmt.nodesAll_annotateAll f body _)

theorem Stmt.nodesAll_annotateAll (f : ρ → Option Nat → τ) (ss : List (Stmt ρ))
    (scopes : List (List String)) :
    Stmt.nodesAll (Stmt.annotateAll f scopes ss) =
      (Stmt.standingAll scopes ss).map fun t => t.2.annotate f t.1 := by
  cases ss with
  | nil => rfl
  | cons s ss =>
    simp only [Stmt.annotateAll, Stmt.standingAll, Stmt.nodesAll, List.map_append,
      Stmt.nodes_annotate f s, Stmt.nodesAll_annotateAll f ss]

end

/-- In a resolved program every statement is labelled in the scopes that it stands in. -/
theorem Resolution.nodes_ofProgram (config : Config) (natives : List String) (p : Program Unit) :
    (ofProgram config natives p).program.nodes =
      p.standing.map fun t => t.2.annotate hopsLabel t.1 := by
  rw [program_ofProgram]
  exact Stmt.nodesAll_annotateAll hopsLabel p.statements []

end Lox

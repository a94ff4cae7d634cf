import Lox.Proofs.Matching.Sessions
import Lox.Proofs.Syntax.Placement

/-!
# Blocks around single statements

A block around one statement that declares nothing where it stands adds a scope that holds nothing when
the program is resolved, and a frame that holds nothing when it runs. At every reference the two cancel
out, in functions too that the statement declares and that are called when the block is left. So the
program with the block is accepted like the program without it, and does the same.
-/

namespace Lox

variable {ρ : Type}

/-! ### Wrapped statements -/

mutual

/-- One statement that is not a declaration stands in a block of its own in the second tree. -/
inductive Stmt.Wraps : Stmt ρ → Stmt ρ → Prop where
  | here (span : Span) {s : Stmt ρ} (hs : s.declared? = none) : Wraps s (.block span [s])
  | inBlock {span : Span} {body body' : List (Stmt ρ)} :
    Stmt.WrapsAll body body' → Wraps (.block span body) (.block span body')
  | inThen {span : Span} {c : Expr ρ} {t t' : Stmt ρ} {e : Option (Stmt ρ)} :
    Wraps t t' → Wraps (.conditional span c t e) (.conditional span c t' e)
  | inElse {span : Span} {c : Expr ρ} {t e e' : Stmt ρ} :
    Wraps e e' → Wraps (.conditional span c t (some e)) (.conditional span c t (some e'))
  | inLoop {span : Span} {c : Expr ρ} {b b' : Stmt ρ} :
    Wraps b b' → Wraps (.loop span c b) (.loop span c b')
  | inFunction {span : Span} {name : String} {params : List Parameter} {body body' : List (Stmt ρ)} :
    Stmt.WrapsAll body body' → Wraps (.funDecl span name params body) (.funDecl span name params body')

inductive Stmt.WrapsAll : List (Stmt ρ) → List (Stmt ρ) → Prop where
  | head {s s' : Stmt ρ} {ss : List (Stmt ρ)} : Stmt.Wraps s s' → WrapsAll (s :: ss) (s' :: ss)
  | tail {s : Stmt ρ} {ss ss' : List (Stmt ρ)} : WrapsAll ss ss' → WrapsAll (s :: ss) (s :: ss')

end

def Program.Wraps (p q : Program ρ) : Prop :=
  q.span = p.span ∧ Stmt.WrapsAll p.statements q.statements

theorem Stmt.Wraps.declares {s s' : Stmt ρ} (h : s.Wraps s') (hp : s.Placed) :
    s'.declares = s.declares := by
  cases s with
  | conditional span c t e =>
    cases h with
    | here _ hs => exact (hp.declares_eq_nil hs).symm
    | inThen ht =>
      cases e with
      | none => exact ht.declares hp.2
      | some e => simp only [Stmt.declares, ht.declares hp.1.2]
    | inElse he => simp only [Stmt.declares, he.declares hp.2.2]
  | loop span c b =>
    cases h with
    | here _ hs => exact (hp.declares_eq_nil hs).symm
    | inLoop hb => exact hb.declares hp.2
  | _ =>
    cases h with
    | here _ hs => exact (hp.declares_eq_nil hs).symm
    | _ => rfl

/-! ### Acceptance -/

namespace Matching

mutual

theorem accepted_wraps {redeclare inFunction : Bool} {s s' : Stmt ρ} {scopes : List (List String)}
    (h : s.Wraps s') (hp : s.Placed) (ha : s.Accepted redeclare scopes inFunction) :
    s'.Accepted redeclare scopes inFunction := by
  cases h with
  | here span hs =>
    have hdeclares : s.declares = [] := hp.declares_eq_nil hs
    have hinner := (scopesMatch_same scopes).extra
    exact ⟨hinner.accepted s (fun hne => absurd hdeclares hne) ha, trivial⟩
  | inBlock hb =>
    simp only [Stmt.Accepted] at ha ⊢
    exact acceptedAll_wraps hb hp ha
  | @inThen _ _ t t' e ht =>
    cases e with
    | none =>
      simp only [Stmt.Accepted] at ha ⊢
      exact accepted_wraps ht hp.2 ha
    | some e =>
      simp only [Stmt.Accepted, ht.declares hp.1.2] at ha ⊢
      exact ⟨accepted_wraps ht hp.1.2 ha.1, ha.2⟩
  | inElse he =>
    simp only [Stmt.Accepted] at ha ⊢
    exact ⟨ha.1, accepted_wraps he hp.2.2 ha.2⟩
  | inLoop hb =>
    simp only [Stmt.Accepted] at ha ⊢
    exact accepted_wraps hb hp.2 ha
  | inFunction hb =>
    simp only [Stmt.Accepted] at ha ⊢
    exact ⟨ha.1, ha.2.1, acceptedAll_wraps hb hp ha.2.2⟩

theorem acceptedAll_wraps {redeclare inFunction : Bool} {ss ss' : List (Stmt ρ)}
    {scopes : List (List String)} (h : Stmt.WrapsAll ss ss') (hp : Stmt.PlacedAll ss)
    (ha : Stmt.AcceptedAll redeclare scopes inFunction ss) :
    Stmt.AcceptedAll redeclare scopes inFunction ss' := by
  cases h with
  | head hs => exact ⟨accepted_wraps hs hp.1 ha.1, hs.declares hp.1 ▸ ha.2⟩
  | tail hss => exact ⟨ha.1, acceptedAll_wraps hss hp.2 ha.2⟩

end

/-! ### Labelled trees -/

mutual

theorem stmtMatches_wraps {s s' : Stmt ρ} (scopes : List (List String)) (h : s.Wraps s') (hp : s.Placed) :
    StmtMatches True (sameSteps scopes.length) (s.annotate hopsLabel scopes)
      (s'.annotate hopsLabel scopes) := by
  cases h with
  | here span hs =>
    have hdeclares : s.declares = [] := hp.declares_eq_nil hs
    have hinner := @stmtMatches_annotate _ True id s _ _ _ (scopesMatch_same scopes).extra
      fun hne => absurd hdeclares hne
    rw [Stmt.mapSpan_id] at hinner
    exact .wrapped trivial hinner
  | inBlock h => exact .block (Equiv.refl String) (stmtsMatch_wraps ([] :: scopes) h hp)
  | @inThen _ c t t' e ht =>
    have hc := exprMatches_same c scopes
    cases e with
    | none => exact .ifThen hc (stmtMatches_wraps scopes ht hp.2)
    | some e =>
      have he := @stmtMatches_same _ True e (extendScope t.declares scopes)
      rw [length_extendScope] at he
      simp only [Stmt.annotate, ht.declares hp.1.2]
      exact .ifElse hc (stmtMatches_wraps scopes ht hp.1.2) he
  | @inElse _ c t e e' he =>
    have hmatches := stmtMatches_wraps (extendScope t.declares scopes) he hp.2.2
    rw [length_extendScope] at hmatches
    exact .ifElse (exprMatches_same c scopes) (stmtMatches_same t scopes) hmatches
  | @inLoop _ c b b' h => exact .loop (exprMatches_same c scopes) (stmtMatches_wraps scopes h hp.2)
  | @inFunction _ name params body body' h =>
    have hmatches := stmtsMatch_wraps (paramNames params :: extendScope [name] scopes) h hp
    rw [List.length_cons, length_extendScope] at hmatches
    exact .funDecl (Equiv.refl String) (here?_sameSteps _) rfl (paramsMatch_self params) hmatches

theorem stmtsMatch_wraps {ss ss' : List (Stmt ρ)} (scopes : List (List String))
    (h : Stmt.WrapsAll ss ss') (hp : Stmt.PlacedAll ss) :
    StmtsMatch True (sameSteps scopes.length) (Stmt.annotateAll hopsLabel scopes ss)
      (Stmt.annotateAll hopsLabel scopes ss') := by
  cases h with
  | @head s s' ss hs =>
    have hss := @stmtsMatch_same _ True ss (extendScope s.declares scopes)
    rw [length_extendScope] at hss
    simp only [Stmt.annotateAll, hs.declares hp.1]
    exact .cons (stmtMatches_wraps scopes hs hp.1) hss
  | @tail s ss ss' hss =>
    have hmatches := stmtsMatch_wraps (extendScope s.declares scopes) hss hp.2
    rw [length_extendScope] at hmatches
    exact .cons (stmtMatches_same s scopes) hmatches

end

theorem programsMatch_wraps {ss ss' : List (Stmt ρ)} (h : Stmt.WrapsAll ss ss') (hp : Stmt.PlacedAll ss) :
    ProgramsMatch True (Stmt.annotateAll hopsLabel [] ss) (Stmt.annotateAll hopsLabel [] ss') := by
  induction ss generalizing ss' with
  | nil => cases h
  | cons s ss ih =>
    cases h with
    | head hs => exact .cons (stmtMatches_wraps [] hs hp.1) (programsMatch_self True ss)
    | tail hss => exact .cons (stmtMatches_same s []) (ih hss hp.2)

/-! ### Runs -/

variable {s : Session}

/-- Programs of which the second has a block more come to the same end, if the stack does for both. -/
theorem MatchesItself.run_wraps (hn : s.natives.Discreet) (h : MatchesItself s) {p t : Program Unit}
    (hpt : ProgramsMatch True p.annotate.statements t.annotate.statements) (hp : ¬ s.Exhausts p)
    (ht : ¬ s.Exhausts t) :
    ResultsMatch True [] (s.run p.annotate.statements) (s.run t.annotate.statements) := by
  obtain ⟨links, hw⟩ := h
  have hweak : WorldsMatch True [] links s.cleared s.cleared := hw.weaken False.elim
  cases hroom : s.room? with
  | none =>
    rw [Session.run_of_refused hroom, Session.run_of_refused hroom]
    exact ⟨.some .refused, links, hweak⟩
  | some room =>
    rw [Session.exhausts_iff, Bool.not_eq_true] at hp ht
    rw [Session.run_ample hroom hp, Session.run_ample hroom ht]
    exact (Agree.execProgram hn hpt hweak room.ample room.ample (.ample room)).results

theorem hasErrors_wraps {p t : Program Unit} (hplaced : p.Placed) (hp : (s.resolve p).hasErrors = false)
    (ht : p.Wraps t) : (s.resolve t).hasErrors = false := by
  have haccepted := (Resolution.hasErrors_ofProgram s.config s.globalNames p).mp hp
  exact (Resolution.hasErrors_ofProgram s.config s.globalNames t).mpr
    (acceptedAll_wraps ht.2 hplaced haccepted)

end Matching

namespace Session

/-- A block around one statement of a program, at any nesting, does not matter: the program is accepted, and
a session in which any sources were run shows the same for both programs, unless one of them exhausts the
stack. Declarations are left out, and so are trees that no source has, with a declaration for a branch. -/
theorem shown_wrapped {config : Config} {natives : Registry} {clock : Nat → Float} {machine : Machine}
    {s₀ : Session} (hn : natives.Discreet) (hs : create config natives clock machine = .ok s₀)
    (earlier : List (String × String)) {p t q : Program Unit} (hplaced : p.Placed)
    (hp : ((s₀.after earlier).resolve p).hasErrors = false) (ht : p.Wraps t)
    (hq : q.unplaced = t.unplaced) (source source' : String) :
    ((s₀.after earlier).resolve q).hasErrors = false ∧
      (¬ (s₀.after earlier).Exhausts p → ¬ (s₀.after earlier).Exhausts q →
        ((s₀.after earlier).runProgram source' q).shown =
          ((s₀.after earlier).runProgram source p).shown) := by
  have hn₀ : s₀.natives.Discreet := (succeeds_create hs).natives ▸ hn
  have hself := (Matching.matchesItself_create hs).after hn₀ earlier
  have hn' : (s₀.after earlier).natives.Discreet := (s₀.succeeds_after earlier).natives ▸ hn₀
  have htresolved := Matching.hasErrors_wraps hplaced hp ht
  have hqresolved := Matching.hasErrors_of_unplaced hq htresolved
  refine ⟨hqresolved, fun hpstack hqstack => ?_⟩
  have htstack := (hself.exhausts_of_unplaced hn' hq).not.mp hqstack
  have hmatch := Matching.programsMatch_wraps ht.2 hplaced
  have hshown := (hself.run_wraps hn' hmatch hpstack htstack).shown hp htresolved source source
  exact (hself.runProgram_unplaced hn' hq htresolved source source').trans hshown.symm

/-- A block declares a function that is called when the block is left. -/
def calledLater (wrap : Stmt Unit → Stmt Unit) : Program Unit :=
  ⟨default, [.varDecl default "g" none,
    .block default [.varDecl default "a" (some (.literal default (.boolean true))),
      wrap (.block default [.funDecl default "f" [] [.print default (.varRef default "a" ())],
        .expression default (.assign default "g" () (.varRef default "f" ()))])],
    .expression default (.call default (.varRef default "g" ()) [])]⟩

theorem shown_wrapped_called_later :
    (bare.runProgram "" (calledLater fun s => .block default [s])).printed = ["true"] := by
  have hcreate : create bare.config .standard bare.clock .standard = .ok bare := rfl
  have hplaced : (calledLater id).Placed := by
    simp [calledLater, Program.Placed, Stmt.Placed, Stmt.PlacedAll]
  have hp : ((bare.after []).resolve (calledLater id)).hasErrors = false := by decide +kernel
  have ht : (calledLater id).Wraps (calledLater fun s => .block default [s]) :=
    ⟨rfl, .tail (.head (.inBlock (.tail (.head (.here default rfl)))))⟩
  have hstack : ¬ (bare.after []).Exhausts (calledLater id) := by decide +kernel
  have hstack' : ¬ (bare.after []).Exhausts (calledLater fun s => .block default [s]) := by decide +kernel
  have hprinted : (bare.runProgram "" (calledLater id)).printed = ["true"] := by decide +kernel
  have h := shown_wrapped Registry.discreet_standard hcreate [] hplaced hp ht rfl "" ""
  exact (congrArg Prod.fst (h.2 hstack hstack')).trans hprinted

end Session

end Lox

import Lox.Proofs.Matching.Sessions
import Lox.Proofs.Scope.RenamedPrograms
import Mathlib.Logic.Equiv.Basic

/-!
# Local names do not matter

Renaming a local variable swaps two names in the frames of its scope and changes nothing else. So a
program with one of its locals renamed, to a name that it does not use, is accepted like the program
itself, has the same hops, and does the same.
-/

namespace Lox.Matching

variable {x y : String} {wraps : Prop}

/-- All scopes are on both sides, and the one that is so many hops out has two names swapped. -/
def renamedSteps (x y : String) (depth n : Nat) : List Step :=
  (sameSteps n).modify depth fun _ => .both (Equiv.swap x y)

@[simp] theorem renamedSteps_zero_succ (n : Nat) :
    renamedSteps x y 0 (n + 1) = .both (Equiv.swap x y) :: sameSteps n := rfl

@[simp] theorem renamedSteps_succ_succ (depth n : Nat) :
    renamedSteps x y (depth + 1) (n + 1) = .both (Equiv.refl String) :: renamedSteps x y depth n := rfl

theorem renamed_eq_swap {name : String} (h : name ≠ y) : renamed x y name = Equiv.swap x y name := by
  unfold renamed
  split
  · rename_i hx
    rw [hx, Equiv.swap_apply_left]
  · rw [Equiv.swap_apply_of_ne_of_ne ‹_› h]

theorem find?_renamedSteps {n k : Nat} (h : k < n) (depth : Nat) :
    find? (renamedSteps x y depth n) k =
      some (k, if k = depth then Equiv.swap x y else Equiv.refl String) := by
  induction n generalizing k depth with
  | zero => exact absurd h (Nat.not_lt_zero k)
  | succ n ih =>
    cases depth with
    | zero =>
      cases k with
      | zero => rfl
      | succ k => simp [find?, find?_sameSteps (Nat.lt_of_succ_lt_succ h)]
    | succ depth =>
      cases k with
      | zero => rfl
      | succ k => simp [find?, ih (Nat.lt_of_succ_lt_succ h)]

theorem here?_renamedSteps {depth n : Nat} (h : depth < n) {name : String} (hn : name ≠ y) :
    ∃ π, here? (renamedSteps x y depth n) = some π ∧ π name = renamedDeclaration x y depth name := by
  obtain ⟨n, rfl⟩ := Nat.exists_eq_succ_of_ne_zero (Nat.ne_of_gt (Nat.zero_lt_of_lt h))
  cases depth with
  | zero => exact ⟨_, rfl, (renamed_eq_swap hn).symm⟩
  | succ depth => exact ⟨_, rfl, rfl⟩

theorem refMatches_renamed {name : String} {ref : Option Nat} {scopes : List (List String)}
    (hn : name ≠ y) (hr : hopsIn name scopes = ref) (depth : Nat) :
    RefMatches (renamedSteps x y depth scopes.length) name ref (renamedRef x y depth name ref) ref := by
  cases ref with
  | none => exact .global name
  | some k =>
    have hfind := @find?_renamedSteps x y _ k (lt_length_of_hopsIn hr) depth
    have hname : renamedRef x y depth name (some k) =
        (if k = depth then Equiv.swap x y else Equiv.refl String) name := by
      unfold renamedRef
      by_cases h : k = depth
      · rw [if_pos (congrArg some h), if_pos h, renamed_eq_swap hn]
      · rw [if_neg (fun heq => h (Option.some.inj heq)), if_neg h]
        rfl
    rw [hname]
    exact .inScope hfind name

/-! ### Expressions -/

mutual

theorem exprMatches_renameIn (e : ResolvedExpr) {scopes : List (List String)} (depth : Nat)
    (hn : y ∉ e.names) (he : e.annotate hopsLabel scopes = e) :
    ExprMatches (renamedSteps x y depth scopes.length) e (e.renameIn x y depth) := by
  cases e with
  | literal span v => exact .literal v
  | varRef span name ref =>
    injection he with _ _ hr
    exact .varRef (refMatches_renamed (fun h => hn (List.mem_singleton.mpr h.symm)) hr depth)
  | assign span name ref value =>
    obtain ⟨hname, hvalue⟩ := not_or.mp (mt List.mem_cons.mpr hn)
    injection he with _ _ hr hrest
    exact .assign (refMatches_renamed (Ne.symm hname) hr depth)
      (exprMatches_renameIn value depth hvalue hrest)
  | unary span op operand =>
    injection he with _ _ hoperand
    exact .unary op (exprMatches_renameIn operand depth hn hoperand)
  | binary span op left right =>
    simp only [Expr.names, Expr.references, List.map_append, List.mem_append, not_or] at hn
    injection he with _ _ hleft hright
    exact .binary op (exprMatches_renameIn left depth hn.1 hleft)
      (exprMatches_renameIn right depth hn.2 hright)
  | logical span op left right =>
    simp only [Expr.names, Expr.references, List.map_append, List.mem_append, not_or] at hn
    injection he with _ _ hleft hright
    exact .logical op (exprMatches_renameIn left depth hn.1 hleft)
      (exprMatches_renameIn right depth hn.2 hright)
  | call span callee arguments =>
    simp only [Expr.names, Expr.references, List.map_append, List.mem_append, not_or] at hn
    injection he with _ hcallee harguments
    exact .call (exprMatches_renameIn callee depth hn.1 hcallee)
      (exprsMatch_renameAllIn arguments depth hn.2 harguments)
  | group span inner =>
    injection he with _ hinner
    exact .group (exprMatches_renameIn inner depth hn hinner)

theorem exprsMatch_renameAllIn (es : List ResolvedExpr) {scopes : List (List String)} (depth : Nat)
    (hn : y ∉ (Expr.referencesAll es).map Reference.name)
    (hes : Expr.annotateAll hopsLabel scopes es = es) :
    ExprsMatch (renamedSteps x y depth scopes.length) es (Expr.renameAllIn x y depth es) := by
  cases es with
  | nil => exact .nil
  | cons e es =>
    simp only [Expr.referencesAll, List.map_append, List.mem_append, not_or] at hn
    injection hes with he hes
    exact .cons (exprMatches_renameIn e depth hn.1 he) (exprsMatch_renameAllIn es depth hn.2 hes)

end

theorem optionMatches_renameIn {e : Option ResolvedExpr} {scopes : List (List String)} (depth : Nat)
    (hn : ∀ e', e = some e' → y ∉ e'.names) (he : e.map (·.annotate hopsLabel scopes) = e) :
    Option.Rel (ExprMatches (renamedSteps x y depth scopes.length)) e
      (e.map fun e => e.renameIn x y depth) := by
  cases e with
  | none => exact .none
  | some e =>
    injection he with he
    exact .some (exprMatches_renameIn e depth (hn e rfl) he)

/-! ### Statements -/

mutual

theorem stmtMatches_renameIn (s : ResolvedStmt) {scopes : List (List String)} {depth : Nat}
    (hd : depth < scopes.length) (hn : y ∉ s.names) (hf : depth = 0 → x ∉ s.declaredAs .function)
    (hs : s.annotate hopsLabel scopes = s) :
    StmtMatches wraps (renamedSteps x y depth scopes.length) s (s.renameIn x y depth) := by
  cases s with
  | expression span e =>
    injection hs with _ he
    exact .expression (exprMatches_renameIn e depth hn he)
  | print span e =>
    injection hs with _ he
    exact .print (exprMatches_renameIn e depth hn he)
  | varDecl span name e =>
    injection hs with _ _ he
    have hname : name ≠ y := fun h => Stmt.not_mem_declares _ hn (List.mem_singleton.mpr h.symm)
    have hoptional : ∀ e', e = some e' → y ∉ e'.names := by
      rintro e' rfl
      exact fun h => hn (List.mem_cons_of_mem name h)
    have hmatches := @optionMatches_renameIn x y _ _ depth hoptional he
    rw [length_extendScope] at hmatches
    -- the frame of the variable is linked by the swap of the two names, all others by identity
    obtain ⟨π, hπ, heq⟩ := @here?_renamedSteps x y _ _ hd _ hname
    rw [Stmt.renameIn, ← heq]
    exact .varDecl name hπ hmatches
  | block span body =>
    injection hs with _ hbody
    have hlt : depth + 1 < (([] : List String) :: scopes).length := Nat.succ_lt_succ hd
    exact .block (Equiv.refl String) (stmtsMatch_renameAllIn body hlt hn nofun hbody)
  | conditional span c t e =>
    cases e with
    | none =>
      simp only [Stmt.names, List.mem_append, not_or] at hn
      injection hs with _ hc ht
      exact .ifThen (exprMatches_renameIn c depth hn.1 hc) (stmtMatches_renameIn t hd hn.2 hf ht)
    | some e =>
      simp only [Stmt.names, List.mem_append, not_or] at hn
      injection hs with _ hc ht he
      obtain ⟨hfe, hft⟩ := not_mem_of_append hf
      have hde : depth < (extendScope t.declares scopes).length := by rwa [length_extendScope]
      have hematches := @stmtMatches_renameIn e _ _ hde hn.2 hfe (Option.some.inj he)
      rw [length_extendScope] at hematches
      exact .ifElse (exprMatches_renameIn c depth hn.1.1 hc)
        (stmtMatches_renameIn t hd hn.1.2 hft ht) hematches
  | loop span c b =>
    simp only [Stmt.names, List.mem_append, not_or] at hn
    injection hs with _ hc hb
    exact .loop (exprMatches_renameIn c depth hn.1 hc) (stmtMatches_renameIn b hd hn.2 hf hb)
  | funDecl span name params body =>
    simp only [Stmt.names, List.mem_cons, List.mem_append, not_or] at hn
    injection hs with _ _ _ hbody
    have hkept : [name] = renamedNames x y depth [name] :=
      Stmt.declares_renameIn (.funDecl span name params body) depth hf
    obtain ⟨π, hπ, heq⟩ := @here?_renamedSteps x y _ _ hd _ (Ne.symm hn.1)
    have hname : π name = name := heq.trans (List.cons.inj hkept).1.symm
    have hlt : depth + 1 < (paramNames params :: extendScope [name] scopes).length := by
      rw [List.length_cons, length_extendScope]
      exact Nat.succ_lt_succ hd
    have hmatches := @stmtsMatch_renameAllIn body _ _ hlt hn.2.2 nofun hbody
    rw [List.length_cons, length_extendScope, renamedSteps_succ_succ] at hmatches
    exact .funDecl (Equiv.refl String) hπ hname (paramsMatch_self params) hmatches
  | ret span e =>
    injection hs with _ he
    have hoptional : ∀ e', e = some e' → y ∉ e'.names := by
      rintro e' rfl
      exact hn
    exact .ret (optionMatches_renameIn depth hoptional he)

theorem stmtsMatch_renameAllIn (ss : List ResolvedStmt) {scopes : List (List String)} {depth : Nat}
    (hd : depth < scopes.length) (hn : y ∉ Stmt.namesAll ss)
    (hf : depth = 0 → x ∉ Stmt.declaredAsAll .function ss)
    (hs : Stmt.annotateAll hopsLabel scopes ss = ss) :
    StmtsMatch wraps (renamedSteps x y depth scopes.length) ss (Stmt.renameAllIn x y depth ss) := by
  cases ss with
  | nil => exact .nil
  | cons s ss =>
    simp only [Stmt.namesAll, List.mem_append, not_or] at hn
    injection hs with hs hss
    obtain ⟨hfss, hfs⟩ := not_mem_of_append hf
    have hdss : depth < (extendScope s.declares scopes).length := by rwa [length_extendScope]
    have hmatches := @stmtsMatch_renameAllIn ss _ _ hdss hn.2 hfss hss
    rw [length_extendScope] at hmatches
    exact .cons (stmtMatches_renameIn s hd hn.1 hfs hs) hmatches

end

/-! ### One local of a program -/

theorem paramsMatch_rename {params : List Parameter} (hn : y ∉ paramNames params) :
    ParamsMatch (Equiv.swap x y) params (params.map (Parameter.rename x y)) := by
  refine List.forall₂_map_right_iff.mpr (List.forall₂_same.mpr fun p hp => renamed_eq_swap ?_)
  rintro rfl
  exact hn (List.mem_reverse.mpr (List.mem_map_of_mem hp))

mutual

theorem stmtMatches_renamesLocal {s s' : ResolvedStmt} {scopes : List (List String)}
    {inFunction : Bool} (h : s.RenamesLocal x y s') (hn : y ∉ s.names)
    (ha : s.Accepted false scopes inFunction) (hs : s.annotate hopsLabel scopes = s) :
    StmtMatches wraps (sameSteps scopes.length) s s' := by
  cases s with
  | block span body =>
    injection hs with _ hbody
    cases h with
    | ofBlock hx =>
      have hf : 0 = 0 → x ∉ Stmt.declaredAsAll .function body := fun _ =>
        Stmt.not_function_of_variable ha (List.mem_append_left [] hx)
      -- from here on the two names stand for each other in one frame
      exact .block (Equiv.swap x y)
        (stmtsMatch_renameAllIn body (Nat.succ_pos scopes.length) hn hf hbody)
    | inBlock hb => exact .block (Equiv.refl String) (stmtsMatch_renamesLocalAll hb hn ha hbody)
  | conditional span c t e =>
    cases h with
    | inThen ht =>
      cases e with
      | none =>
        simp only [Stmt.names, List.mem_append, not_or] at hn
        injection hs with _ hc hlt
        exact .ifThen (exprMatches_self hc) (stmtMatches_renamesLocal ht hn.2 ha hlt)
      | some e =>
        simp only [Stmt.names, List.mem_append, not_or] at hn
        injection hs with _ hc hlt hle
        have hematches := @stmtMatches_self wraps e _ (Option.some.inj hle)
        rw [length_extendScope] at hematches
        exact .ifElse (exprMatches_self hc) (stmtMatches_renamesLocal ht hn.1.2 ha.1 hlt) hematches
    | inElse he =>
      simp only [Stmt.names, List.mem_append, not_or] at hn
      injection hs with _ hc hlt hle
      have hematches := stmtMatches_renamesLocal he hn.2 ha.2 (Option.some.inj hle)
      rw [length_extendScope] at hematches
      exact .ifElse (exprMatches_self hc) (stmtMatches_self hlt) hematches
  | loop span c b =>
    simp only [Stmt.names, List.mem_append, not_or] at hn
    injection hs with _ hc hlb
    cases h with
    | inLoop hb => exact .loop (exprMatches_self hc) (stmtMatches_renamesLocal hb hn.2 ha hlb)
  | funDecl span name params body =>
    simp only [Stmt.names, List.mem_cons, List.mem_append, not_or] at hn
    obtain ⟨-, -, hbodyAccepted⟩ := ha
    injection hs with _ _ _ hbody
    have hlength : (paramNames params :: extendScope [name] scopes).length = scopes.length + 1 := by
      simp
    cases h with
    | ofFunction hx =>
      have hf : 0 = 0 → x ∉ Stmt.declaredAsAll .function body := fun _ =>
        Stmt.not_function_of_variable hbodyAccepted hx
      have hmatches := @stmtsMatch_renameAllIn x y wraps body _ 0 (by simp) hn.2.2 hf hbody
      rw [hlength] at hmatches
      exact .funDecl (Equiv.swap x y) (here?_sameSteps _) rfl (paramsMatch_rename hn.2.1) hmatches
    | inFunction hb =>
      have hmatches := stmtsMatch_renamesLocalAll hb hn.2.2 hbodyAccepted hbody
      rw [hlength] at hmatches
      exact .funDecl (Equiv.refl String) (here?_sameSteps _) rfl (paramsMatch_self params) hmatches
  | _ => cases h

theorem stmtsMatch_renamesLocalAll {ss ss' : List ResolvedStmt} {scopes : List (List String)}
    {inFunction : Bool} (h : Stmt.RenamesLocalAll x y ss ss') (hn : y ∉ Stmt.namesAll ss)
    (ha : Stmt.AcceptedAll false scopes inFunction ss) (hs : Stmt.annotateAll hopsLabel scopes ss = ss) :
    StmtsMatch wraps (sameSteps scopes.length) ss ss' := by
  cases ss with
  | nil => cases h
  | cons s ss =>
    simp only [Stmt.namesAll, List.mem_append, not_or] at hn
    injection hs with hls hlss
    cases h with
    | head hh =>
      have hmatches := @stmtsMatch_self wraps ss _ hlss
      rw [length_extendScope] at hmatches
      exact .cons (stmtMatches_renamesLocal hh hn.1 ha.1 hls) hmatches
    | tail ht =>
      have hmatches := stmtsMatch_renamesLocalAll ht hn.2 ha.2 hlss
      rw [length_extendScope] at hmatches
      exact .cons (stmtMatches_self hls) hmatches

end

theorem programsMatch_renamesLocalAll {ss ss' : List ResolvedStmt}
    (h : Stmt.RenamesLocalAll x y ss ss') (hn : y ∉ Stmt.namesAll ss)
    (ha : Stmt.AcceptedAll false [] false ss) (hs : Stmt.annotateAll hopsLabel [] ss = ss) :
    ProgramsMatch wraps ss ss' := by
  induction ss generalizing ss' with
  | nil => cases h
  | cons s ss ih =>
    simp only [Stmt.namesAll, List.mem_append, not_or] at hn
    injection hs with hls hlss
    cases h with
    | head hh =>
      have hself := programsMatch_self wraps ss
      rw [show Stmt.annotateAll hopsLabel [] ss = ss from hlss] at hself
      exact .cons (stmtMatches_renamesLocal hh hn.1 ha.1 hls) hself
    | tail ht => exact .cons (stmtMatches_self hls) (ih ht hn.2 ha.2 hlss)

/-! ### Programs with one local renamed -/

theorem annotate_map_noLabel {p : Program (Option Nat)}
    (h : Stmt.annotateAll hopsLabel [] p.statements = p.statements) : (p.map noLabel).annotate = p := by
  have hlabels := Stmt.annotateAll_mapAll noLabel [] p.statements
  rw [h] at hlabels
  exact congrArg (Program.mk p.span) hlabels

theorem hopsOf_unplaced {p q : Program Unit} (h : q.unplaced = p.unplaced) :
    hopsOf q.annotate.references = hopsOf p.annotate.references := by
  have hops (p : Program Unit) : hopsOf p.unplaced.annotate.references =
      hopsOf p.annotate.references := by
    have hannotate : p.unplaced.annotate.references = p.annotate.references.map (Reference.mapSpan _) :=
      (congrArg Stmt.referencesAll (Stmt.annotateAll_mapSpanAll (fun _ => default) [] p.statements)).trans
        (Stmt.referencesAll_mapSpanAll _ _)
    rw [hannotate, hopsOf, List.map_map]
    rfl
  rw [← hops q, h, hops p]

variable {s : Session}

theorem MatchesItself.runProgram_renamed (hn : s.natives.Discreet) (h : MatchesItself s)
    (hredeclare : s.config.allowLocalRedeclaration = false) {p : Program Unit}
    (hp : (s.resolve p).hasErrors = false) (hy : y ∉ p.names) {t : Program (Option Nat)}
    (ht : p.annotate.RenamesLocal x y t) (source : String) :
    (s.resolve (t.map noLabel)).hasErrors = false ∧ (t.map noLabel).annotate = t ∧
      (s.runProgram source (t.map noLabel)).shown = (s.runProgram source p).shown := by
  have hlabels : Stmt.annotateAll hopsLabel [] p.annotate.statements = p.annotate.statements :=
    Stmt.annotateAll_annotateAll [] p.statements
  have haccepted : p.annotate.Accepted false := by
    rw [Program.accepted_annotate_iff, ← hredeclare]
    exact (Resolution.hasErrors_ofProgram s.config s.globalNames p).mp hp
  rw [← Program.names_annotate] at hy
  obtain ⟨htaccepted, htlabels⟩ := ht.2.resolved (unheld_nil y) hy haccepted hlabels
  have htannotate := annotate_map_noLabel htlabels
  have hq : (s.resolve (t.map noLabel)).hasErrors = false := by
    refine (Resolution.hasErrors_ofProgram s.config s.globalNames _).mpr ?_
    rw [hredeclare]
    exact (Stmt.acceptedAll_mapAll_iff noLabel false [] false t.statements).mpr htaccepted
  refine ⟨hq, htannotate, (h.runProgram hn hp hq ?_ source source).symm⟩
  rw [htannotate]
  exact programsMatch_renamesLocalAll ht.2 hy haccepted hlabels

end Lox.Matching

namespace Lox.Session

/-- The name of a local variable or parameter does not matter: with a name that occurs nowhere in the
program it is accepted, every reference keeps its hops, and a session in which any sources were run shows
the same for both programs. -/
theorem shown_renamed {config : Config} {natives : Registry} {clock : Nat → Float} {machine : Machine}
    {s₀ : Session} (hn : natives.Discreet) (hs : create config natives clock machine = .ok s₀)
    (hredeclare : config.allowLocalRedeclaration = false) (earlier : List (String × String))
    {p q : Program Unit} (hp : ((s₀.after earlier).resolve p).hasErrors = false) {x y : String}
    (hy : y ∉ p.names) {t : Program (Option Nat)}
    (ht : ((s₀.after earlier).resolve p).program.RenamesLocal x y t)
    (hq : q.unplaced = (t.map noLabel).unplaced) (source source' : String) :
    ((s₀.after earlier).resolve q).hasErrors = false ∧
      hopsOf ((s₀.after earlier).resolve q).program.references =
        hopsOf ((s₀.after earlier).resolve p).program.references ∧
      ((s₀.after earlier).runProgram source' q).shown =
        ((s₀.after earlier).runProgram source p).shown := by
  have hcreated := succeeds_create hs
  have hn₀ : s₀.natives.Discreet := hcreated.natives ▸ hn
  have hself := (Matching.matchesItself_create hs).after hn₀ earlier
  have hlater := s₀.succeeds_after earlier
  have hn' : (s₀.after earlier).natives.Discreet := hlater.natives ▸ hn₀
  have hredeclare' : (s₀.after earlier).config.allowLocalRedeclaration = false := by
    rw [hlater.config, hcreated.config]
    exact hredeclare
  rw [program_resolve] at ht
  rw [program_resolve, program_resolve]
  obtain ⟨hthasErrors, htannotate, htshown⟩ := hself.runProgram_renamed hn' hredeclare' hp hy ht source
  have hqshown := hself.runProgram_unplaced hn' hq hthasErrors source source'
  refine ⟨Matching.hasErrors_of_unplaced hq hthasErrors, ?_, hqshown.trans htshown⟩
  rw [Matching.hopsOf_unplaced hq, htannotate]
  exact ht.2.hops

/-- A block whose variable is printed by a function of the block. -/
def printedInCall (name : String) : Program Unit :=
  ⟨default, [.block default
    [.varDecl default name (some (.literal default (.string "here"))),
      .funDecl default "show" [] [.print default (.varRef default name ())],
      .expression default (.call default (.varRef default "show" ()) [])]]⟩

theorem shown_renamed_in_block :
    (bare.runProgram "" (printedInCall "b")).shown = (bare.runProgram "" (printedInCall "a")).shown := by
  have hp : ((bare.after []).resolve (printedInCall "a")).hasErrors = false := by decide +kernel
  have hy : "b" ∉ (printedInCall "a").names := by decide +kernel
  have hcreate : create bare.config .standard bare.clock .standard = .ok bare := rfl
  have ht : ((bare.after []).resolve (printedInCall "a")).program.RenamesLocal "a" "b"
      (printedInCall "b").annotate := by
    rw [show ((bare.after []).resolve (printedInCall "a")).program = (printedInCall "a").annotate from
      Resolution.program_ofProgram _ _ _]
    exact ⟨rfl, .head (.ofBlock (by decide +kernel))⟩
  exact (shown_renamed Registry.discreet_standard hcreate rfl [] hp hy ht rfl "" "").2.2

end Lox.Session

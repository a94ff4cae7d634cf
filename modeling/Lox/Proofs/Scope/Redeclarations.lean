import Lox.Proofs.Scope.Findings

/-!
# The note of a redeclaration

A scope keeps one place for each name. A declaration of a name that the scope holds already is an error,
and the note beside the error is at the place that is kept. Since every declaration, also one that is an
error and also a parameter, puts its own place there, this is the latest of the earlier ones.
-/

namespace Lox

theorem ScopeIssue.code_eq_duplicate (issue : ScopeIssue) :
    issue.code = "E303" ↔ ∃ name previous, issue = .duplicateDeclaration name previous := by
  cases issue <;> simp [code]

namespace Point

variable {α : Type} {rules : Resolution.Rules} {past : List Point} {point : Point}

theorem mem_collect {f : List Point → Point → List α} {points : List Point} {x : α} :
    x ∈ collect f past points ↔
      ∃ before point after, points = before ++ point :: after ∧ x ∈ f (past ++ before) point := by
  constructor
  · intro h
    induction points generalizing past with
    | nil => exact absurd h List.not_mem_nil
    | cons point points ih =>
      rcases List.mem_append.mp h with h | h
      · exact ⟨[], point, points, rfl, (List.append_nil past).symm ▸ h⟩
      · obtain ⟨before, found, after, rfl, hx⟩ := ih h
        rw [List.append_assoc] at hx
        exact ⟨point :: before, found, after, rfl, hx⟩
  · rintro ⟨before, point, after, rfl, hx⟩
    rw [collect_append, collect]
    exact List.mem_append_right _ (List.mem_append_left _ hx)

/-! ### The places of a name -/

/-- Where some points declare a name in a scope, in their order. -/
def places (points : List Point) (scope : Nat) (name : String) : List Span :=
  ((points.filterMap (declares? scope)).filter fun entry => entry.1 == name).map Prod.snd

theorem lookup_eq_head? (entries : List (String × Span)) (name : String) :
    entries.lookup name = ((entries.filter fun entry => entry.1 == name).map Prod.snd).head? := by
  induction entries with
  | nil => rfl
  | cons entry entries ih =>
    obtain ⟨x, span⟩ := entry
    rw [List.lookup_cons, ih]
    by_cases h : name = x
    · simp [h]
    · simp [beq_false_of_ne h, Ne.symm h]

theorem lookup_held (past : List Point) (scope : Nat) (name : String) :
    (held past scope).lookup name = (places past scope name).getLast? := by
  rw [held, lookup_eq_head?, List.filter_reverse, List.map_reverse, List.head?_reverse, places]

/-- A point declares a name in a scope that has declared it before: at `first` and then, in this order,
at `others`. -/
structure Redeclares (past : List Point) (point : Point) (name : String) (first : Span)
    (others : List Span) : Prop where
  kind : point.kind = .declaration name
  earlier : ∃ scope, point.around.head? = some scope ∧ places past scope name = first :: others

theorem Redeclares.previous? {name : String} {first : Span} {others : List Span}
    (h : Redeclares past point name first others) :
    point.previous? past name = some ((first :: others).getLast (List.cons_ne_nil _ _)) := by
  obtain ⟨scope, hscope, hplaces⟩ := h.earlier
  rw [Point.previous?, hscope, Option.bind_some, lookup_held, hplaces, List.getLast?_eq_some_getLast]

theorem exists_redeclares {name : String} {span : Span} (hkind : point.kind = .declaration name)
    (h : point.previous? past name = some span) :
    ∃ first others, Redeclares past point name first others ∧
      span = (first :: others).getLast (List.cons_ne_nil _ _) := by
  obtain ⟨scope, hscope, hheld⟩ := Option.bind_eq_some_iff.mp h
  rw [lookup_held] at hheld
  cases hplaces : places past scope name with
  | nil => rw [hplaces] at hheld; exact nomatch hheld
  | cons first others =>
    have hr : Redeclares past point name first others := ⟨hkind, scope, hscope, hplaces⟩
    exact ⟨first, others, hr, Option.some.inj (h.symm.trans hr.previous?)⟩

/-! ### What is reported -/

/-- What is wrong with a declaration is that its name has been declared before in its scope; and nothing
else that is wrong with a program has the same code. -/
theorem mem_findings_duplicate (hrules : rules.allowRedeclaration = false) {f : Finding} :
    f ∈ point.findings rules past ∧ f.issue.code = "E303" ↔
      ∃ name first others, Redeclares past point name first others ∧
        f = ⟨.duplicateDeclaration name ((first :: others).getLast (List.cons_ne_nil _ _)),
          point.span⟩ := by
  constructor
  · rintro ⟨hf, hcode⟩
    obtain ⟨issue, span⟩ := f
    obtain ⟨name, previous, rfl⟩ := issue.code_eq_duplicate.mp hcode
    cases hkind : point.kind with
    | declaration x =>
      simp only [findings, hkind, hrules, Bool.false_eq_true, if_false, List.mem_map,
        Option.mem_toList, Finding.mk.injEq, ScopeIssue.duplicateDeclaration.injEq] at hf
      obtain ⟨previous, hprevious, ⟨rfl, rfl⟩, rfl⟩ := hf
      obtain ⟨first, others, hr, rfl⟩ := exists_redeclares hkind hprevious
      exact ⟨x, first, others, hr, rfl⟩
    | scope | parameter _ | reading _ _ | assignment _ | ret _ =>
      simp [findings, warnings, hkind] at hf
  · rintro ⟨name, first, others, hr, rfl⟩
    refine ⟨?_, rfl⟩
    simp [findings, hr.kind, hrules, hr.previous?]

end Point

theorem Program.mem_pointFindings_duplicate {ρ : Type} {rules : Resolution.Rules}
    (hrules : rules.allowRedeclaration = false) {p : Program ρ} {f : Finding} :
    f ∈ p.pointFindings rules ∧ f.issue.code = "E303" ↔
      ∃ past point rest name first others, p.points = past ++ point :: rest ∧
        point.Redeclares past name first others ∧
        f = ⟨.duplicateDeclaration name ((first :: others).getLast (List.cons_ne_nil _ _)),
          point.span⟩ := by
  rw [Program.pointFindings, Point.mem_collect]
  constructor
  · rintro ⟨⟨past, point, rest, hsplit, hf⟩, hcode⟩
    rw [List.nil_append] at hf
    obtain ⟨name, first, others, hr, heq⟩ := (Point.mem_findings_duplicate hrules).mp ⟨hf, hcode⟩
    exact ⟨past, point, rest, name, first, others, hsplit, hr, heq⟩
  · rintro ⟨past, point, rest, name, first, others, hsplit, hr, heq⟩
    obtain ⟨hf, hcode⟩ :=
      (Point.mem_findings_duplicate hrules).mpr ⟨name, first, others, hr, heq⟩
    exact ⟨⟨past, point, rest, hsplit, (List.nil_append past).symm ▸ hf⟩, hcode⟩

namespace Resolution

/-- The error at a declaration of a name that its scope has declared before, with the note at `place`. -/
def redeclared (name : String) (span place : Span) : Diagnostic :=
  Finding.diagnostic ⟨.duplicateDeclaration name place, span⟩

/-- Where a local name may not be redeclared, the errors about it are those of the declarations whose
scope has declared the name before, as a variable, a function or a parameter. The note of each is at the
latest of the earlier declarations, not at the first: it is at the first when there is just one, and at
no other time if no two of the places are the same. -/
theorem note_of_redeclaration (config : Config) (natives : List String) (p : Program Unit)
    (hlocal : config.allowLocalRedeclaration = false) :
    let resolution := ofProgram config natives p
    (∀ d ∈ resolution.diagnostics config, d.code = "E303" →
      ∃ past point rest name first others, p.points = past ++ point :: rest ∧
        point.Redeclares past name first others ∧
        d = redeclared name point.span ((first :: others).getLast (List.cons_ne_nil _ _)) ∧
        ((first :: others).Nodup → (d = redeclared name point.span first ↔ others = []))) ∧
    (∀ past point rest name first others, p.points = past ++ point :: rest →
      point.Redeclares past name first others →
      redeclared name point.span ((first :: others).getLast (List.cons_ne_nil _ _)) ∈
        resolution.findings.map Finding.diagnostic) := by
  intro resolution
  have hfound : resolution.findings = p.pointFindings (rulesFor config natives p) :=
    findings_ofProgram config natives p
  have hrules : (rulesFor config natives p).allowRedeclaration = false := hlocal
  refine ⟨fun d hd hcode => ?_, fun past point rest name first others hsplit hr => ?_⟩
  · obtain ⟨f, hf, rfl⟩ := List.mem_map.mp hd
    have hmem := Finding.mem_of_mem_limitErrors hf
    rw [hfound] at hmem
    obtain ⟨past, point, rest, name, first, others, hsplit, hr, rfl⟩ :=
      (Program.mem_pointFindings_duplicate hrules).mp ⟨hmem, hcode⟩
    refine ⟨past, point, rest, name, first, others, hsplit, hr, rfl, fun hnodup => ?_⟩
    constructor
    · intro heq
      have hnotes := congrArg Diagnostic.notes heq
      have hlast : (first :: others).getLast (List.cons_ne_nil _ _) = first :=
        congrArg Note.span (List.singleton_injective hnotes)
      cases others with
      | nil => rfl
      | cons other others =>
        rw [List.getLast_cons (List.cons_ne_nil _ _)] at hlast
        exact absurd (hlast ▸ List.getLast_mem _) (List.nodup_cons.mp hnodup).1
    · rintro rfl
      rfl
  · rw [hfound]
    refine List.mem_map_of_mem ?_
    exact ((Program.mem_pointFindings_duplicate hrules).mpr
      ⟨past, point, rest, name, first, others, hsplit, hr, rfl⟩).1

/-- The place of a declaration `var a;` in a line, by its first column. -/
def declarationAt (column : Nat) : Span :=
  ⟨"", ⟨1, column, column - 1⟩, ⟨1, column + 6, column + 5⟩⟩

/-- The program `{ var a; var a; var a; }`. -/
def declaredThrice : Program Unit where
  statements := [.block ⟨"", ⟨1, 1, 0⟩, ⟨1, 25, 24⟩⟩
    [.varDecl (declarationAt 3) "a" none, .varDecl (declarationAt 10) "a" none,
      .varDecl (declarationAt 17) "a" none]]
  span := ⟨"", ⟨1, 1, 0⟩, ⟨1, 25, 24⟩⟩

theorem note_of_redeclaration_third :
    let third := declarationAt 17
    let found := (ofProgram {} [] declaredThrice).findings.map Finding.diagnostic
    redeclared "a" third (declarationAt 10) ∈ found ∧
      redeclared "a" third (declarationAt 3) ∉ (ofProgram {} [] declaredThrice).diagnostics {} := by
  intro third found
  let past : List Point := declaredThrice.points.take 3
  have hr : Point.Redeclares past ⟨.declaration "a", third, [0]⟩ "a" (declarationAt 3)
      [declarationAt 10] := ⟨rfl, 0, rfl, by decide⟩
  have hnoted := (note_of_redeclaration {} [] declaredThrice rfl).2
  exact ⟨hnoted past _ [] "a" _ _ rfl hr, by decide +kernel⟩

end Resolution

end Lox

import Lox.Proofs.Scope.Effect
import Lox.Proofs.Scope.Numbering
import Lox.Proofs.Scope.Sites
import Lox.Scope.Resolution
import Mathlib.Data.List.Nodup

/-!
# Bindings

The walk binds a reference to the innermost scope around it that declares its name ahead of it, and
leaves it unbound where no scope does. So a resolved program is its tree labelled by the rule of lexical
scopes, whatever the settings are, and it has no error exactly if the tree is accepted.
-/

namespace Lox

variable {ρ : Type}

/-! ### Declarations ahead of a place -/

/-- A scope holds a declaration of a name ahead of the position `i`. -/
def DeclaredBefore (sites : List (Site ρ)) (i : Nat) (name : String) (scope : Nat) : Prop :=
  ∃ j < i, ∃ outer, sites[j]? = some ⟨.declaration name, scope :: outer⟩

/-- Counting outward from zero, the scope `k` around the position `i` is the innermost one that holds a
declaration of a name ahead of it. -/
def BindsTo (sites : List (Site ρ)) (i : Nat) (name : String) (around : List Nat) (k : Nat) : Prop :=
  (∃ scope, around[k]? = some scope ∧ DeclaredBefore sites i name scope) ∧
    ∀ j < k, ∀ scope, around[j]? = some scope → ¬ DeclaredBefore sites i name scope

theorem mem_held_take_iff {sites : List (Site ρ)} {i scope : Nat} {name : String} :
    name ∈ held (sites.take i) scope ↔ DeclaredBefore sites i name scope := by
  rw [mem_held_iff, DeclaredBefore]
  constructor
  · intro h
    obtain ⟨outer, hm⟩ := h
    obtain ⟨j, hj⟩ := List.mem_iff_getElem?.1 hm
    rw [List.getElem?_take] at hj
    split at hj
    · exact ⟨j, ‹_›, outer, hj⟩
    · cases hj
  · intro h
    obtain ⟨j, hj, outer, hs⟩ := h
    refine ⟨outer, List.mem_iff_getElem?.2 ⟨j, ?_⟩⟩
    rw [List.getElem?_take, if_pos hj, hs]

theorem hopsIn_held_eq_some_iff {sites : List (Site ρ)} {i k : Nat} {name : String}
    {around : List Nat} :
    hopsIn name (around.map (held (sites.take i))) = some k ↔ BindsTo sites i name around k := by
  simp only [hopsIn_eq_some_iff, BindsTo, List.getElem?_map, Option.map_eq_some_iff,
    ← mem_held_take_iff]
  constructor
  · intro h
    obtain ⟨⟨names, ⟨scope, hk, rfl⟩, hin⟩, hout⟩ := h
    exact ⟨⟨scope, hk, hin⟩, fun j hj scope' hs => hout j hj _ ⟨scope', hs, rfl⟩⟩
  · intro h
    obtain ⟨⟨scope, hk, hin⟩, hout⟩ := h
    refine ⟨⟨_, ⟨scope, hk, rfl⟩, hin⟩, ?_⟩
    intro j hj names h
    obtain ⟨scope', hs, rfl⟩ := h
    exact hout j hj scope' hs

theorem hopsIn_held_eq_none_iff {sites : List (Site ρ)} {i : Nat} {name : String}
    {around : List Nat} :
    hopsIn name (around.map (held (sites.take i))) = none ↔
      ∀ scope ∈ around, ¬ DeclaredBefore sites i name scope := by
  simp only [hopsIn_eq_none_iff, List.forall_mem_map, mem_held_take_iff]

/-! ### References and sites -/

def siteReferences (sites : List (Site ρ)) : List (Reference ρ) := sites.filterMap Site.reference?

theorem siteReferences_append (xs ys : List (Site ρ)) :
    siteReferences (xs ++ ys) = siteReferences xs ++ siteReferences ys := List.filterMap_append

theorem siteReferences_referenceSites (around : List Nat) (rs : List (Reference ρ)) :
    siteReferences (referenceSites around rs) = rs := by
  rw [siteReferences, referenceSites, List.filterMap_map]
  exact List.filterMap_some

theorem siteReferences_paramSites (around : List Nat) (params : List Parameter) :
    siteReferences (ρ := ρ) (paramSites around params) = [] := by
  rw [siteReferences, paramSites, List.filterMap_map]
  exact List.filterMap_eq_nil_iff.2 fun _ _ => rfl

mutual

theorem Stmt.siteReferences_sites (s : Stmt ρ) (around : List Nat) (first : Nat) :
    siteReferences (s.sites around first) = s.references := by
  have hc (c : Expr ρ) : siteReferences (c.sites around) = c.references :=
    siteReferences_referenceSites around c.references
  cases s with
  | expression span e => exact hc e
  | print span e => exact hc e
  | varDecl span name e =>
    cases e with
    | none => rfl
    | some e => exact hc e
  | block span body => exact Stmt.siteReferences_sitesAll body (first :: around) (first + 1)
  | conditional span c t e =>
    cases e with
    | none => simp only [Stmt.sites, siteReferences_append, hc, Stmt.siteReferences_sites t, Stmt.references]
    | some e =>
      simp only [Stmt.sites, siteReferences_append, hc, Stmt.siteReferences_sites t,
        Stmt.siteReferences_sites e, Stmt.references]
  | loop span c b =>
    simp only [Stmt.sites, siteReferences_append, hc, Stmt.siteReferences_sites b, Stmt.references]
  | funDecl span name params body =>
    simp only [Stmt.sites, siteReferences_append, siteReferences_paramSites, List.nil_append,
      Stmt.siteReferences_sitesAll body, Stmt.references]
    rfl
  | ret span e =>
    cases e with
    | none => rfl
    | some e => exact hc e

theorem Stmt.siteReferences_sitesAll (ss : List (Stmt ρ)) (around : List Nat) (first : Nat) :
    siteReferences (Stmt.sitesAll around first ss) = Stmt.referencesAll ss := by
  cases ss with
  | nil => rfl
  | cons s ss =>
    simp only [Stmt.sitesAll, siteReferences_append, Stmt.siteReferences_sites s,
      Stmt.siteReferences_sitesAll ss, Stmt.referencesAll]

end

theorem Program.exists_site {p : Program ρ} {r : Reference ρ} (h : r ∈ p.references) :
    ∃ (i : Nat) (around : List Nat), p.sites[i]? = some ⟨.reference r, around⟩ := by
  rw [Program.references, ← Stmt.siteReferences_sitesAll p.statements [] 0] at h
  obtain ⟨⟨kind, around⟩, hs, hr⟩ := List.mem_filterMap.1 h
  obtain ⟨i, hi⟩ := List.mem_iff_getElem?.1 hs
  cases kind with
  | scope => cases hr
  | declaration name => cases hr
  | reference r' =>
    obtain rfl := Option.some.inj hr
    exact ⟨i, around, hi⟩

def Program.marks (p : Program ρ) : List (ρ × Option Nat) := stmtsMarks [] p.statements

theorem Program.siteMarks_sites (p : Program ρ) : siteMarks [] p.sites = p.marks :=
  Stmt.siteMarks_sitesAll p.statements around_nil

theorem map_fst_siteMarks (past sites : List (Site ρ)) :
    (siteMarks past sites).map Prod.fst = (siteReferences sites).map Reference.ref := by
  induction sites generalizing past with
  | nil => rfl
  | cons site sites ih =>
    obtain ⟨kind, around⟩ := site
    have h := ih (past ++ [⟨kind, around⟩])
    cases kind with
    | scope => exact h
    | declaration name => exact h
    | reference r => exact congrArg (List.cons r.ref) h

theorem Program.map_fst_marks (p : Program ρ) :
    p.marks.map Prod.fst = p.references.map Reference.ref := by
  rw [← p.siteMarks_sites, map_fst_siteMarks, Program.sites, Stmt.siteReferences_sitesAll]
  rfl

theorem Program.marks_numbered_inj (p : Program ρ) {i : Nat} {k k' : Option Nat}
    (h : (i, k) ∈ p.numbered.marks) (h' : (i, k') ∈ p.numbered.marks) : k = k' := by
  have hnd : (p.numbered.marks.map Prod.fst).Nodup := by
    rw [Program.map_fst_marks, Program.refs_numbered]
    exact List.nodup_range
  exact congrArg Prod.snd (List.inj_on_of_nodup_map hnd h h' rfl)

/-! ### The outcome of the walk -/

namespace Resolution

def walkedFrom (rules : Rules) (before : Progress Nat) (p : Program Unit) : Progress Nat :=
  ((walkProgram rules p.numbered).run before).2

/-- What the walk leaves behind: everything is closed again, the references are bound by their hops, and
no error is noted exactly if the program is accepted. -/
theorem walked_walkedFrom (rules : Rules) (before : Progress Nat) (p : Program Unit) :
    Walked [] p.numbered.marks (p.numbered.Accepted rules.allowRedeclaration) {}
      (walkedFrom rules before p) := by
  have hready : (show Progress Nat from {}).AllReady := fun _ h => absurd h List.not_mem_nil
  have h := walked_stmts rules p.numbered.statements hready
  rw [walkedFrom, walkProgram_eq]
  exact h

theorem mem_bindings_iff (rules : Rules) (before : Progress Nat) (p : Program Unit) (i k : Nat) :
    (i, k) ∈ (walkedFrom rules before p).bindings ↔ (i, some k) ∈ p.numbered.marks := by
  rw [(walked_walkedFrom rules before p).bindings]
  exact or_iff_left List.not_mem_nil

theorem lookup_bindings_of_mem (rules : Rules) (before : Progress Nat) {p : Program Unit} {i : Nat}
    {label : Option Nat} (h : (i, label) ∈ p.numbered.marks) :
    (walkedFrom rules before p).bindings.lookup i = label := by
  have hmem {k : Nat} (hk : (walkedFrom rules before p).bindings.lookup i = some k) :
      label = some k := by
    obtain ⟨l₁, l₂, hl, -⟩ := List.lookup_eq_some_iff.1 hk
    have hm := (mem_bindings_iff rules before p i k).1 (by rw [hl]; simp)
    exact p.marks_numbered_inj h hm
  cases hl : (walkedFrom rules before p).bindings.lookup i with
  | some k => exact (hmem hl).symm
  | none =>
    cases label with
    | none => rfl
    | some k =>
      have hm := (mem_bindings_iff rules before p i k).2 h
      have hno := List.lookup_eq_none_iff.1 hl (i, k) hm
      exact absurd rfl (bne_iff_ne.1 hno)

theorem lookup_bindings_eq (rules rules' : Rules) (before before' : Progress Nat) (p : Program Unit)
    (node : Nat) :
    (walkedFrom rules before p).bindings.lookup node =
      (walkedFrom rules' before' p).bindings.lookup node := by
  by_cases h : ∃ label, (node, label) ∈ p.numbered.marks
  · obtain ⟨label, h⟩ := h
    rw [lookup_bindings_of_mem _ _ h, lookup_bindings_of_mem _ _ h]
  · have hnone (rules : Rules) (before : Progress Nat) :
        (walkedFrom rules before p).bindings.lookup node = none := by
      rw [List.lookup_eq_none_iff]
      intro hyp hm
      obtain ⟨i, k⟩ := hyp
      have hmark := (mem_bindings_iff rules before p i k).1 hm
      exact bne_iff_ne.2 fun he => h ⟨some k, he ▸ hmark⟩
    rw [hnone, hnone]

/-- The walk over a numbered program from any state comes to its end with every scope and function
closed. A reference, wherever its site is, is bound to the innermost scope around it that declares its
name ahead of it, and to nothing exactly if no scope around it does. So what references are bound to is
the same under all settings, with all known globals and after all earlier walks. -/
theorem binds_lexically (config : Config) (natives : List String) (before : Progress Nat)
    (p : Program Unit) :
    let q := p.numbered
    let outcome := (walkProgram (rulesFor config natives p) q).run before
    let progress := outcome.2
    outcome.1 = [] ∧ progress.scopes = [] ∧ progress.functionDepth = 0 ∧
      (∀ r ∈ q.references, ∃ (i : Nat) (around : List Nat),
        q.sites[i]? = some ⟨.reference r, around⟩) ∧
      (∀ (i : Nat) (r : Reference Nat) (around : List Nat),
        q.sites[i]? = some ⟨.reference r, around⟩ →
          (∀ k, progress.bindings.lookup r.ref = some k ↔ BindsTo q.sites i r.name around k) ∧
            (progress.bindings.lookup r.ref = none ↔
              ∀ scope ∈ around, ¬ DeclaredBefore q.sites i r.name scope)) ∧
      ∀ (config' : Config) (natives' : List String) (before' : Progress Nat) (node : Nat),
        ((walkProgram (rulesFor config' natives' p) q).run before').2.bindings.lookup node =
          progress.bindings.lookup node := by
  have hw := walked_walkedFrom (rulesFor config natives p) before p
  have hdone : ((walkProgram (rulesFor config natives p) p.numbered).run before).1 = [] := by
    rw [walkProgram_eq]
  refine ⟨hdone, List.map_eq_nil_iff.1 hw.names, hw.functionDepth,
    fun r hr => Program.exists_site hr, ?_, ?_⟩
  · intro i r around hi
    have hm := mem_siteMarks [] hi
    rw [Program.siteMarks_sites, List.nil_append] at hm
    have hl := lookup_bindings_of_mem (rulesFor config natives p) before hm
    refine ⟨fun k => ?_, ?_⟩
    · exact (iff_of_eq (congrArg (· = some k) hl)).trans hopsIn_held_eq_some_iff
    · exact (iff_of_eq (congrArg (· = none) hl)).trans hopsIn_held_eq_none_iff
  · intro config' natives' before' node
    exact lookup_bindings_eq _ _ before' before p node

/-! ### Resolved programs -/

theorem ofProgram_eq (config : Config) (natives : List String) (p : Program Unit) :
    ofProgram config natives p =
      let progress := walkedFrom (rulesFor config natives p) {} p
      ⟨p.numbered, progress.bindings, progress.findings.reverse⟩ := rfl

theorem program_ofProgram (config : Config) (natives : List String) (p : Program Unit) :
    (ofProgram config natives p).program = p.annotate := by
  rw [← p.annotate_numbered, program, ofProgram_eq]
  refine congrArg (Program.mk p.span) (Stmt.mapAll_eq_annotateAll _ ?_)
  intro m hm
  exact lookup_bindings_of_mem _ _ hm

theorem hasErrors_ofProgram (config : Config) (natives : List String) (p : Program Unit) :
    (ofProgram config natives p).hasErrors = false ↔ p.Accepted config.allowLocalRedeclaration := by
  have h := (walked_walkedFrom (rulesFor config natives p) {} p).clean
  rw [Program.accepted_numbered_iff] at h
  have hall : (ofProgram config natives p).hasErrors = false ↔
      (walkedFrom (rulesFor config natives p) {} p).Clean := by
    simp only [hasErrors, ofProgram_eq, List.any_eq_false, List.mem_reverse, Bool.not_eq_true]
    rfl
  rw [hall, h]
  exact and_iff_right fun _ hf => absurd hf List.not_mem_nil

end Resolution

end Lox

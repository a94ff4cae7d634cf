import Lox.Proofs.Scope.Labels

/-!
# Sites

The scopes, declarations and references of a program, in the order in which they are written down. A
scope is known by the position of the site that opens it, so the order and the scopes around each
reference are told by positions alone. What a scope holds at a reference is what the sites before it
declare there.
-/

namespace Lox

variable {ρ : Type}

inductive SiteKind (ρ : Type) where
  | scope
  | declaration (name : String)
  | reference (r : Reference ρ)

/-- A place in a program and the scopes around it, the innermost first. -/
structure Site (ρ : Type) where
  kind : SiteKind ρ
  around : List Nat

/-! ### The sites of a tree -/

def referenceSites (around : List Nat) (rs : List (Reference ρ)) : List (Site ρ) :=
  rs.map fun r => ⟨.reference r, around⟩

def Expr.sites (around : List Nat) (e : Expr ρ) : List (Site ρ) := referenceSites around e.references

def Expr.optionalSites (around : List Nat) (e : Option (Expr ρ)) : List (Site ρ) :=
  e.elim [] (Expr.sites around)

def headSites (around : List Nat) (name : String) : List (Site ρ) :=
  [⟨.declaration name, around⟩, ⟨.scope, around⟩]

def paramSites (around : List Nat) (params : List Parameter) : List (Site ρ) :=
  params.map fun p => ⟨.declaration p.name, around⟩

mutual

/-- The sites of a statement, where the first of them has the position `first`. A variable is declared
ahead of its initializer, and a function ahead of its scope. -/
def Stmt.sites (around : List Nat) (first : Nat) : Stmt ρ → List (Site ρ)
  | .expression _ e | .print _ e => e.sites around
  | .varDecl _ name e => ⟨.declaration name, around⟩ :: Expr.optionalSites around e
  | .block _ body => ⟨.scope, around⟩ :: Stmt.sitesAll (first :: around) (first + 1) body
  | .conditional _ c t none =>
    let cs := c.sites around
    cs ++ t.sites around (first + cs.length)
  | .conditional _ c t (some e) =>
    let cs := c.sites around
    let ts := cs ++ t.sites around (first + cs.length)
    ts ++ e.sites around (first + ts.length)
  | .loop _ c b =>
    let cs := c.sites around
    cs ++ b.sites around (first + cs.length)
  | .funDecl _ name params body =>
    let inner := (first + 1) :: around
    let ps := paramSites inner params
    headSites around name ++ (ps ++ Stmt.sitesAll inner (first + 2 + ps.length) body)
  | .ret _ e => Expr.optionalSites around e

def Stmt.sitesAll (around : List Nat) (first : Nat) : List (Stmt ρ) → List (Site ρ)
  | [] => []
  | s :: ss =>
    let here := s.sites around first
    here ++ Stmt.sitesAll around (first + here.length) ss

end

def Program.sites (p : Program ρ) : List (Site ρ) := Stmt.sitesAll [] 0 p.statements

/-! ### Names held by scopes -/

def Site.declaredIn? (scope : Nat) : Site ρ → Option String
  | ⟨.declaration name, innermost :: _⟩ => if innermost = scope then some name else none
  | _ => none

def held (sites : List (Site ρ)) (scope : Nat) : List String :=
  (sites.filterMap (Site.declaredIn? scope)).reverse

@[simp] theorem held_nil (scope : Nat) : held (ρ := ρ) [] scope = [] := rfl

theorem held_append (xs ys : List (Site ρ)) (scope : Nat) :
    held (xs ++ ys) scope = held ys scope ++ held xs scope := by
  rw [held, List.filterMap_append, List.reverse_append]
  rfl

theorem held_cons (site : Site ρ) (sites : List (Site ρ)) (scope : Nat) :
    held (site :: sites) scope = held sites scope ++ (site.declaredIn? scope).toList := by
  rw [held, List.filterMap_cons]
  cases site.declaredIn? scope with
  | none => exact (List.append_nil _).symm
  | some name => exact List.reverse_cons

theorem declaredIn?_eq_some_iff {site : Site ρ} {scope : Nat} {name : String} :
    site.declaredIn? scope = some name ↔ ∃ outer, site = ⟨.declaration name, scope :: outer⟩ := by
  rcases site with ⟨kind | name' | r, _ | ⟨innermost, outer⟩⟩
  case declaration.cons =>
    simp only [Site.declaredIn?]
    split
    · subst innermost
      simp
    · simp [*]
  all_goals simp [Site.declaredIn?]

theorem mem_held_iff {sites : List (Site ρ)} {scope : Nat} {name : String} :
    name ∈ held sites scope ↔ ∃ outer, ⟨.declaration name, scope :: outer⟩ ∈ sites := by
  rw [held, List.mem_reverse, List.mem_filterMap]
  simp only [declaredIn?_eq_some_iff]
  constructor
  · intro h
    obtain ⟨site, hs, outer, rfl⟩ := h
    exact ⟨outer, hs⟩
  · intro h
    obtain ⟨outer, hs⟩ := h
    exact ⟨_, hs, outer, rfl⟩

theorem held_referenceSites (around : List Nat) (rs : List (Reference ρ)) (scope : Nat) :
    held (referenceSites around rs) scope = [] := by
  rw [held, List.filterMap_eq_nil_iff.2, List.reverse_nil]
  intro site hs
  obtain ⟨r, -, rfl⟩ := List.mem_map.1 hs
  rfl

/-- Sites from the position `first` on declare `names` in the innermost of the scopes around, and
otherwise only in scopes that they open themselves. -/
def Adds (around : List Nat) (first : Nat) (names : List String) (sites : List (Site ρ)) : Prop :=
  ∀ scope, scope < first ∨ first + sites.length ≤ scope →
    held sites scope = if around.head? = some scope then names else []

theorem Adds.append {around : List Nat} {first : Nat} {names names' : List String}
    {xs ys : List (Site ρ)} (hx : Adds around first names xs)
    (hy : Adds around (first + xs.length) names' ys) :
    Adds around first (names' ++ names) (xs ++ ys) := by
  intro scope hs
  rw [List.length_append] at hs
  rw [held_append, hx scope (by omega), hy scope (by omega)]
  split <;> rfl

theorem adds_referenceSites (around : List Nat) (first : Nat) (rs : List (Reference ρ)) :
    Adds around first [] (referenceSites around rs) := by
  intro scope _
  rw [held_referenceSites]
  split <;> rfl

theorem adds_optionalSites (around : List Nat) (first : Nat) (e : Option (Expr ρ)) :
    Adds around first [] (Expr.optionalSites around e) := by
  cases e with
  | none => exact adds_referenceSites around first []
  | some e => exact adds_referenceSites around first e.references

theorem adds_declaration (around : List Nat) (first : Nat) (name : String) :
    Adds (ρ := ρ) around first [name] [⟨.declaration name, around⟩] := by
  intro scope _
  rw [held_cons, held_nil, List.nil_append]
  cases around with
  | nil => rfl
  | cons innermost outer =>
    simp only [Site.declaredIn?, List.head?_cons, Option.some.injEq]
    split <;> rfl

theorem adds_paramSites (around : List Nat) (first : Nat) (params : List Parameter) :
    Adds (ρ := ρ) around first (paramNames params) (paramSites around params) := by
  induction params generalizing first with
  | nil => exact adds_referenceSites around first []
  | cons p ps ih =>
    rw [paramNames_cons]
    exact (adds_declaration around first p.name).append (ih (first + 1))

theorem Adds.inside {around : List Nat} {first : Nat} {names : List String} {sites : List (Site ρ)}
    (h : Adds (first :: around) (first + 1) names sites) :
    Adds around first [] (⟨.scope, around⟩ :: sites) := by
  intro scope hs
  rw [List.length_cons] at hs
  have hne : first ≠ scope := by omega
  rw [held_cons, h scope (by omega), List.head?_cons, if_neg fun he => hne (Option.some.inj he)]
  split <;> rfl

mutual

theorem Stmt.adds_sites (s : Stmt ρ) (around : List Nat) (first : Nat) :
    Adds around first s.declares (s.sites around first) := by
  have hc (c : Expr ρ) := adds_referenceSites around first c.references
  cases s with
  | expression span e => exact hc e
  | print span e => exact hc e
  | varDecl span name e =>
    exact (adds_declaration around first name).append (adds_optionalSites around _ e)
  | block span body => exact (Stmt.adds_sitesAll body (first :: around) (first + 1)).inside
  | conditional span c t e =>
    have ht := (hc c).append (Stmt.adds_sites t around _)
    rw [List.append_nil] at ht
    cases e with
    | none => exact ht
    | some e => exact ht.append (Stmt.adds_sites e around _)
  | loop span c b =>
    have h := (hc c).append (Stmt.adds_sites b around _)
    rw [List.append_nil] at h
    exact h
  | funDecl span name params body =>
    have hp := adds_paramSites (ρ := ρ) ((first + 1) :: around) (first + 1 + 1) params
    have hin := hp.append (Stmt.adds_sitesAll body ((first + 1) :: around) _)
    exact (adds_declaration around first name).append hin.inside
  | ret span e => exact adds_optionalSites around first e

theorem Stmt.adds_sitesAll (ss : List (Stmt ρ)) (around : List Nat) (first : Nat) :
    Adds around first (Stmt.declaresAll ss) (Stmt.sitesAll around first ss) := by
  cases ss with
  | nil => exact adds_referenceSites around first []
  | cons s ss => exact (Stmt.adds_sites s around first).append (Stmt.adds_sitesAll ss around _)

end

/-! ### Scopes at a site -/

/-- The scopes around a place behind the sites `past`: they are different, all of them are open, and a
scope that is still to come holds nothing. -/
structure Around (past : List (Site ρ)) (around : List Nat) : Prop where
  below : ∀ n ∈ around, n < past.length
  nodup : around.Nodup
  fresh : ∀ n, past.length ≤ n → held past n = []

theorem around_nil : Around (ρ := ρ) [] [] :=
  ⟨fun _ h => absurd h List.not_mem_nil, List.nodup_nil, fun _ _ => rfl⟩

theorem Around.append {past : List (Site ρ)} {around : List Nat} (h : Around past around)
    {names : List String} {sites : List (Site ρ)} (hs : Adds around past.length names sites) :
    Around (past ++ sites) around where
  below := fun n hn => by
    rw [List.length_append]
    exact Nat.lt_add_right _ (h.below n hn)
  nodup := h.nodup
  fresh := fun n hn => by
    rw [List.length_append] at hn
    rw [held_append, h.fresh n (by omega), List.append_nil, hs n (Or.inr hn), if_neg]
    intro hh
    have hlt := h.below n (List.mem_of_mem_head? hh)
    omega

theorem Around.map_held {past : List (Site ρ)} {around : List Nat} (h : Around past around)
    {names : List String} {sites : List (Site ρ)} (hs : Adds around past.length names sites) :
    around.map (held (past ++ sites)) = extendScope names (around.map (held past)) := by
  have hheld (n : Nat) (hn : n ∈ around) :
      held (past ++ sites) n = (if around.head? = some n then names else []) ++ held past n := by
    rw [held_append, hs n (Or.inl (h.below n hn))]
  rw [List.map_congr_left hheld]
  have hnd := h.nodup
  cases around with
  | nil => rfl
  | cons innermost outer =>
    rw [List.map_cons, List.map_cons, extendScope_cons, List.head?_cons, if_pos rfl]
    refine congrArg (List.cons _) (List.map_congr_left fun n hn => ?_)
    rw [if_neg, List.nil_append]
    intro he
    obtain rfl := Option.some.inj he
    exact (List.nodup_cons.1 hnd).1 hn

theorem Around.enter {past : List (Site ρ)} {around : List Nat} (h : Around past around) :
    Around (past ++ [⟨.scope, around⟩]) (past.length :: around) where
  below := by
    rw [List.length_append, List.forall_mem_cons]
    exact ⟨Nat.lt_succ_self _, fun n hn => Nat.lt_succ_of_lt (h.below n hn)⟩
  nodup := List.nodup_cons.2 ⟨fun hm => Nat.lt_irrefl _ (h.below _ hm), h.nodup⟩
  fresh := fun n hn => by
    rw [List.length_append] at hn
    rw [held_append, h.fresh n (by omega), List.append_nil]
    rfl

theorem Around.map_held_enter {past : List (Site ρ)} {around : List Nat} (h : Around past around) :
    (past.length :: around).map (held (past ++ [⟨.scope, around⟩])) =
      [] :: around.map (held past) := by
  have hheld (n : Nat) : held (past ++ [⟨.scope, around⟩]) n = held past n := by
    rw [held_append]
    rfl
  rw [List.map_congr_left fun n _ => hheld n, List.map_cons, h.fresh _ (Nat.le_refl _)]

theorem Around.enterFunction {past : List (Site ρ)} {around : List Nat} (h : Around past around)
    (name : String) :
    Around (past ++ headSites around name) ((past.length + 1) :: around) ∧
      ((past.length + 1) :: around).map (held (past ++ headSites around name)) =
        [] :: extendScope [name] (around.map (held past)) := by
  have hname := adds_declaration (ρ := ρ) around past.length name
  have hf := h.append hname
  have hin := hf.enter
  have hheld := hf.map_held_enter
  rw [h.map_held hname, List.append_assoc, List.length_append] at hheld
  rw [List.append_assoc, List.length_append] at hin
  exact ⟨hin, hheld⟩

/-! ### Hops at a site -/

def Site.reference? : Site ρ → Option (Reference ρ)
  | ⟨.reference r, _⟩ => some r
  | _ => none

def Site.mark? (past : List (Site ρ)) : Site ρ → Option (ρ × Option Nat)
  | ⟨.reference r, around⟩ => some (r.ref, hopsIn r.name (around.map (held past)))
  | _ => none

def siteMarks (past : List (Site ρ)) : List (Site ρ) → List (ρ × Option Nat)
  | [] => []
  | site :: sites => (site.mark? past).toList ++ siteMarks (past ++ [site]) sites

theorem siteMarks_append (past xs ys : List (Site ρ)) :
    siteMarks past (xs ++ ys) = siteMarks past xs ++ siteMarks (past ++ xs) ys := by
  induction xs generalizing past with
  | nil => rw [List.append_nil]; rfl
  | cons site xs ih =>
    rw [List.cons_append, siteMarks, siteMarks, ih, List.append_assoc, List.append_assoc]
    rfl

theorem mem_siteMarks (past : List (Site ρ)) {sites : List (Site ρ)} {i : Nat} {r : Reference ρ}
    {around : List Nat} (h : sites[i]? = some ⟨.reference r, around⟩) :
    (r.ref, hopsIn r.name (around.map (held (past ++ sites.take i)))) ∈ siteMarks past sites := by
  induction sites generalizing past i with
  | nil => cases h
  | cons site sites ih =>
    rw [siteMarks, List.mem_append]
    cases i with
    | zero =>
      obtain rfl := Option.some.inj h
      refine Or.inl ?_
      rw [List.take_zero, List.append_nil]
      exact List.mem_singleton.2 rfl
    | succ i =>
      have h' := ih (past ++ [site]) h
      rw [List.append_assoc] at h'
      exact Or.inr h'

theorem siteMarks_referenceSites (past : List (Site ρ)) (around : List Nat)
    (rs : List (Reference ρ)) :
    siteMarks past (referenceSites around rs) =
      rs.map fun r => (r.ref, hopsIn r.name (around.map (held past))) := by
  induction rs generalizing past with
  | nil => rfl
  | cons r rs ih =>
    have hheld : held (past ++ [⟨.reference r, around⟩]) = held past := by
      funext n
      rw [held_append]
      rfl
    have h := ih (past ++ [⟨.reference r, around⟩])
    rw [hheld] at h
    exact congrArg (List.cons _) h

theorem Expr.siteMarks_sites (past : List (Site ρ)) (around : List Nat) (e : Expr ρ) :
    siteMarks past (e.sites around) = exprMarks (around.map (held past)) e := by
  rw [exprMarks_eq]
  exact siteMarks_referenceSites past around e.references

theorem Expr.siteMarks_optionalSites (past : List (Site ρ)) (around : List Nat)
    (e : Option (Expr ρ)) :
    siteMarks past (Expr.optionalSites around e) = optionalMarks (around.map (held past)) e := by
  cases e with
  | none => rfl
  | some e => exact Expr.siteMarks_sites past around e

theorem siteMarks_paramSites (past : List (Site ρ)) (around : List Nat) (params : List Parameter) :
    siteMarks past (paramSites around params) = [] := by
  induction params generalizing past with
  | nil => rfl
  | cons p ps ih => exact ih (past ++ [⟨.declaration p.name, around⟩])

mutual

theorem Stmt.siteMarks_sites (s : Stmt ρ) {past : List (Site ρ)} {around : List Nat}
    (h : Around past around) :
    siteMarks past (s.sites around past.length) = stmtMarks (around.map (held past)) s := by
  have hadds (c : Expr ρ) : Adds around past.length [] (c.sites around) :=
    adds_referenceSites around past.length c.references
  cases s with
  | expression span e =>
    rw [stmtMarks_expression]
    exact Expr.siteMarks_sites past around e
  | print span e =>
    rw [stmtMarks_print]
    exact Expr.siteMarks_sites past around e
  | varDecl span name e =>
    rw [stmtMarks_varDecl, ← h.map_held (adds_declaration around past.length name)]
    exact Expr.siteMarks_optionalSites _ around e
  | block span body =>
    rw [stmtMarks_block, ← h.map_held_enter, ← Stmt.siteMarks_sitesAll body h.enter,
      List.length_append]
    rfl
  | conditional span c t e =>
    -- the condition adds no declarations, so the branch stands in the same scopes
    have hc := h.append (hadds c)
    have ht := Stmt.siteMarks_sites t hc
    rw [h.map_held (hadds c), extendScope_nothing, List.length_append] at ht
    cases e with
    | none =>
      rw [stmtMarks_if, ← ht, ← Expr.siteMarks_sites, ← siteMarks_append]
      rfl
    | some e =>
      have hadds' := (hadds c).append (Stmt.adds_sites t around _)
      have he := Stmt.siteMarks_sites e (h.append hadds')
      rw [h.map_held hadds', List.append_nil, List.length_append] at he
      rw [stmtMarks_ifElse, ← he, ← ht, ← Expr.siteMarks_sites, ← siteMarks_append,
        ← siteMarks_append]
      rfl
  | loop span c b =>
    have hb := Stmt.siteMarks_sites b (h.append (hadds c))
    rw [h.map_held (hadds c), extendScope_nothing, List.length_append] at hb
    rw [stmtMarks_loop, ← hb, ← Expr.siteMarks_sites, ← siteMarks_append]
    rfl
  | funDecl span name params body =>
    obtain ⟨hin, hheld⟩ := h.enterFunction name
    have hps := adds_paramSites (ρ := ρ) ((past.length + 1) :: around)
      (past ++ headSites around name).length params
    have hbody := Stmt.siteMarks_sitesAll body (hin.append hps)
    rw [hin.map_held hps, hheld, extendScope_cons, List.append_nil, List.length_append,
      List.length_append] at hbody
    rw [stmtMarks_funDecl, ← hbody, Stmt.sites, siteMarks_append, siteMarks_append,
      siteMarks_paramSites]
    rfl
  | ret span e =>
    rw [stmtMarks_ret]
    exact Expr.siteMarks_optionalSites past around e

theorem Stmt.siteMarks_sitesAll (ss : List (Stmt ρ)) {past : List (Site ρ)} {around : List Nat}
    (h : Around past around) :
    siteMarks past (Stmt.sitesAll around past.length ss) =
      stmtsMarks (around.map (held past)) ss := by
  cases ss with
  | nil => rfl
  | cons s ss =>
    have hs := Stmt.adds_sites s around past.length
    have hss := Stmt.siteMarks_sitesAll ss (h.append hs)
    rw [h.map_held hs, List.length_append] at hss
    rw [stmtsMarks_cons, ← hss, ← Stmt.siteMarks_sites s h, ← siteMarks_append]
    rfl

end

end Lox

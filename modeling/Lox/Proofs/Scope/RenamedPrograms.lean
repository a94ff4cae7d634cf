import Lox.Proofs.Scope.Erasure
import Lox.Proofs.Scope.Renaming

/-!
# Renamed programs are accepted

Where no scope may declare a name twice, the scope that declares a variable declares no function of its
name, so renaming the variable renames all that the scope holds under the name. The renamed program is
accepted, and resolving it gives every reference the hops that it had.
-/

namespace Lox

variable {ρ : Type} {x y : String}

/-! ### What a statement declares -/

theorem Stmt.not_mem_declares (s : Stmt ρ) (h : y ∉ s.names) : y ∉ s.declares := by
  cases s with
  | varDecl span name e =>
    cases e with
    | none => exact h
    | some e => exact fun hy => h (List.mem_cons.mpr (Or.inl (List.mem_singleton.mp hy)))
  | funDecl span name params body =>
    exact fun hy => h (List.mem_cons.mpr (Or.inl (List.mem_singleton.mp hy)))
  | conditional span c t e =>
    cases e with
    | none =>
      simp only [Stmt.names, List.mem_append, not_or] at h
      exact Stmt.not_mem_declares t h.2
    | some e =>
      simp only [Stmt.names, Stmt.declares, List.mem_append, not_or] at h ⊢
      exact ⟨Stmt.not_mem_declares e h.2, Stmt.not_mem_declares t h.1.2⟩
  | loop span c b =>
    simp only [Stmt.names, List.mem_append, not_or] at h
    exact Stmt.not_mem_declares b h.2
  | _ => exact List.not_mem_nil

theorem Stmt.mem_declares_of_declaredAs {kind : DeclarationKind} (s : Stmt ρ)
    (h : x ∈ s.declaredAs kind) : x ∈ s.declares := by
  cases s with
  | varDecl span name e | funDecl span name params body =>
    unfold Stmt.declaredAs at h
    split at h
    · exact h
    · cases h
  | conditional span c t e =>
    cases e with
    | none => exact Stmt.mem_declares_of_declaredAs t h
    | some e =>
      exact List.mem_append.mpr ((List.mem_append.mp h).imp (Stmt.mem_declares_of_declaredAs e)
        (Stmt.mem_declares_of_declaredAs t))
  | loop span c b => exact Stmt.mem_declares_of_declaredAs b h
  | _ => cases h

theorem Stmt.mem_declaresAll_of_declaredAsAll {kind : DeclarationKind} (ss : List (Stmt ρ))
    (h : x ∈ Stmt.declaredAsAll kind ss) : x ∈ Stmt.declaresAll ss := by
  induction ss with
  | nil => exact h
  | cons s ss ih =>
    exact List.mem_append.mpr ((List.mem_append.mp h).imp ih (Stmt.mem_declares_of_declaredAs s))

/-! ### No name twice -/

/-- What is accepted without redeclarations declares no name that the innermost scope holds. -/
theorem Stmt.not_mem_of_declares {held : List String} {scopes : List (List String)} {inFunction : Bool}
    (s : Stmt ρ) (ha : s.Accepted false (held :: scopes) inFunction) (h : x ∈ s.declares) : x ∉ held := by
  cases s with
  | varDecl span name e =>
    obtain rfl := List.mem_singleton.mp h
    exact freeIn_cons_iff.mp (ha.1.resolve_left nofun)
  | funDecl span name params body =>
    obtain rfl := List.mem_singleton.mp h
    exact freeIn_cons_iff.mp (ha.1.resolve_left nofun)
  | conditional span c t e =>
    cases e with
    | none => exact Stmt.not_mem_of_declares t ha h
    | some e =>
      rcases List.mem_append.mp h with he | ht
      · exact fun hx => Stmt.not_mem_of_declares e ha.2 he (List.mem_append_right _ hx)
      · exact Stmt.not_mem_of_declares t ha.1 ht
  | loop span c b => exact Stmt.not_mem_of_declares b ha h
  | _ => cases h

theorem Stmt.not_mem_of_declaresAll {held : List String} {scopes : List (List String)}
    {inFunction : Bool} (ss : List (Stmt ρ))
    (ha : Stmt.AcceptedAll false (held :: scopes) inFunction ss) (h : x ∈ Stmt.declaresAll ss) :
    x ∉ held := by
  induction ss generalizing held with
  | nil => cases h
  | cons s ss ih =>
    rcases List.mem_append.mp h with hss | hs
    · exact fun hx => ih ha.2 hss (List.mem_append_right _ hx)
    · exact Stmt.not_mem_of_declares s ha.1 hs

theorem Stmt.not_variable_of_function {held : List String} {scopes : List (List String)}
    {inFunction : Bool} (s : Stmt ρ) (ha : s.Accepted false (held :: scopes) inFunction)
    (hf : x ∈ s.declaredAs .function) : x ∉ s.declaredAs .variable := by
  cases s with
  | varDecl span name e => cases hf
  | funDecl span name params body => exact List.not_mem_nil
  | conditional span c t e =>
    cases e with
    | none => exact Stmt.not_variable_of_function t ha hf
    | some e =>
      intro hv
      have hapart (kind kind' : DeclarationKind) (h : x ∈ e.declaredAs kind)
          (h' : x ∈ t.declaredAs kind') : False :=
        Stmt.not_mem_of_declares e ha.2 (Stmt.mem_declares_of_declaredAs e h)
          (List.mem_append_left held (Stmt.mem_declares_of_declaredAs t h'))
      rcases List.mem_append.mp hf with hf | hf <;> rcases List.mem_append.mp hv with hv | hv
      · exact Stmt.not_variable_of_function e ha.2 hf hv
      · exact hapart _ _ hf hv
      · exact hapart _ _ hv hf
      · exact Stmt.not_variable_of_function t ha.1 hf hv
  | loop span c b => exact Stmt.not_variable_of_function b ha hf
  | _ => cases hf

theorem Stmt.not_variable_of_functionAll {held : List String} {scopes : List (List String)}
    {inFunction : Bool} (ss : List (Stmt ρ))
    (ha : Stmt.AcceptedAll false (held :: scopes) inFunction ss)
    (hf : x ∈ Stmt.declaredAsAll .function ss) : x ∉ Stmt.declaredAsAll .variable ss := by
  induction ss generalizing held with
  | nil => cases hf
  | cons s ss ih =>
    intro hv
    have hapart (kind kind' : DeclarationKind) (h : x ∈ Stmt.declaredAsAll kind ss)
        (h' : x ∈ s.declaredAs kind') : False :=
      Stmt.not_mem_of_declaresAll ss ha.2 (Stmt.mem_declaresAll_of_declaredAsAll ss h)
        (List.mem_append_left held (Stmt.mem_declares_of_declaredAs s h'))
    rcases List.mem_append.mp hf with hf | hf <;> rcases List.mem_append.mp hv with hv | hv
    · exact ih ha.2 hf hv
    · exact hapart _ _ hf hv
    · exact hapart _ _ hv hf
    · exact Stmt.not_variable_of_function s ha.1 hf hv

theorem Stmt.not_function_of_variable {held : List String} {scopes : List (List String)}
    {inFunction : Bool} {ss : List (Stmt ρ)}
    (ha : Stmt.AcceptedAll false (held :: scopes) inFunction ss)
    (hx : x ∈ Stmt.declaredAsAll .variable ss ++ held) : x ∉ Stmt.declaredAsAll .function ss := by
  intro hf
  rcases List.mem_append.mp hx with hv | hheld
  · exact Stmt.not_variable_of_functionAll ss ha hf hv
  · exact Stmt.not_mem_of_declaresAll ss ha (Stmt.mem_declaresAll_of_declaredAsAll ss hf) hheld

/-! ### Labels -/

theorem not_mem_of_append {p : Prop} {names others : List String} (h : p → x ∉ names ++ others) :
    (p → x ∉ names) ∧ (p → x ∉ others) :=
  ⟨fun hp hx => h hp (List.mem_append_left others hx), fun hp hx => h hp (List.mem_append_right names hx)⟩

theorem renamedDeclaration_of_ne {name : String} (h : name ≠ x) (depth : Nat) :
    renamedDeclaration x y depth name = name := by
  unfold renamedDeclaration renamed
  rw [if_neg h, ite_self]

theorem Stmt.declares_renameIn (s : Stmt (Option Nat)) (depth : Nat)
    (hf : depth = 0 → x ∉ s.declaredAs .function) :
    (s.renameIn x y depth).declares = renamedNames x y depth s.declares := by
  cases s with
  | funDecl span name params body =>
    cases depth with
    | zero =>
      have hne : name ≠ x := fun h => hf rfl (List.mem_singleton.mpr h.symm)
      exact congrArg (fun n => [n]) (renamedDeclaration_of_ne hne 0).symm
    | succ depth => rfl
  | conditional span c t e =>
    cases e with
    | none => exact Stmt.declares_renameIn t depth hf
    | some e =>
      obtain ⟨hfe, hft⟩ := not_mem_of_append hf
      have he := Stmt.declares_renameIn e depth hfe
      have ht := Stmt.declares_renameIn t depth hft
      simp only [Stmt.renameIn, Stmt.declares, he, ht, renamedNames, List.map_append]
  | loop span c b => exact Stmt.declares_renameIn b depth hf
  | _ => rfl

mutual

theorem Stmt.annotate_renameIn (s : Stmt (Option Nat)) {scopes : List (List String)} (depth : Nat)
    (hy : Unheld y scopes) (hn : y ∉ s.names) (hf : depth = 0 → x ∉ s.declaredAs .function)
    (hs : s.annotate hopsLabel scopes = s) :
    (s.renameIn x y depth).annotate hopsLabel (renameScope x y depth scopes) =
      s.renameIn x y depth := by
  cases s with
  | expression span e | print span e =>
    injection hs with _ he
    simp only [Stmt.renameIn, Stmt.annotate, Expr.annotate_renameIn e depth hy hn he]
  | varDecl span name e =>
    injection hs with _ _ he
    have hname : y ∉ [name] := Stmt.not_mem_declares _ hn
    have hoptional : ∀ e', e = some e' → y ∉ e'.names := by
      rintro e' rfl
      exact fun h => hn (List.mem_cons_of_mem name h)
    have hscope := @extendScope_renamedNames x y depth [name] scopes
    rw [renamedNames, List.map_singleton] at hscope
    simp only [Stmt.renameIn, Stmt.annotate, hscope,
      Expr.map_annotate_renameIn depth (hy.extendScope hname) hoptional he]
  | block span body =>
    injection hs with _ hbody
    -- the scope of the variable is now one further out
    have hinner : Unheld y ([] :: scopes) := hy.cons List.not_mem_nil
    have h := Stmt.annotateAll_renameAllIn body (depth + 1) hinner hn nofun hbody
    rw [renameScope_succ] at h
    simp only [Stmt.renameIn, Stmt.annotate, h]
  | conditional span c t e =>
    cases e with
    | none =>
      simp only [Stmt.names, List.mem_append, not_or] at hn
      injection hs with _ hc ht
      simp only [Stmt.renameIn, Stmt.annotate, Expr.annotate_renameIn c depth hy hn.1 hc,
        Stmt.annotate_renameIn t depth hy hn.2 hf ht]
    | some e =>
      simp only [Stmt.names, List.mem_append, not_or] at hn
      injection hs with _ hc ht he
      obtain ⟨hfe, hft⟩ := not_mem_of_append hf
      have hye := hy.extendScope (Stmt.not_mem_declares t hn.1.2)
      simp only [Stmt.renameIn, Stmt.annotate, Expr.annotate_renameIn c depth hy hn.1.1 hc,
        Stmt.annotate_renameIn t depth hy hn.1.2 hft ht, Stmt.declares_renameIn t depth hft,
        extendScope_renamedNames, Stmt.annotate_renameIn e depth hye hn.2 hfe (Option.some.inj he)]
  | loop span c b =>
    simp only [Stmt.names, List.mem_append, not_or] at hn
    injection hs with _ hc hb
    simp only [Stmt.renameIn, Stmt.annotate, Expr.annotate_renameIn c depth hy hn.1 hc,
      Stmt.annotate_renameIn b depth hy hn.2 hf hb]
  | funDecl span name params body =>
    simp only [Stmt.names, List.mem_cons, List.mem_append, not_or] at hn
    injection hs with _ _ _ hbody
    have hname : y ∉ [name] := fun h => hn.1 (List.mem_singleton.mp h)
    have hinner : Unheld y (paramNames params :: extendScope [name] scopes) :=
      (hy.extendScope hname).cons hn.2.1
    have h := Stmt.annotateAll_renameAllIn body (depth + 1) hinner hn.2.2 nofun hbody
    -- the name of the function is kept: where the variable is declared no function is named `x`
    have hkept : [name] = renamedNames x y depth [name] :=
      Stmt.declares_renameIn (.funDecl span name params body) depth hf
    have hscope := @extendScope_renamedNames x y depth [name] scopes
    rw [← hkept] at hscope
    rw [renameScope_succ, ← hscope] at h
    simp only [Stmt.renameIn, Stmt.annotate, h]
  | ret span e =>
    injection hs with _ he
    have hoptional : ∀ e', e = some e' → y ∉ e'.names := by
      rintro e' rfl
      exact hn
    simp only [Stmt.renameIn, Stmt.annotate, Expr.map_annotate_renameIn depth hy hoptional he]

theorem Stmt.annotateAll_renameAllIn (ss : List (Stmt (Option Nat))) {scopes : List (List String)}
    (depth : Nat) (hy : Unheld y scopes) (hn : y ∉ Stmt.namesAll ss)
    (hf : depth = 0 → x ∉ Stmt.declaredAsAll .function ss)
    (hs : Stmt.annotateAll hopsLabel scopes ss = ss) :
    Stmt.annotateAll hopsLabel (renameScope x y depth scopes) (Stmt.renameAllIn x y depth ss) =
      Stmt.renameAllIn x y depth ss := by
  cases ss with
  | nil => rfl
  | cons s ss =>
    simp only [Stmt.namesAll, List.mem_append, not_or] at hn
    injection hs with hs hss
    obtain ⟨hfss, hfs⟩ := not_mem_of_append hf
    have hyss := hy.extendScope (Stmt.not_mem_declares s hn.1)
    simp only [Stmt.renameAllIn, Stmt.annotateAll, Stmt.annotate_renameIn s depth hy hn.1 hfs hs,
      Stmt.declares_renameIn s depth hfs, extendScope_renamedNames,
      Stmt.annotateAll_renameAllIn ss depth hyss hn.2 hfss hss]

end

/-! ### Acceptance -/

theorem freeIn_renameScope {name : String} {scopes : List (List String)} (depth : Nat)
    (hy : Unheld y scopes) (hn : name ≠ y) (h : FreeIn name scopes) :
    FreeIn (renamedDeclaration x y depth name) (renameScope x y depth scopes) := by
  cases scopes with
  | nil => simpa using freeIn_nil _
  | cons held scopes =>
    have hheld := freeIn_cons_iff.mp h
    cases depth with
    | zero => exact freeIn_cons_iff.mpr (mt (mem_map_renamed hn (hy held List.mem_cons_self)).mp hheld)
    | succ depth => exact freeIn_cons_iff.mpr hheld

theorem Expr.not_mem_reads_renameIn {e : Expr (Option Nat)} (depth : Nat) {name : String}
    (hy : y ∉ e.names) (hn : name ≠ y) (h : name ∉ e.reads) :
    renamedDeclaration x y depth name ∉ (e.renameIn x y depth).reads := by
  intro hmem
  rw [Expr.reads, Expr.references_renameIn, Reference.namesOf, List.filter_map, List.map_map] at hmem
  obtain ⟨r, hr, heq⟩ := List.mem_map.mp hmem
  obtain ⟨hr, hreads⟩ := List.mem_filter.mp hr
  have hry : r.name ≠ y := ne_of_mem_of_not_mem (List.mem_map_of_mem hr) hy
  have hne : r.name ≠ name := fun hname => h (hname ▸ Reference.mem_namesOf hr (beq_iff_eq.mp hreads))
  simp only [Function.comp_apply, Reference.renameIn, renamedRef, renamedDeclaration, renamed] at heq
  grind

mutual

theorem Stmt.accepted_renameIn (s : Stmt (Option Nat)) {scopes : List (List String)} {inFunction : Bool}
    (depth : Nat) (hy : Unheld y scopes) (hn : y ∉ s.names)
    (hf : depth = 0 → x ∉ s.declaredAs .function) (ha : s.Accepted false scopes inFunction) :
    (s.renameIn x y depth).Accepted false (renameScope x y depth scopes) inFunction := by
  cases s with
  | expression span e | print span e => trivial
  | varDecl span name e =>
    have hname : name ≠ y := fun h => Stmt.not_mem_declares _ hn (List.mem_singleton.mpr h.symm)
    refine ⟨Or.inr (freeIn_renameScope depth hy hname (ha.1.resolve_left nofun)), fun e' he' hne => ?_⟩
    obtain ⟨e, rfl, rfl⟩ := Option.map_eq_some_iff.mp he'
    have hscopes : scopes ≠ [] := fun h => hne (by rw [h, renameScope_nil])
    exact Expr.not_mem_reads_renameIn depth (fun h => hn (List.mem_cons_of_mem name h)) hname
      (ha.2 e rfl hscopes)
  | block span body =>
    exact Stmt.acceptedAll_renameAllIn body (depth + 1) (hy.cons List.not_mem_nil) hn nofun ha
  | conditional span c t e =>
    cases e with
    | none =>
      simp only [Stmt.names, List.mem_append, not_or] at hn
      exact Stmt.accepted_renameIn t depth hy hn.2 hf ha
    | some e =>
      simp only [Stmt.names, List.mem_append, not_or] at hn
      obtain ⟨hfe, hft⟩ := not_mem_of_append hf
      have hye := hy.extendScope (Stmt.not_mem_declares t hn.1.2)
      have he := Stmt.accepted_renameIn e depth hye hn.2 hfe ha.2
      rw [← extendScope_renamedNames, ← Stmt.declares_renameIn t depth hft] at he
      exact ⟨Stmt.accepted_renameIn t depth hy hn.1.2 hft ha.1, he⟩
  | loop span c b =>
    simp only [Stmt.names, List.mem_append, not_or] at hn
    exact Stmt.accepted_renameIn b depth hy hn.2 hf ha
  | funDecl span name params body =>
    simp only [Stmt.names, List.mem_cons, List.mem_append, not_or] at hn
    obtain ⟨hdeclare, hparams, hbody⟩ := ha
    have hname : y ∉ [name] := fun h => hn.1 (List.mem_singleton.mp h)
    have hkept : [name] = renamedNames x y depth [name] :=
      Stmt.declares_renameIn (.funDecl span name params body) depth hf
    have hinner : Unheld y (paramNames params :: extendScope [name] scopes) :=
      (hy.extendScope hname).cons hn.2.1
    have hfree := freeIn_renameScope (x := x) depth hy (Ne.symm hn.1) (hdeclare.resolve_left nofun)
    have h := Stmt.acceptedAll_renameAllIn body (depth + 1) hinner hn.2.2 nofun hbody
    rw [renameScope_succ, ← extendScope_renamedNames, ← hkept] at h
    rw [← (List.cons.inj hkept).1] at hfree
    exact ⟨Or.inr hfree, hparams, h⟩
  | ret span e => exact ha

theorem Stmt.acceptedAll_renameAllIn (ss : List (Stmt (Option Nat))) {scopes : List (List String)}
    {inFunction : Bool} (depth : Nat) (hy : Unheld y scopes) (hn : y ∉ Stmt.namesAll ss)
    (hf : depth = 0 → x ∉ Stmt.declaredAsAll .function ss)
    (ha : Stmt.AcceptedAll false scopes inFunction ss) :
    Stmt.AcceptedAll false (renameScope x y depth scopes) inFunction (Stmt.renameAllIn x y depth ss) := by
  cases ss with
  | nil => trivial
  | cons s ss =>
    simp only [Stmt.namesAll, List.mem_append, not_or] at hn
    obtain ⟨hfss, hfs⟩ := not_mem_of_append hf
    have hyss := hy.extendScope (Stmt.not_mem_declares s hn.1)
    have hss := Stmt.acceptedAll_renameAllIn ss depth hyss hn.2 hfss ha.2
    rw [← extendScope_renamedNames, ← Stmt.declares_renameIn s depth hfs] at hss
    exact ⟨Stmt.accepted_renameIn s depth hy hn.1 hfs ha.1, hss⟩

end

/-! ### Hops -/

def hopsOf (rs : List (Reference (Option Nat))) : List (Option Nat) := rs.map Reference.ref

theorem hopsOf_append (rs ts : List (Reference (Option Nat))) :
    hopsOf (rs ++ ts) = hopsOf rs ++ hopsOf ts :=
  List.map_append

theorem Expr.hopsOf_renameIn (e : Expr (Option Nat)) (depth : Nat) :
    hopsOf (e.renameIn x y depth).references = hopsOf e.references := by
  rw [Expr.references_renameIn, hopsOf, List.map_map]
  rfl

mutual

theorem Stmt.hopsOf_renameIn (s : Stmt (Option Nat)) (depth : Nat) :
    hopsOf (s.renameIn x y depth).references = hopsOf s.references := by
  cases s with
  | expression span e | print span e => exact Expr.hopsOf_renameIn e depth
  | varDecl span name e | ret span e =>
    cases e with
    | none => rfl
    | some e => exact Expr.hopsOf_renameIn e depth
  | block span body | funDecl span name params body => exact Stmt.hopsOf_renameAllIn body (depth + 1)
  | conditional span c t e =>
    cases e <;>
      simp only [Stmt.renameIn, Stmt.references, hopsOf_append, Expr.hopsOf_renameIn,
        Stmt.hopsOf_renameIn]
  | loop span c b =>
    simp only [Stmt.renameIn, Stmt.references, hopsOf_append, Expr.hopsOf_renameIn,
      Stmt.hopsOf_renameIn b]

theorem Stmt.hopsOf_renameAllIn (ss : List (Stmt (Option Nat))) (depth : Nat) :
    hopsOf (Stmt.referencesAll (Stmt.renameAllIn x y depth ss)) = hopsOf (Stmt.referencesAll ss) := by
  cases ss with
  | nil => rfl
  | cons s ss =>
    simp only [Stmt.renameAllIn, Stmt.referencesAll, hopsOf_append, Stmt.hopsOf_renameIn s,
      Stmt.hopsOf_renameAllIn ss]

end

/-! ### One local of a program -/

namespace Stmt

theorem RenamesLocal.declares {s s' : Stmt (Option Nat)} (h : RenamesLocal x y s s') :
    s'.declares = s.declares := by
  cases s with
  | conditional span c t e =>
    cases h with
    | inThen ht =>
      have heq := RenamesLocal.declares ht
      cases e <;> simp only [Stmt.declares, heq]
    | inElse he => simp only [Stmt.declares, RenamesLocal.declares he]
  | loop span c b =>
    cases h with
    | inLoop hb => simp only [Stmt.declares, RenamesLocal.declares hb]
  | _ => cases h <;> rfl

mutual

theorem RenamesLocal.hops {s s' : Stmt (Option Nat)} (h : RenamesLocal x y s s') :
    hopsOf s'.references = hopsOf s.references := by
  cases s with
  | block span body =>
    cases h with
    | ofBlock => exact hopsOf_renameAllIn body 0
    | inBlock hb => exact RenamesLocalAll.hops hb
  | conditional span c t e =>
    cases h with
    | inThen ht =>
      have heq := RenamesLocal.hops ht
      cases e <;> simp only [Stmt.references, hopsOf_append, heq]
    | inElse he => simp only [Stmt.references, hopsOf_append, RenamesLocal.hops he]
  | loop span c b =>
    cases h with
    | inLoop hb => simp only [Stmt.references, hopsOf_append, RenamesLocal.hops hb]
  | funDecl span name params body =>
    cases h with
    | ofFunction => exact hopsOf_renameAllIn body 0
    | inFunction hb => exact RenamesLocalAll.hops hb
  | _ => cases h

theorem RenamesLocalAll.hops {ss ss' : List (Stmt (Option Nat))} (h : RenamesLocalAll x y ss ss') :
    hopsOf (Stmt.referencesAll ss') = hopsOf (Stmt.referencesAll ss) := by
  cases ss with
  | nil => cases h
  | cons s ss =>
    cases h with
    | head hs => simp only [Stmt.referencesAll, hopsOf_append, RenamesLocal.hops hs]
    | tail hss => simp only [Stmt.referencesAll, hopsOf_append, RenamesLocalAll.hops hss]

end

mutual

/-- The renamed program is accepted, and resolving it labels its references as they are labelled. -/
theorem RenamesLocal.resolved {s s' : Stmt (Option Nat)} {scopes : List (List String)}
    {inFunction : Bool} (h : RenamesLocal x y s s') (hy : Unheld y scopes) (hn : y ∉ s.names)
    (ha : s.Accepted false scopes inFunction) (hs : s.annotate hopsLabel scopes = s) :
    s'.Accepted false scopes inFunction ∧ s'.annotate hopsLabel scopes = s' := by
  cases s with
  | block span body =>
    injection hs with _ hbody
    have hinner : Unheld y ([] :: scopes) := hy.cons List.not_mem_nil
    cases h with
    | ofBlock hx =>
      -- the renaming begins in this block, which declares the variable and so no function `x`
      have hf : 0 = 0 → x ∉ Stmt.declaredAsAll .function body := fun _ =>
        not_function_of_variable ha (List.mem_append_left [] hx)
      have haccepted := acceptedAll_renameAllIn body 0 hinner hn hf ha
      have hlabels := annotateAll_renameAllIn body 0 hinner hn hf hbody
      rw [renameScope_zero, List.map_nil] at haccepted hlabels
      exact ⟨haccepted, by rw [Stmt.annotate, hlabels]⟩
    | inBlock hb =>
      obtain ⟨haccepted, hlabels⟩ := RenamesLocalAll.resolved hb hinner hn ha hbody
      exact ⟨haccepted, by rw [Stmt.annotate, hlabels]⟩
  | conditional span c t e =>
    cases h with
    | inThen ht =>
      have hdeclares := ht.declares
      cases e with
      | none =>
        simp only [Stmt.names, List.mem_append, not_or] at hn
        injection hs with _ hc hlt
        obtain ⟨haccepted, hlabels⟩ := RenamesLocal.resolved ht hy hn.2 ha hlt
        exact ⟨haccepted, by rw [Stmt.annotate, hc, hlabels]⟩
      | some e =>
        simp only [Stmt.names, List.mem_append, not_or] at hn
        injection hs with _ hc hlt hle
        obtain ⟨haccepted, hlabels⟩ := RenamesLocal.resolved ht hy hn.1.2 ha.1 hlt
        refine ⟨⟨haccepted, hdeclares ▸ ha.2⟩, ?_⟩
        rw [Stmt.annotate, hc, hlabels, hdeclares, hle]
    | inElse he =>
      simp only [Stmt.names, List.mem_append, not_or] at hn
      injection hs with _ hc hlt hle
      have hye := hy.extendScope (Stmt.not_mem_declares t hn.1.2)
      obtain ⟨haccepted, hlabels⟩ := RenamesLocal.resolved he hye hn.2 ha.2 (Option.some.inj hle)
      exact ⟨⟨ha.1, haccepted⟩, by rw [Stmt.annotate, hc, hlt, hlabels]⟩
  | loop span c b =>
    simp only [Stmt.names, List.mem_append, not_or] at hn
    injection hs with _ hc hlb
    cases h with
    | inLoop hb =>
      obtain ⟨haccepted, hlabels⟩ := RenamesLocal.resolved hb hy hn.2 ha hlb
      exact ⟨haccepted, by rw [Stmt.annotate, hc, hlabels]⟩
  | funDecl span name params body =>
    simp only [Stmt.names, List.mem_cons, List.mem_append, not_or] at hn
    obtain ⟨hdeclare, hparams, hbodyAccepted⟩ := ha
    injection hs with _ _ _ hbody
    have hname : y ∉ [name] := fun h => hn.1 (List.mem_singleton.mp h)
    have hinner : Unheld y (paramNames params :: extendScope [name] scopes) :=
      (hy.extendScope hname).cons hn.2.1
    cases h with
    | ofFunction hx =>
      have hf : 0 = 0 → x ∉ Stmt.declaredAsAll .function body := fun _ =>
        not_function_of_variable hbodyAccepted hx
      have haccepted := acceptedAll_renameAllIn body 0 hinner hn.2.2 hf hbodyAccepted
      have hlabels := annotateAll_renameAllIn body 0 hinner hn.2.2 hf hbody
      rw [renameScope_zero, ← paramNames_map_rename] at haccepted hlabels
      refine ⟨⟨hdeclare, ?_, haccepted⟩, by rw [Stmt.annotate, hlabels]⟩
      rw [paramNames_map_rename]
      exact nodup_map_renamed hparams hn.2.1
    | inFunction hb =>
      obtain ⟨haccepted, hlabels⟩ := RenamesLocalAll.resolved hb hinner hn.2.2 hbodyAccepted hbody
      exact ⟨⟨hdeclare, hparams, haccepted⟩, by rw [Stmt.annotate, hlabels]⟩
  | _ => cases h

theorem RenamesLocalAll.resolved {ss ss' : List (Stmt (Option Nat))} {scopes : List (List String)}
    {inFunction : Bool} (h : RenamesLocalAll x y ss ss') (hy : Unheld y scopes)
    (hn : y ∉ Stmt.namesAll ss) (ha : Stmt.AcceptedAll false scopes inFunction ss)
    (hs : Stmt.annotateAll hopsLabel scopes ss = ss) :
    Stmt.AcceptedAll false scopes inFunction ss' ∧ Stmt.annotateAll hopsLabel scopes ss' = ss' := by
  cases ss with
  | nil => cases h
  | cons s ss =>
    simp only [Stmt.namesAll, List.mem_append, not_or] at hn
    injection hs with hls hlss
    cases h with
    | head hh =>
      obtain ⟨haccepted, hlabels⟩ := RenamesLocal.resolved hh hy hn.1 ha.1 hls
      refine ⟨⟨haccepted, hh.declares ▸ ha.2⟩, ?_⟩
      rw [Stmt.annotateAll, hlabels, hh.declares, hlss]
    | tail ht =>
      have hyss := hy.extendScope (Stmt.not_mem_declares s hn.1)
      obtain ⟨haccepted, hlabels⟩ := RenamesLocalAll.resolved ht hyss hn.2 ha.2 hlss
      exact ⟨⟨ha.1, haccepted⟩, by rw [Stmt.annotateAll, hls, hlabels]⟩

end

end Stmt

end Lox

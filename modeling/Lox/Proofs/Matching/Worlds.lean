import Lox.Proofs.Matching.Links

/-!
# Worlds that match

Linked frames have matching entries in one order. What does not depend on scopes is equal, except that the
second run may have printed more before.
-/

namespace Lox.Matching

/-- The second world has printed the texts `before` and then those of the first. -/
structure WorldsMatch (wraps : Prop) (before : List String) (links : List Link) (w w' : World) :
    Prop where
  globals : Link.globals ∈ links
  distinct : ∀ l ∈ links, ∀ m ∈ links, l.left = m.left ∨ l.right = m.right → l = m
  made : ∀ l ∈ links, l.left < w.store.size ∧ l.right < w'.store.size
  entries : ∀ l ∈ links, EntriesMatch wraps links l.names (w.store.frame l.left).values
    (w'.store.frame l.right).values
  printed : w'.printed.toList = before ++ w.printed.toList
  functions : w.functions = w'.functions
  nativeCalls : w.nativeCalls = w'.nativeCalls

namespace WorldsMatch

variable {wraps : Prop} {before : List String} {links : List Link} {w w' : World}

theorem weaken {wraps' : Prop} (hwraps : wraps → wraps') (h : WorldsMatch wraps before links w w') :
    WorldsMatch wraps' before links w w' :=
  { h with entries := fun l hl => (h.entries l hl).imp fun _ _ he => ⟨he.1, he.2.weaken hwraps⟩ }

theorem slot? (h : WorldsMatch wraps before links w w') {l : Link} (hl : l ∈ links) (name : String) :
    Option.Rel (ValueMatches wraps links) (w.store.slot? l.left name)
      (w'.store.slot? l.right (l.names name)) :=
  (h.entries l hl).lookup name

theorem slot?_outermost (h : WorldsMatch wraps before links w w') {σ : List Step}
    {env env' : Environment} (henv : Aligned links σ env.frames env'.frames) (name : String) :
    Option.Rel (ValueMatches wraps links) (w.store.slot? env.outermost name)
      (w'.store.slot? env'.outermost name) := by
  obtain ⟨hout, hout'⟩ := henv.outermost
  rw [hout, hout']
  exact h.slot? h.globals name

theorem define (h : WorldsMatch wraps before links w w') {l : Link} (hl : l ∈ links) (name : String)
    {v v' : Value} (hv : ValueMatches wraps links v v') :
    WorldsMatch wraps before links { w with store := w.store.define l.left name v }
      { w' with store := w'.store.define l.right (l.names name) v' } :=
  { h with
    made := fun m hm => by
      simp only [Store.size_define_eq]
      exact h.made m hm
    entries := fun m hm => by
      by_cases heq : m = l
      · subst heq
        rw [Store.frame_define_self (h.made m hm).1, Store.frame_define_self (h.made m hm).2]
        exact (h.entries m hm).put name hv
      · have hleft : m.left ≠ l.left := fun hleft => heq (h.distinct m hm l hl (Or.inl hleft))
        have hright : m.right ≠ l.right := fun hright => heq (h.distinct m hm l hl (Or.inr hright))
        rw [Store.frame_define_of_ne hleft, Store.frame_define_of_ne hright]
        exact h.entries m hm }

theorem defineOutermost (h : WorldsMatch wraps before links w w') {σ : List Step}
    {env env' : Environment} (henv : Aligned links σ env.frames env'.frames) (name : String)
    {v v' : Value} (hv : ValueMatches wraps links v v') :
    WorldsMatch wraps before links { w with store := w.store.define env.outermost name v }
      { w' with store := w'.store.define env'.outermost name v' } := by
  obtain ⟨hout, hout'⟩ := henv.outermost
  rw [hout, hout']
  exact h.define h.globals name hv

theorem alloc (h : WorldsMatch wraps before links w w') (name name' : String) (π : Equiv.Perm String) :
    WorldsMatch wraps before (⟨w.store.size, w'.store.size, π⟩ :: links)
      { w with store := (w.store.alloc name).2 } { w' with store := (w'.store.alloc name').2 } :=
  { h with
    globals := List.mem_cons_of_mem _ h.globals
    distinct := fun l hl m hm heq => by
      have hold : ∀ k ∈ links, ¬(k.left = w.store.size ∨ k.right = w'.store.size) := fun k hk hnew =>
        hnew.elim (Nat.ne_of_lt (h.made k hk).1) (Nat.ne_of_lt (h.made k hk).2)
      rcases List.mem_cons.mp hl with rfl | hl <;> rcases List.mem_cons.mp hm with rfl | hm
      · rfl
      · exact absurd (heq.imp Eq.symm Eq.symm) (hold m hm)
      · exact absurd heq (hold l hl)
      · exact h.distinct l hl m hm heq
    made := fun l hl => by
      simp only [Store.size_alloc]
      rcases List.mem_cons.mp hl with rfl | hl
      · exact ⟨Nat.lt_succ_self _, Nat.lt_succ_self _⟩
      · exact ⟨Nat.lt_succ_of_lt (h.made l hl).1, Nat.lt_succ_of_lt (h.made l hl).2⟩
    entries := fun l hl => by
      rcases List.mem_cons.mp hl with rfl | hl
      · have hleft := w.store.frame_alloc name
        have hright := w'.store.frame_alloc name'
        rw [Store.fst_alloc] at hleft hright
        rw [hleft, hright]
        exact .nil
      · rw [Store.frame_alloc_of_lt (h.made l hl).1, Store.frame_alloc_of_lt (h.made l hl).2]
        exact (h.entries l hl).mono (List.subset_cons_self _ _) }

theorem allocRight (h : WorldsMatch wraps before links w w') (name : String) :
    WorldsMatch wraps before links w { w' with store := (w'.store.alloc name).2 } :=
  { h with
    made := fun l hl => by
      simp only [Store.size_alloc]
      exact ⟨(h.made l hl).1, Nat.lt_succ_of_lt (h.made l hl).2⟩
    entries := fun l hl => by
      rw [Store.frame_alloc_of_lt (h.made l hl).2]
      exact h.entries l hl }

theorem print (h : WorldsMatch wraps before links w w') (text : String) :
    WorldsMatch wraps before links { w with printed := w.printed.push text }
      { w' with printed := w'.printed.push text } :=
  { h with printed := by simp [h.printed] }

theorem countFunction (h : WorldsMatch wraps before links w w') :
    WorldsMatch wraps before links { w with functions := w.functions + 1 }
      { w' with functions := w'.functions + 1 } :=
  { h with functions := congrArg (· + 1) h.functions }

theorem countNativeCall (h : WorldsMatch wraps before links w w') :
    WorldsMatch wraps before links { w with nativeCalls := w.nativeCalls + 1 }
      { w' with nativeCalls := w'.nativeCalls + 1 } :=
  { h with nativeCalls := congrArg (· + 1) h.nativeCalls }

end WorldsMatch

end Lox.Matching

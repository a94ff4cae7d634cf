import Lox.Proofs.Loops.Links

/-!
# Worlds of two runs

Linked frames hold matching values under the same names. What does not depend on frames is equal. A world
whose functions have captured no frames but its own matches itself, with each frame linked to itself.
-/

namespace Lox.Loops

/-- No frame is linked twice, linked frames are there, and what they hold matches. -/
structure WorldsMatch (links : Links) (w w' : World) : Prop where
  distinct : ∀ l ∈ links, ∀ m ∈ links, l.1 = m.1 ∨ l.2 = m.2 → l = m
  made : ∀ l ∈ links, l.1 < w.store.size ∧ l.2 < w'.store.size
  slots : ∀ l ∈ links, ∀ name, Option.Rel (ValueMatches links) (w.store.slot? l.1 name)
    (w'.store.slot? l.2 name)
  printed : w.printed = w'.printed
  functions : w.functions = w'.functions
  nativeCalls : w.nativeCalls = w'.nativeCalls

theorem slot?_size (s : Store) (name : String) : s.slot? s.size name = none := by
  cases h : s.slot? s.size name with
  | none => rfl
  | some v => exact absurd (Store.lt_size_of_slot? h) (Nat.lt_irrefl s.size)

/-! ### Every frame with itself -/

def selfLinks (n : Nat) : Links := (List.range n).map fun a => (a, a)

theorem mem_selfLinks {n : Nat} {l : FrameId × FrameId} : l ∈ selfLinks n ↔ l.1 = l.2 ∧ l.1 < n := by
  obtain ⟨a, b⟩ := l
  simp only [selfLinks, List.mem_map, List.mem_range, Prod.mk.injEq]
  constructor
  · rintro ⟨c, hc, rfl, rfl⟩
    exact ⟨rfl, hc⟩
  · rintro ⟨rfl, ha⟩
    exact ⟨a, ha, rfl, rfl⟩

namespace WorldsMatch

variable {links : Links} {w w' : World}

theorem refl (hw : w.store.Complete) : WorldsMatch (selfLinks w.store.size) w w where
  distinct l hl m hm heq := by
    obtain ⟨hl, -⟩ := mem_selfLinks.mp hl
    obtain ⟨hm, -⟩ := mem_selfLinks.mp hm
    have hfst : l.1 = m.1 := heq.elim id fun h => by rw [hl, hm, h]
    exact Prod.ext hfst (by rw [← hl, ← hm, hfst])
  made l hl := by
    obtain ⟨heq, hlt⟩ := mem_selfLinks.mp hl
    exact ⟨hlt, heq ▸ hlt⟩
  slots l hl name := by
    obtain ⟨heq, hlt⟩ := mem_selfLinks.mp hl
    rw [← heq]
    cases hv : w.store.slot? l.1 name with
    | none => exact .none
    | some v => exact .some (.refl fun a ha => mem_selfLinks.mpr ⟨rfl, hw l.1 name v hlt hv a ha⟩)
  printed := rfl
  functions := rfl
  nativeCalls := rfl

theorem same_iff (hw : WorldsMatch links w w') {l m : FrameId × FrameId} (hl : l ∈ links)
    (hm : m ∈ links) : l.1 = m.1 ↔ l.2 = m.2 :=
  ⟨fun h => congrArg Prod.snd (hw.distinct l hl m hm (Or.inl h)),
    fun h => congrArg Prod.fst (hw.distinct l hl m hm (Or.inr h))⟩

/-! ### Steps -/

theorem define (hw : WorldsMatch links w w') {l : FrameId × FrameId} (hl : l ∈ links) (name : String)
    {v v' : Value} (hv : ValueMatches links v v') :
    WorldsMatch links { w with store := w.store.define l.1 name v }
      { w' with store := w'.store.define l.2 name v' } :=
  { hw with
    made := fun m hm => by
      simp only [Store.size_define_eq]
      exact hw.made m hm
    slots := fun m hm x => by
      have hsame : m.1 = l.1 ↔ m.2 = l.2 := hw.same_iff hm hl
      simp only [Store.slot?_define (hw.made l hl).1, Store.slot?_define (hw.made l hl).2, hsame]
      split
      · exact .some hv
      · exact hw.slots m hm x }

theorem alloc (hw : WorldsMatch links w w') (name : String) :
    WorldsMatch ((w.store.size, w'.store.size) :: links) { w with store := (w.store.alloc name).2 }
      { w' with store := (w'.store.alloc name).2 } :=
  { hw with
    distinct := fun l hl m hm heq => by
      have hold : ∀ k ∈ links, ¬(k.1 = w.store.size ∨ k.2 = w'.store.size) := fun k hk hnew =>
        hnew.elim (Nat.ne_of_lt (hw.made k hk).1) (Nat.ne_of_lt (hw.made k hk).2)
      rcases List.mem_cons.mp hl with rfl | hl <;> rcases List.mem_cons.mp hm with rfl | hm
      · rfl
      · exact absurd (heq.imp Eq.symm Eq.symm) (hold m hm)
      · exact absurd heq (hold l hl)
      · exact hw.distinct l hl m hm heq
    made := fun l hl => by
      simp only [Store.size_alloc]
      rcases List.mem_cons.mp hl with rfl | hl
      · exact ⟨Nat.lt_succ_self _, Nat.lt_succ_self _⟩
      · exact ⟨Nat.lt_succ_of_lt (hw.made l hl).1, Nat.lt_succ_of_lt (hw.made l hl).2⟩
    slots := fun l hl x => by
      simp only [Store.slot?_alloc]
      rcases List.mem_cons.mp hl with rfl | hl
      · rw [slot?_size, slot?_size]
        exact .none
      · exact rel_mono (hw.slots l hl x) fun _ _ h => h.mono (List.subset_cons_self _ _) }

theorem allocLeft (hw : WorldsMatch links w w') (name : String) :
    WorldsMatch links { w with store := (w.store.alloc name).2 } w' :=
  { hw with
    made := fun l hl => by
      simp only [Store.size_alloc]
      exact ⟨Nat.lt_succ_of_lt (hw.made l hl).1, (hw.made l hl).2⟩
    slots := fun l hl x => by
      simp only [Store.slot?_alloc]
      exact hw.slots l hl x }

theorem allocRight (hw : WorldsMatch links w w') (name : String) :
    WorldsMatch links w { w' with store := (w'.store.alloc name).2 } :=
  { hw with
    made := fun l hl => by
      simp only [Store.size_alloc]
      exact ⟨(hw.made l hl).1, Nat.lt_succ_of_lt (hw.made l hl).2⟩
    slots := fun l hl x => by
      simp only [Store.slot?_alloc]
      exact hw.slots l hl x }

theorem print (hw : WorldsMatch links w w') (text : String) :
    WorldsMatch links { w with printed := w.printed.push text }
      { w' with printed := w'.printed.push text } :=
  { hw with printed := congrArg (·.push text) hw.printed }

theorem countFunction (hw : WorldsMatch links w w') :
    WorldsMatch links { w with functions := w.functions + 1 }
      { w' with functions := w'.functions + 1 } :=
  { hw with functions := congrArg (· + 1) hw.functions }

theorem countNativeCall (hw : WorldsMatch links w w') :
    WorldsMatch links { w with nativeCalls := w.nativeCalls + 1 }
      { w' with nativeCalls := w'.nativeCalls + 1 } :=
  { hw with nativeCalls := congrArg (· + 1) hw.nativeCalls }

end WorldsMatch

end Lox.Loops

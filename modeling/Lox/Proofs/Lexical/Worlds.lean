import Lox.Proofs.Lexical.Slots

/-!
# Worlds that correspond

A world of frames corresponds to one of cells if the slots filled so far hold what the cells hold, the
globals are the same table, and all that does not depend on scopes is equal.
-/

namespace Lox.Lexical

/-- The slots of local names go with the cells, one to one. -/
structure Corresponds (slots : List Slot) (w : Lox.World) (v : World) : Prop where
  distinct : slots.Nodup
  made : 0 < w.store.size
  length : v.cells.length = slots.length
  inner : ∀ s ∈ slots, s.1 ≠ 0
  cells : ∀ (l : Location) id name, slots[l]? = some (id, name) →
    ∃ a b, w.store.slot? id name = some a ∧ v.cells[l]? = some b ∧ ValueLike slots a b
  filled : ∀ id name a, id ≠ 0 → w.store.slot? id name = some a → (id, name) ∈ slots
  globals : ∀ name, Option.Rel (ValueLike slots) (w.store.slot? 0 name) (v.globals name)
  printed : w.printed = v.printed
  functions : w.functions = v.functions
  nativeCalls : w.nativeCalls = v.nativeCalls

namespace Corresponds

variable {slots : List Slot} {w : Lox.World} {v : World}

theorem lt_size (h : Corresponds slots w v) {id : FrameId} {name : String} (hs : (id, name) ∈ slots) :
    id < w.store.size := by
  obtain ⟨l, hl⟩ := List.mem_iff_getElem?.mp hs
  obtain ⟨a, b, ha, -⟩ := h.cells l id name hl
  exact Store.lt_size_of_slot? ha

theorem read (h : Corresponds slots w v) {l : Location} {id : FrameId} {name : String}
    (hs : slots[l]? = some (id, name)) :
    ∃ a, w.store.slot? id name = some a ∧ ValueLike slots a (v.cells.getD l default) := by
  obtain ⟨a, b, ha, hb, hab⟩ := h.cells l id name hs
  have hget : v.cells.getD l default = b := by rw [List.getD_eq_getElem?_getD, hb, Option.getD_some]
  exact ⟨a, ha, hget ▸ hab⟩

theorem global_cases (h : Corresponds slots w v) (name : String) :
    (∃ a b, w.store.slot? 0 name = some a ∧ v.globals name = some b ∧ ValueLike slots a b) ∨
      (w.store.slot? 0 name = none ∧ v.globals name = none) :=
  rel_cases (h.globals name)

theorem alloc (h : Corresponds slots w v) (name : String) :
    Corresponds slots { w with store := (w.store.alloc name).2 } v :=
  { h with
    made := by
      rw [Store.size_alloc]
      exact Nat.succ_pos w.store.size
    cells := fun l id x hs => by
      rw [Store.slot?_alloc]
      exact h.cells l id x hs
    filled := fun id x a hid ha => by
      rw [Store.slot?_alloc] at ha
      exact h.filled id x a hid ha
    globals := fun x => by
      rw [Store.slot?_alloc]
      exact h.globals x }

theorem assign (h : Corresponds slots w v) {l : Location} {id : FrameId} {name : String}
    {a : Lox.Value} {b : Value} (hs : slots[l]? = some (id, name)) (hab : ValueLike slots a b) :
    Corresponds slots { w with store := w.store.define id name a } { v with cells := v.cells.set l b } := by
  have hmem : (id, name) ∈ slots := List.mem_of_getElem? hs
  have hid := h.lt_size hmem
  have hne : id ≠ 0 := h.inner (id, name) hmem
  have hslot := Store.slot?_define hid name a
  refine
    { h with
      made := by
        rw [Store.size_define_eq]
        exact h.made
      length := by rw [List.length_set, h.length]
      cells := fun l' id' x hs' => ?_
      filled := fun id' x a' hid' ha' => ?_
      globals := fun x => ?_ }
  · rw [hslot, List.getElem?_set]
    by_cases hl : l = l'
    · subst hl
      obtain ⟨rfl, rfl⟩ := Prod.mk.inj (Option.some.inj (hs.symm.trans hs'))
      have hlt : l < v.cells.length := by
        rw [h.length]
        exact (List.getElem?_eq_some_iff.mp hs).1
      rw [if_pos ⟨rfl, rfl⟩, if_pos rfl, if_pos hlt]
      exact ⟨a, b, rfl, rfl, hab⟩
    · -- the slots are distinct, so another location has another slot
      have hother : ¬(id' = id ∧ x = name) := by
        intro hyp
        obtain ⟨rfl, rfl⟩ := hyp
        have hlt := (List.getElem?_eq_some_iff.mp hs).1
        exact hl ((List.getElem?_inj hlt h.distinct).mp (hs.trans hs'.symm))
      rw [if_neg hother, if_neg hl]
      exact h.cells l' id' x hs'
  · rw [hslot] at ha'
    split at ha'
    · rename_i heq
      rw [heq.1, heq.2]
      exact hmem
    · exact h.filled id' x a' hid' ha'
  · rw [hslot, if_neg fun heq => hne heq.1.symm]
    exact h.globals x

theorem declare (h : Corresponds slots w v) {id : FrameId} {name : String} {a : Lox.Value} {b : Value}
    (hne : id ≠ 0) (hid : id < w.store.size) (hnew : (id, name) ∉ slots)
    (hab : ValueLike (slots ++ [(id, name)]) a b) :
    Corresponds (slots ++ [(id, name)]) { w with store := w.store.define id name a }
      { v with cells := v.cells ++ [b] } := by
  have hslot := Store.slot?_define hid name a
  refine
    { h with
      distinct := ?_
      made := by
        rw [Store.size_define_eq]
        exact h.made
      length := by rw [List.length_append, List.length_append, h.length]; rfl
      inner := fun s hs => ?_
      cells := fun l id' x hs => ?_
      filled := fun id' x a' hid' ha' => ?_
      globals := fun x => ?_ }
  · rw [List.nodup_append]
    refine ⟨h.distinct, List.pairwise_singleton _ _, fun s hs t ht => ?_⟩
    rw [List.mem_singleton.mp ht]
    exact fun heq => hnew (heq ▸ hs)
  · rcases List.mem_append.mp hs with hs | hs
    · exact h.inner s hs
    · rw [List.mem_singleton.mp hs]
      exact hne
  -- the last cell is that of the new slot, and all others are as they were
  · rw [hslot]
    by_cases hl : l < slots.length
    · rw [List.getElem?_append_left hl] at hs
      have hother : ¬(id' = id ∧ x = name) := by
        intro hyp
        obtain ⟨rfl, rfl⟩ := hyp
        exact hnew (List.mem_of_getElem? hs)
      rw [if_neg hother, List.getElem?_append_left (h.length.symm ▸ hl)]
      obtain ⟨a', b', ha', hb', hab'⟩ := h.cells l id' x hs
      exact ⟨a', b', ha', hb', hab'.mono⟩
    · have hle : slots.length ≤ l := Nat.le_of_not_lt hl
      rw [List.getElem?_append_right hle, List.getElem?_singleton] at hs
      split at hs
      · rename_i hz
        obtain ⟨rfl, rfl⟩ := Prod.mk.inj (Option.some.inj hs)
        rw [if_pos ⟨rfl, rfl⟩, List.getElem?_append_right (h.length.symm ▸ hle), h.length, hz]
        exact ⟨a, b, rfl, rfl, hab⟩
      · cases hs
  · rw [hslot] at ha'
    split at ha'
    · rename_i heq
      rw [heq.1, heq.2]
      exact List.mem_append_right slots List.mem_cons_self
    · exact List.mem_append_left _ (h.filled id' x a' hid' ha')
  · rw [hslot, if_neg fun heq => hne heq.1.symm]
    exact rel_mono (h.globals x) fun _ _ h => h.mono

theorem defineGlobal (h : Corresponds slots w v) (name : String) {a : Lox.Value} {b : Value}
    (hab : ValueLike slots a b) :
    Corresponds slots { w with store := w.store.define 0 name a }
      { v with globals := fun x => if x = name then some b else v.globals x } := by
  have hslot := Store.slot?_define h.made name a
  refine
    { h with
      made := by
        rw [Store.size_define_eq]
        exact h.made
      cells := fun l id x hs => ?_
      filled := fun id x a' hid ha' => ?_
      globals := fun x => ?_ }
  · have hid : id ≠ 0 := h.inner (id, x) (List.mem_of_getElem? hs)
    rw [hslot, if_neg fun heq => hid heq.1]
    exact h.cells l id x hs
  · rw [hslot, if_neg fun heq => hid heq.1] at ha'
    exact h.filled id x a' hid ha'
  · rw [hslot]
    show Option.Rel (ValueLike slots) _ (if x = name then some b else v.globals x)
    by_cases hx : x = name
    · rw [if_pos ⟨rfl, hx⟩, if_pos hx]
      exact .some hab
    · rw [if_neg fun heq => hx heq.2, if_neg hx]
      exact h.globals x

theorem print (h : Corresponds slots w v) (text : String) :
    Corresponds slots { w with printed := w.printed.push text }
      { v with printed := v.printed.push text } :=
  { h with printed := congrArg (fun p => p.push text) h.printed }

theorem countFunction (h : Corresponds slots w v) :
    Corresponds slots { w with functions := w.functions + 1 }
      { v with functions := v.functions + 1 } :=
  { h with functions := congrArg (· + 1) h.functions }

theorem countNativeCall (h : Corresponds slots w v) :
    Corresponds slots { w with nativeCalls := w.nativeCalls + 1 }
      { v with nativeCalls := v.nativeCalls + 1 } :=
  { h with nativeCalls := congrArg (· + 1) h.nativeCalls }

end Corresponds

/-! ### Later worlds -/

/-- What evaluation adds: slots in one frame that is its own, if it has one, and in new frames. -/
structure Later (own : Option FrameId) (slots slots' : List Slot) (w w' : Lox.World) : Prop where
  grows : w.store.size ≤ w'.store.size
  added : ∃ more, slots' = slots ++ more ∧ ∀ s ∈ more, own = some s.1 ∨ w.store.size ≤ s.1

namespace Later

variable {own : Option FrameId} {slots slots' slots'' : List Slot} {w w' w'' : Lox.World}

theorem same (own : Option FrameId) (slots : List Slot) (hw : w.store.size ≤ w'.store.size) :
    Later own slots slots w w' :=
  ⟨hw, [], (List.append_nil slots).symm, fun _ h => nomatch h⟩

theorem refl (own : Option FrameId) (slots : List Slot) (w : Lox.World) : Later own slots slots w w :=
  same own slots (Nat.le_refl w.store.size)

theorem declare (slots : List Slot) {w w' : Lox.World} (hw : w.store.size ≤ w'.store.size) (id : FrameId)
    (name : String) : Later (some id) slots (slots ++ [(id, name)]) w w' := by
  refine ⟨hw, [(id, name)], rfl, fun s hs => Or.inl ?_⟩
  rw [List.mem_singleton.mp hs]

theorem trans (h : Later own slots slots' w w') (h' : Later own slots' slots'' w' w'') :
    Later own slots slots'' w w'' := by
  obtain ⟨more, rfl, hmore⟩ := h.added
  obtain ⟨more', rfl, hmore'⟩ := h'.added
  refine ⟨Nat.le_trans h.grows h'.grows, more ++ more', List.append_assoc _ _ _, fun s hs => ?_⟩
  rcases List.mem_append.mp hs with hs | hs
  · exact hmore s hs
  · exact (hmore' s hs).imp_right (Nat.le_trans h.grows)

theorem weaken (h : Later none slots slots' w w') (own : Option FrameId) :
    Later own slots slots' w w' := by
  obtain ⟨more, heq, hmore⟩ := h.added
  exact ⟨h.grows, more, heq, fun s hs => Or.inr ((hmore s hs).resolve_left nofun)⟩

theorem inside {id : FrameId} (h : Later (some id) slots slots' w' w'')
    (hid : w.store.size ≤ id) (hw : w.store.size ≤ w'.store.size) :
    Later none slots slots' w w'' := by
  obtain ⟨more, heq, hmore⟩ := h.added
  refine ⟨Nat.le_trans hw h.grows, more, heq, fun s hs => Or.inr ?_⟩
  rcases hmore s hs with hown | hnew
  · rw [← Option.some.inj hown]
    exact hid
  · exact Nat.le_trans hw hnew

theorem valueLike (h : Later own slots slots' w w') {a : Lox.Value} {b : Value}
    (hab : ValueLike slots a b) : ValueLike slots' a b := by
  obtain ⟨more, rfl, -⟩ := h.added
  exact hab.mono

theorem sees (h : Later own slots slots' w w') {scopes : List (List String)} {env : Environment}
    {lenv : Env} (hs : Sees slots scopes env lenv) : Sees slots' scopes env lenv := by
  obtain ⟨more, rfl, -⟩ := h.added
  exact hs.mono

end Later

/-! ### Places -/

/-- A place in a program that runs: what it sees, and that its frame holds no more than its innermost
scope. -/
structure At (slots : List Slot) (w : Lox.World) (scopes : List (List String)) (env : Environment)
    (lenv : Env) : Prop where
  sees : Sees slots scopes env lenv
  made : env.frame < w.store.size
  holds : ∀ names rest, scopes = names :: rest →
    env.frame ≠ 0 ∧ ∀ x, (env.frame, x) ∈ slots → x ∈ names

/-- A new frame inside what is in sight is a place, whatever has become of the frames around it. -/
theorem Sees.at_child {slots : List Slot} {w : Lox.World} {v : World} {scopes : List (List String)}
    {env : Environment} {lenv : Env} (h : Sees slots scopes env lenv) (hc : Corresponds slots w v)
    (name : String) :
    At slots { w with store := (w.store.alloc name).2 } ([] :: scopes) (env.child w.store.size) lenv := by
  refine ⟨h.child _, ?_, fun names rest hs => ⟨?_, fun x hx => ?_⟩⟩
  · rw [Store.size_alloc]
    exact Nat.lt_succ_self w.store.size
  · exact Nat.ne_of_gt hc.made
  · exact absurd (hc.lt_size hx) (Nat.lt_irrefl w.store.size)

namespace At

variable {slots slots' : List Slot} {w w' : Lox.World} {scopes : List (List String)}
  {env : Environment} {lenv : Env}

theorem later (h : At slots w scopes env lenv) (hl : Later none slots slots' w w') :
    At slots' w' scopes env lenv := by
  obtain ⟨more, rfl, hmore⟩ := hl.added
  refine ⟨h.sees.mono, Nat.lt_of_lt_of_le h.made hl.grows, fun names rest hs => ?_⟩
  obtain ⟨hne, hheld⟩ := h.holds names rest hs
  refine ⟨hne, fun x hx => ?_⟩
  rcases List.mem_append.mp hx with hx | hx
  · exact hheld x hx
  · have hge := (hmore (env.frame, x) hx).resolve_left nofun
    exact absurd h.made (Nat.not_lt_of_le hge)

theorem not_mem (h : At slots w scopes env lenv) {name : String} (hne : scopes ≠ [])
    (hfree : FreeIn name scopes) : (env.frame, name) ∉ slots := by
  obtain ⟨names, rest, rfl⟩ := List.exists_cons_of_ne_nil hne
  exact fun hs => freeIn_cons_iff.mp hfree ((h.holds names rest rfl).2 name hs)

theorem frame_ne (h : At slots w scopes env lenv) (hne : scopes ≠ []) : env.frame ≠ 0 := by
  obtain ⟨names, rest, rfl⟩ := List.exists_cons_of_ne_nil hne
  exact (h.holds names rest rfl).1

theorem child {v : World} (h : At slots w scopes env lenv) (hc : Corresponds slots w v) (name : String) :
    At slots { w with store := (w.store.alloc name).2 } ([] :: scopes) (env.child w.store.size) lenv :=
  h.sees.at_child hc name

theorem declare (h : At slots w scopes env lenv) (hne : scopes ≠ []) (name : String) {w' : Lox.World}
    (hw : w.store.size ≤ w'.store.size) :
    At (slots ++ [(env.frame, name)]) w' (extendScope [name] scopes) env
      ((name, slots.length) :: lenv) := by
  refine ⟨h.sees.declare hne name, Nat.lt_of_lt_of_le h.made hw, fun names rest hs => ?_⟩
  refine ⟨h.frame_ne hne, fun x hx => ?_⟩
  obtain ⟨held, outer, rfl⟩ := List.exists_cons_of_ne_nil hne
  rw [extendScope_cons] at hs
  rw [← (List.cons.inj hs).1]
  rcases List.mem_append.mp hx with hx | hx
  · exact List.mem_append_right [name] ((h.holds held outer rfl).2 x hx)
  · rw [(Prod.mk.inj (List.mem_singleton.mp hx)).2]
    exact List.mem_append_left held List.mem_cons_self

end At

end Lox.Lexical

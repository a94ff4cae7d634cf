import Lox.Evaluation
import Mathlib.Data.List.Basic

/-!
# Slots

What the store holds for a name in a frame, and how making a frame and defining a name change it. All
that reading and assigning a local name do is told by the slot that its hops lead to.
-/

namespace Lox

/-! ### Frames -/

namespace Frame

theorem lookup_map_replace (name x : String) (v : Value) (entries : List (String × Value)) :
    (entries.map fun e => if e.1 == name then (name, v) else e).lookup x =
      if x = name then (entries.lookup name).map fun _ => v else entries.lookup x := by
  induction entries with
  | nil => simp
  | cons e entries ih =>
    obtain ⟨k, u⟩ := e
    rw [List.map_cons]
    by_cases hk : k = name
    · subst hk
      by_cases hx : x = k
      · subst hx
        simp
      · have hb : (x == k) = false := beq_false_of_ne hx
        simp only [beq_self_eq_true, if_true, List.lookup_cons, hb, ih, if_neg hx]
    · have hb : (k == name) = false := beq_false_of_ne hk
      by_cases hx : x = k
      · subst hx
        simp [hb, hk]
      · have hxb : (x == k) = false := beq_false_of_ne hx
        have hnb : (name == k) = false := beq_false_of_ne (Ne.symm hk)
        simp only [hb, Bool.false_eq_true, if_false, List.lookup_cons, hxb, hnb, ih]

theorem lookup_append_fresh {name : String} {entries : List (String × Value)}
    (h : entries.lookup name = none) (x : String) (v : Value) :
    (entries ++ [(name, v)]).lookup x = if x = name then some v else entries.lookup x := by
  induction entries with
  | nil =>
    by_cases hx : x = name
    · subst hx
      simp
    · simp [List.lookup_cons, beq_false_of_ne hx, hx]
  | cons e entries ih =>
    obtain ⟨k, u⟩ := e
    rw [List.lookup_cons] at h
    split at h
    · cases h
    · rename_i hk
      rw [List.cons_append, List.lookup_cons, List.lookup_cons, ih h]
      by_cases hx : x = name
      · subst hx
        rw [hk]
      · rw [if_neg hx, if_neg hx]

theorem get?_put (f : Frame) (name x : String) (v : Value) :
    (f.put name v).get? x = if x = name then some v else f.get? x := by
  have hc := isSome_get? f name
  unfold put
  split
  · rename_i h
    rw [h] at hc
    obtain ⟨u, hu⟩ := Option.isSome_iff_exists.mp hc
    have hm : (f.values.lookup name).map (fun _ => v) = some v := by
      rw [get?] at hu
      rw [hu]
      rfl
    simp only [get?, lookup_map_replace, hm]
  · rename_i h
    rw [Bool.not_eq_true] at h
    rw [h, Option.isSome_eq_false_iff, Option.isNone_iff_eq_none] at hc
    exact lookup_append_fresh hc x v

end Frame

/-! ### The store -/

namespace Store

def slot? (s : Store) (id : FrameId) (name : String) : Option Value := (s.frame id).get? name

def size (s : Store) : Nat := s.frames.size

theorem contains_eq (s : Store) (id : FrameId) (name : String) :
    (s.frame id).contains name = (s.slot? id name).isSome :=
  (Frame.isSome_get? (s.frame id) name).symm

@[simp] theorem size_alloc (s : Store) (name : String) : (s.alloc name).2.size = s.size + 1 := by
  simp [alloc, size]

@[simp] theorem fst_alloc (s : Store) (name : String) : (s.alloc name).1 = s.size := rfl

@[simp] theorem slot?_alloc (s : Store) (name : String) (id : FrameId) (x : String) :
    (s.alloc name).2.slot? id x = s.slot? id x := by
  unfold slot? frame alloc
  simp only [Array.getD_eq_getD_getElem?, Array.getElem?_push]
  split
  · rename_i h
    subst h
    simp [Frame.get?]
  · rfl

@[simp] theorem size_define_eq (s : Store) (id : FrameId) (name : String) (v : Value) :
    (s.define id name v).size = s.size :=
  size_define s id name v

theorem size_le_define (s : Store) (id : FrameId) (name : String) (v : Value) :
    s.size ≤ (s.define id name v).size :=
  Nat.le_of_eq (size_define_eq s id name v).symm

theorem slot?_define {s : Store} {id : FrameId} (h : id < s.size) (name : String) (v : Value)
    (g : FrameId) (x : String) :
    (s.define id name v).slot? g x = if g = id ∧ x = name then some v else s.slot? g x := by
  have hs : id < s.frames.size := h
  unfold slot? frame define
  simp only [Array.getD_eq_getD_getElem?, Array.getElem?_modify]
  by_cases hg : g = id
  · subst hg
    simp only [if_true, true_and, Array.getElem?_eq_getElem hs, Option.map_some, Option.getD_some,
      Frame.get?_put]
  · simp only [if_neg (Ne.symm hg), hg, false_and, if_false]

theorem lt_size_of_slot? {s : Store} {id : FrameId} {name : String} {v : Value}
    (h : s.slot? id name = some v) : id < s.size := by
  by_contra hge
  have hn : s.frames[id]? = none := Array.getElem?_eq_none (Nat.le_of_not_lt hge)
  simp [slot?, frame, Array.getD_eq_getD_getElem?, hn, Frame.get?] at h

theorem ancestor_eq (s : Store) (env : Environment) (hops : Nat) :
    s.ancestor env hops =
      match env.frames[hops]? with
      | some id => .ok id
      | none => .error (.chainTooShort hops (s.frame env.frame).name) := by
  have hd : env.frames[hops]? = (env.frames.drop hops).head? := by simp
  rw [hd]
  unfold ancestor Environment.ancestor?
  cases env.frames.drop hops with
  | nil => rfl
  | cons f fs => rfl

theorem getAt_eq {s : Store} {env : Environment} {hops : Nat} {id : FrameId}
    (h : env.frames[hops]? = some id) (name : String) :
    s.getAt env hops name =
      match s.slot? id name with
      | some v => .ok v
      | none => .error (.unbound name (s.frame id).name hops) := by
  unfold getAt
  rw [ancestor_eq, h]
  change (match (s.frame id).get? name with | some v => _ | none => _) = _
  unfold slot?
  cases (s.frame id).get? name with
  | none => rfl
  | some v => rfl

/-- The hops lead to a frame: assigning needs its slot to be filled. -/
theorem slotAt_eq {s : Store} {env : Environment} {hops : Nat} {id : FrameId}
    (h : env.frames[hops]? = some id) (name : String) :
    s.slotAt env hops name =
      if (s.slot? id name).isSome then .ok id
      else .error (.unbound name (s.frame id).name hops) := by
  unfold slotAt
  rw [ancestor_eq, h]
  simp only [contains_eq]
  change (if _ then _ else _) = _
  split <;> rfl

theorem getGlobal?_eq (s : Store) (env : Environment) (name : String) :
    s.getGlobal? env name = s.slot? env.outermost name := rfl

theorem globalSlot?_eq (s : Store) (env : Environment) (name : String) :
    s.globalSlot? env name =
      if (s.slot? env.outermost name).isSome then some env.outermost else none := by
  rw [globalSlot?, contains_eq]

/-! ### What a change leaves alone -/

theorem frame_alloc_of_lt {s : Store} {id : FrameId} (h : id < s.size) (name : String) :
    (s.alloc name).2.frame id = s.frame id := by
  have hne : id ≠ s.frames.size := Nat.ne_of_lt h
  simp only [frame, alloc, Array.getD_eq_getD_getElem?, Array.getElem?_push, if_neg hne]

theorem frame_define_of_ne {s : Store} {id g : FrameId} (h : g ≠ id) (name : String) (v : Value) :
    (s.define id name v).frame g = s.frame g := by
  simp only [frame, define, Array.getD_eq_getD_getElem?, Array.getElem?_modify, if_neg (Ne.symm h)]

theorem slot?_define_cases {s : Store} {id g : FrameId} {name x : String} {v u : Value}
    (h : (s.define id name v).slot? g x = some u) : (g = id ∧ u = v) ∨ s.slot? g x = some u := by
  have hg : g < s.size := by
    rw [← size_define_eq s id name v]
    exact lt_size_of_slot? h
  by_cases heq : g = id
  · rw [slot?_define (heq ▸ hg)] at h
    split at h
    · exact Or.inl ⟨heq, (Option.some.inj h).symm⟩
    · exact Or.inr h
  · rw [slot?, frame_define_of_ne heq] at h
    exact Or.inr h

theorem frame_define_self {s : Store} {id : FrameId} (h : id < s.size) (name : String) (v : Value) :
    (s.define id name v).frame id = (s.frame id).put name v := by
  have hs : id < s.frames.size := h
  simp only [frame, define, Array.getD_eq_getD_getElem?, Array.getElem?_modify, if_true,
    Array.getElem?_eq_getElem hs, Option.map_some, Option.getD_some]

theorem isSome_slot?_define {s : Store} {g : FrameId} {x : String} (h : (s.slot? g x).isSome)
    (id : FrameId) (name : String) (v : Value) : ((s.define id name v).slot? g x).isSome := by
  by_cases hg : g = id
  · obtain ⟨u, hu⟩ := Option.isSome_iff_exists.mp h
    rw [slot?_define (hg ▸ lt_size_of_slot? hu)]
    split
    · rfl
    · exact h
  · rwa [slot?, frame_define_of_ne hg]

end Store

/-! ### What two places hold -/

section Related

variable {α β : Type} {R S : α → β → Prop} {a : Option α} {b : Option β}

theorem rel_cases (h : Option.Rel R a b) :
    (∃ v v', a = some v ∧ b = some v' ∧ R v v') ∨ (a = none ∧ b = none) := by
  cases h with
  | some h => exact Or.inl ⟨_, _, rfl, rfl, h⟩
  | none => exact Or.inr ⟨rfl, rfl⟩

theorem rel_mono (h : Option.Rel R a b) (hrs : ∀ v v', R v v' → S v v') : Option.Rel S a b := by
  cases h with
  | some h => exact .some (hrs _ _ h)
  | none => exact .none

end Related

end Lox

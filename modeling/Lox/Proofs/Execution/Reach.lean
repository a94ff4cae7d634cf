import Lox.Proofs.Execution.Discipline
import Lox.Session

/-!
# What a call can reach

A frame is reached from others through the functions that they hold, each with all the frames it has
captured. A call touches no frame but those it reaches from its function, its arguments and the globals,
and those it makes; what it returns and what it stores reach no others.
-/

namespace Lox

def Callable.captured : Callable → List FrameId
  | .native _ _ => []
  | .closure c => c.env.frames

/-- The frames that a value has captured: those of a function from the innermost to the globals. -/
def Value.captured : Value → List FrameId
  | .function _ f => f.captured
  | .nil | .boolean _ | .number _ | .string _ => []

theorem Value.within_iff {place : Environment → Prop} {v : Value} :
    v.Within place (fun _ => True) ↔ ∀ id c, v = .function id (.closure c) → place c.env := by
  cases v with
  | function id f => cases f <;> simp [Within]
  | _ => simp [Within]

namespace Store

/-! ### Reached frames -/

/-- A frame is reached from others if it is one of them, or if a function that a reached frame holds has
captured it. -/
inductive Reaches (s : Store) (roots : List FrameId) : FrameId → Prop where
  | root {id : FrameId} (h : id ∈ roots) : s.Reaches roots id
  | held {id g : FrameId} {name : String} {v : Value} (h : s.Reaches roots id)
      (hv : s.slot? id name = some v) (hg : g ∈ v.captured) : s.Reaches roots g

/-- The frames that are reached from some roots at first, and those made since. -/
def MayUse (s t : Store) (roots : List FrameId) (id : FrameId) : Prop :=
  s.Reaches roots id ∨ (s.size ≤ id ∧ id < t.size)

theorem MayUse.mono {s t u : Store} {roots : List FrameId} {id : FrameId}
    (h : s.MayUse t roots id) (hsize : t.size ≤ u.size) : s.MayUse u roots id :=
  h.imp_right fun hid => ⟨hid.1, Nat.lt_of_lt_of_le hid.2 hsize⟩

/-- Frames that hold no function which has captured others. -/
def Closed (s : Store) (within : FrameId → Prop) : Prop :=
  ∀ id name v, within id → s.slot? id name = some v → ∀ g ∈ v.captured, within g

theorem Closed.of_reaches {s : Store} {within : FrameId → Prop} (h : s.Closed within)
    {roots : List FrameId} (hroots : ∀ id ∈ roots, within id) {id : FrameId}
    (hid : s.Reaches roots id) : within id := by
  induction hid with
  | root hmem => exact hroots _ hmem
  | held _ hv hg ih => exact h _ _ _ ih hv _ hg

/-- What a value of the later store reaches was reached from the roots at first or made since. -/
def ReachesOnly (s : Store) (roots : List FrameId) (t : Store) (v : Value) : Prop :=
  ∀ id, t.Reaches v.captured id → s.MayUse t roots id

/-- Between two stores, no frame is lost, frames that are not reached from the roots are as they were, and
a value that was not in its slot before reaches only frames that are reached from the roots or new. -/
structure Separated (s : Store) (roots : List FrameId) (t : Store) : Prop where
  size : s.size ≤ t.size
  unchanged : ∀ id < s.size, ¬ s.Reaches roots id → t.frame id = s.frame id
  stored : ∀ id name v, t.slot? id name = some v → s.slot? id name ≠ some v →
    s.ReachesOnly roots t v

/-- The frames that are reached from the roots, with those made since, hold only functions that have
captured such frames, and all others are as they were. -/
structure Confined (s : Store) (roots : List FrameId) (t : Store) : Prop where
  size : s.size ≤ t.size
  unchanged : ∀ id < s.size, ¬ s.Reaches roots id → t.frame id = s.frame id
  closed : t.Closed (s.MayUse t roots)

namespace Confined

variable {roots : List FrameId} {s t : Store}

theorem refl (roots : List FrameId) (s : Store) : s.Confined roots s where
  size := Nat.le_refl _
  unchanged _ _ _ := rfl
  closed id name v hid hv g hg := by
    have hr : s.Reaches roots id := hid.resolve_right fun h => absurd h.2 (Nat.not_lt.mpr h.1)
    exact Or.inl (.held hr hv hg)

theorem alloc (h : s.Confined roots t) (name : String) : s.Confined roots (t.alloc name).2 := by
  have hsize : t.size ≤ (t.alloc name).2.size := (grows_alloc t name).size
  refine ⟨Nat.le_trans h.size hsize, fun id hid hr => ?_, fun id x v hid hv g hg => ?_⟩
  · rw [frame_alloc_of_lt (Nat.lt_of_lt_of_le hid h.size)]
    exact h.unchanged id hid hr
  · -- what holds a value was there before the new frame
    rw [slot?_alloc] at hv
    have hid' : s.MayUse t roots id := hid.imp_right fun hi => ⟨hi.1, lt_size_of_slot? hv⟩
    exact (h.closed id x v hid' hv g hg).mono hsize

theorem define (h : s.Confined roots t) {id : FrameId} (hid : s.MayUse t roots id) (name : String)
    {v : Value} (hv : ∀ g ∈ v.captured, s.MayUse t roots g) :
    s.Confined roots (t.define id name v) := by
  have hsize : t.size ≤ (t.define id name v).size := size_le_define t id name v
  have hback : ∀ g, s.MayUse (t.define id name v) roots g → s.MayUse t roots g := fun g hg =>
    hg.mono (Nat.le_of_eq (size_define_eq t id name v))
  refine ⟨Nat.le_trans h.size hsize, fun g hg hr => ?_, fun f x u hf hu g hg => ?_⟩
  · have hne : g ≠ id := by
      rintro rfl
      exact hid.elim hr fun hi => absurd hg (Nat.not_lt.mpr hi.1)
    rw [frame_define_of_ne hne]
    exact h.unchanged g hg hr
  · rcases slot?_define_cases hu with ⟨-, rfl⟩ | hu
    · exact (hv g hg).mono hsize
    · exact (h.closed f x u (hback f hf) hu g hg).mono hsize

/-- A slot with another value than before belongs to a frame that the roots reach or to a new one. -/
theorem mayUse_of_stored (h : s.Confined roots t) {id : FrameId} {name : String} {v : Value}
    (hv : t.slot? id name = some v) (hnew : s.slot? id name ≠ some v) : s.MayUse t roots id := by
  by_contra hn
  obtain ⟨hr, hnot⟩ := not_or.mp hn
  have hlt : id < s.size := by
    by_contra hge
    exact hnot ⟨Nat.le_of_not_lt hge, lt_size_of_slot? hv⟩
  rw [slot?, h.unchanged id hlt hr] at hv
  exact hnew hv

theorem separated (h : s.Confined roots t) : s.Separated roots t where
  size := h.size
  unchanged := h.unchanged
  stored id name v hv hnew _ hg :=
    h.closed.of_reaches (h.closed id name v (h.mayUse_of_stored hv hnew) hv) hg

end Confined
end Store

/-! ### Calls -/

/-- Evaluation in frames that are reached from some roots in a store, or made since. -/
def Discipline.confined (roots : List FrameId) (s : Store) : Discipline where
  store := s.Confined roots
  place t env := ∀ id ∈ env.frames, s.MayUse t roots id
  reference _ := True
  undefined _ _ := True
  place_mono hsize he id hid := (he id hid).mono hsize
  held ht he hid hv := by
    rw [Value.within_iff]
    rintro n c rfl
    exact ht.closed _ _ _ (he _ hid) hv
  missing _ _ _ _ _ := trivial
  define name ht he hid hv := by
    refine ht.define (he _ hid) name fun g hg => ?_
    rw [Value.within_iff] at hv
    cases ‹Value› with
    | function n f =>
      cases f with
      | native => exact absurd hg List.not_mem_nil
      | closure c => exact hv n c rfl g hg
    | _ => exact absurd hg List.not_mem_nil
  alloc name ht he := by
    refine ⟨ht.alloc name, fun id hid => ?_⟩
    rcases List.mem_cons.mp hid with rfl | hid
    · rw [Store.fst_alloc, Store.MayUse, Store.size_alloc]
      exact Or.inr ⟨ht.size, Nat.lt_succ_self _⟩
    · exact (he id hid).mono (Store.grows_alloc _ name).size

theorem Discipline.admits_confined_iff {roots : List FrameId} {s : Store} {v : Value} {w : World} :
    (confined roots s).Admits v w ↔ ∀ id ∈ v.captured, s.MayUse w.store roots id := by
  cases v with
  | function n f =>
    cases f with
    | native => exact iff_of_true trivial fun _ h => absurd h List.not_mem_nil
    | closure c => exact and_iff_left fun _ _ => trivial
  | _ => exact iff_of_true trivial fun _ h => absurd h List.not_mem_nil

/-- What a call starts from: the globals, the frames that its function has captured, and those that its
arguments have captured. -/
def callRoots (c : Closure) (args : List Value) : List FrameId :=
  Session.globals.frames ++ c.env.frames ++ args.flatMap Value.captured

/-- A call, whether it returns or stops early, leaves every frame as it is that is not reached from the
globals, the function and the arguments. What it stores in a frame, and what it returns, reaches only
frames that were reached before and frames that the call has made. -/
theorem callClosure_separated {host : Host} (hn : host.natives.ReturnsGiven) (calls : Nat)
    (c : Closure) (args : List Value) (room : Room) (w : World) :
    match (callClosure host (callWithin host calls) c args).run room w with
    | .ok v w' => w.store.Separated (callRoots c args) w'.store ∧
        w.store.ReachesOnly (callRoots c args) w'.store v
    | .error _ w' => w.store.Separated (callRoots c args) w'.store := by
  let D := Discipline.confined (callRoots c args) w.store
  have hroot : ∀ id ∈ callRoots c args, w.store.MayUse w.store (callRoots c args) id :=
    fun id hid => Or.inl (.root hid)
  have hplace : D.place w.store c.env := fun id hid =>
    hroot id (List.mem_append_left _ (List.mem_append_right _ hid))
  have hargs : D.AdmitsAll args w := fun v hv =>
    Discipline.admits_confined_iff.mpr fun id hid =>
      hroot id (List.mem_append_right _ (List.mem_flatMap.mpr ⟨v, hv, hid⟩))
  have hkeeps : D.Keeps w (callClosure host (callWithin host calls) c args) D.Admits :=
    .callClosure (.callWithin hn calls) (.refl _ w.store) hplace (fun _ _ => trivial) hargs
  have hkeeps := hkeeps room
  split at hkeeps
  · rename_i v w' hrun
    rw [hrun]
    have hconfined : w.store.Confined (callRoots c args) w'.store := hkeeps.1.store
    have hv := Discipline.admits_confined_iff.mp hkeeps.2
    exact ⟨hconfined.separated, fun id hid => hconfined.closed.of_reaches hv hid⟩
  · rename_i stop w' hrun
    rw [hrun]
    exact Store.Confined.separated hkeeps.1.store

/-- A caller with a local variable calls a function that has one of the same name and changes a global. -/
theorem callClosure_separated_from_caller :
    let host : Host := ⟨.standard, fun _ => default, 1, 1⟩
    let c : Closure := {
      name := "f"
      params := []
      body := [.varDecl .nowhere "x" (some (.literal .nowhere (.boolean true))),
        .expression .nowhere (.assign .nowhere "g" none (.varRef .nowhere "x" (some 0)))]
      env := Session.globals }
    let w : World := { store := ⟨#[⟨"globals", [("g", .nil)]⟩, ⟨"caller", [("x", .nil)]⟩]⟩ }
    let room : Room := ⟨1000, Machine.standard.takes, .nowhere⟩
    ∃ w', (callClosure host (callWithin host 1) c []).run room w = .ok .nil w' ∧
      w'.store.slot? 0 "g" = some (.boolean true) ∧ w'.store.frame 1 = w.store.frame 1 := by
  intro host c w room
  have hglobal : ∀ name v, w.store.slot? 0 name = some v → v = .nil := by
    intro name v hv
    change List.lookup name [("g", Value.nil)] = some v at hv
    obtain ⟨before, behind, heq, -⟩ := List.lookup_eq_some_iff.mp hv
    have hmem : (name, v) ∈ [("g", Value.nil)] := heq ▸ by simp
    exact (Prod.mk.inj (List.mem_singleton.mp hmem)).2
  have hlocal : ∀ id, w.store.Reaches (callRoots c []) id → id = 0 := by
    intro id h
    induction h with
    | root hid => simpa [callRoots, c, Session.globals, Environment.frames] using hid
    | held h hv hg ih =>
      -- the globals hold no function
      subst ih
      obtain rfl := hglobal _ _ hv
      cases hg
  have hrun : ∃ w', (callClosure host (callWithin host 1) c []).run room w = .ok .nil w' ∧
      w'.store.slot? 0 "g" = some (.boolean true) := by
    unfold host c w room
    exact ⟨_, rfl, rfl⟩
  obtain ⟨w', hrun, hg⟩ := hrun
  have hsep := @callClosure_separated host Registry.returnsGiven_standard 1 c [] room w
  rw [hrun] at hsep
  exact ⟨w', hrun, hg, hsep.1.unchanged 1 (by decide) fun h => absurd (hlocal 1 h) (by decide)⟩

end Lox

import Lox.Proofs.Execution.Outcomes
import Lox.Proofs.Execution.Reach

/-!
# Worlds that are complete

In a world that is complete every function has captured only frames that were made. Evaluation in made
frames keeps a world complete, so all worlds of a session are, whatever its programs do.
-/

namespace Lox

namespace Store

/-- No function has captured a frame that was not made. -/
def Complete (s : Store) : Prop := s.Closed (· < s.size)

/-- All frames of an environment were made. -/
def Has (s : Store) (env : Environment) : Prop := ∀ id ∈ env.frames, id < s.size

theorem Has.mono {s t : Store} {env : Environment} (h : s.Has env) (hsize : s.size ≤ t.size) :
    t.Has env := fun id hid => Nat.lt_of_lt_of_le (h id hid) hsize

theorem has_child {s : Store} {env : Environment} (h : s.Has env) (name : String) :
    (s.alloc name).2.Has (env.child s.size) := by
  intro id hid
  rw [size_alloc]
  rcases List.mem_cons.mp hid with rfl | hid
  · exact Nat.lt_succ_self _
  · exact Nat.lt_succ_of_lt (h id hid)

namespace Complete

variable {s : Store}

theorem alloc (h : s.Complete) (name : String) : (s.alloc name).2.Complete := by
  intro id x v _ hv g hg
  rw [slot?_alloc] at hv
  rw [size_alloc]
  exact Nat.lt_succ_of_lt (h id x v (lt_size_of_slot? hv) hv g hg)

theorem define (h : s.Complete) (id : FrameId) (name : String) {v : Value}
    (hv : ∀ g ∈ v.captured, g < s.size) : (s.define id name v).Complete := by
  intro f x u _ hu g hg
  rw [size_define_eq]
  rcases slot?_define_cases hu with ⟨-, rfl⟩ | hold
  · exact hv g hg
  · exact h f x u (lt_size_of_slot? hold) hold g hg

end Complete

end Store

theorem Value.within_has_iff {s : Store} {v : Value} :
    v.Within s.Has (fun _ => True) ↔ ∀ g ∈ v.captured, g < s.size := by
  cases v with
  | function id f =>
    cases f with
    | native => exact iff_of_true trivial fun _ h => absurd h List.not_mem_nil
    | closure c => exact and_iff_left fun _ _ => trivial
  | _ => exact iff_of_true trivial fun _ h => absurd h List.not_mem_nil

/-- Evaluation in frames that were made. -/
def Discipline.complete : Discipline where
  store := Store.Complete
  place := Store.Has
  reference _ := True
  undefined _ _ := True
  place_mono hsize henv := henv.mono hsize
  held hs henv hid hv := Value.within_has_iff.mpr (hs _ _ _ (henv _ hid) hv)
  missing _ _ _ _ _ := trivial
  define name hs _ _ hv := hs.define _ name (Value.within_has_iff.mp hv)
  alloc name hs henv := ⟨hs.alloc name, Store.has_child henv name⟩

theorem Discipline.Keeps.follows_of_ok {α : Type} {D : Discipline} {w v : World} {m : Run α} {a : α}
    {Q : α → World → Prop} (h : D.Keeps w m Q) {room : Room} (hrun : m.run room w = .ok a v) :
    D.Follows w v := by
  have hkept := h room
  rw [hrun] at hkept
  exact hkept.1

/-- However a run ends, the world behind it follows the one in front of it. -/
theorem Discipline.Keeps.follows_world {D : Discipline} {w : World} {m : Run Unit} {Q : Unit → World → Prop}
    (h : D.Keeps w m Q) (room : Room) : D.Follows w (Run.world (m.run room w)) := by
  have hkept := h room
  split at hkept <;> rename_i hrun <;> rw [hrun]
  · exact hkept.1
  · exact hkept.1

/-! ### Sessions -/

namespace Session

/-- A world between two programs: it is complete and has the frame of the globals. -/
def Ready (w : World) : Prop := w.store.Complete ∧ w.store.Has globals

theorem Ready.follows {w w' : World} (h : Ready w) (hw : Discipline.complete.Follows w w') : Ready w' :=
  ⟨hw.store, h.2.mono hw.size⟩

theorem ready_create {config : Config} {natives : Registry} {clock : Nat → Float} {machine : Machine}
    {s : Session} (h : create config natives clock machine = .ok s) : Ready s.world := by
  have hempty : Store.Complete {} := fun id name v hid => absurd hid (Nat.not_lt_zero id)
  have hglobals : (Store.alloc {} "globals").2.Has globals := fun id hid => by
    rw [List.mem_singleton.mp hid]
    exact Nat.zero_lt_one
  refine create_induction (P := Ready) h ⟨hempty.alloc "globals", hglobals⟩ ?_
  intro w hw native _
  have hf : ∀ g ∈ (Value.function w.functions (.native native.name native.arity)).captured,
      g < w.store.size := fun g hg => absurd hg List.not_mem_nil
  exact ⟨hw.1.define globals.frame native.name hf, hw.2.mono (Store.size_le_define _ _ _ _)⟩

theorem ready_runSource {s : Session} (hn : s.natives.ReturnsGiven) (h : Ready s.world)
    (file source : String) : Ready (s.runSource file source).session.world := by
  rcases s.runSource_cases file source with ⟨hsame, -⟩ | ⟨p, -, hsession, -⟩
  · rwa [hsame]
  · have hready : Ready s.cleared := h
    have hkeeps : Discipline.complete.Keeps s.cleared (execProgram s.host globals
        (s.resolve p).program.statements) fun _ _ => True :=
      .execProgram hn _ (fun _ _ => trivial) h.1 h.2
    rw [hsession, execute_eq]
    exact run_induction (P := fun result => Ready (Run.world result)) hready
      fun room => hready.follows (hkeeps.follows_world room)

theorem ready_of_ready {s : Session} (hn : s.natives.ReturnsGiven) (h : Ready s.world)
    (runs : List (String × String)) : Ready (s.after runs).world := by
  have hboth : (s.after runs).natives.ReturnsGiven ∧ Ready (s.after runs).world := by
    refine after_induction (P := fun s => s.natives.ReturnsGiven ∧ Ready s.world) ⟨hn, h⟩ ?_
    rintro s ⟨hn, h⟩ run -
    exact ⟨by rwa [(s.succeeds_runSource run.1 run.2).natives], ready_runSource hn h run.1 run.2⟩
  exact hboth.2

/-- After all programs of a session its world is complete. -/
theorem ready_after {config : Config} {natives : Registry} {clock : Nat → Float} {machine : Machine}
    {s : Session} (hn : natives.ReturnsGiven) (h : create config natives clock machine = .ok s)
    (runs : List (String × String)) : Ready (s.after runs).world := by
  have hnatives : s.natives.ReturnsGiven := by rwa [eq_of_create h]
  exact ready_of_ready hnatives (ready_create h) runs

end Session

end Lox

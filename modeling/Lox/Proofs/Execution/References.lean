import Lox.Proofs.Execution.Results

/-!
# References

A reference leads to one frame, so many frames out or the outermost one, or its chain is too short.
Reading and assigning depend on what this frame holds for the name, and on nothing else.
-/

namespace Lox

/-- The frame that a reference leads to: so many frames out, or the outermost one. -/
def Environment.target? (env : Environment) : Option Nat → Option FrameId
  | some hops => env.frames[hops]?
  | none => some env.outermost

theorem Environment.getElem?_outermost (env : Environment) :
    env.frames[env.enclosing.length]? = some env.outermost := by
  obtain ⟨id, ids⟩ := env
  change (id :: ids)[ids.length]? = some (ids.getLastD id)
  induction ids generalizing id with
  | nil => rfl
  | cons outer ids ih =>
    rw [List.getLastD_cons]
    exact ih outer

theorem Environment.outermost_eq_iff (env : Environment) (id : FrameId) :
    env.outermost = id ↔
      ∃ hops : Nat, env.frames[hops]? = some id ∧ env.frames[hops + 1]? = none := by
  have hlast := env.getElem?_outermost
  have hlength : env.frames.length = env.enclosing.length + 1 := rfl
  constructor
  · rintro rfl
    exact ⟨_, hlast, List.getElem?_eq_none (Nat.le_of_eq hlength)⟩
  · rintro ⟨hops, hid, hnone⟩
    have hlt := (List.getElem?_eq_some_iff.mp hid).1
    have hge := List.getElem?_eq_none_iff.mp hnone
    have hhops : hops = env.enclosing.length := by omega
    rw [hhops, hlast] at hid
    exact Option.some.inj hid

theorem Frame.names_put {f : Frame} {name : String} (h : f.contains name = true) (v : Value) :
    (f.put name v).names = f.names := by
  have hfst : (f.values.map fun e => if e.1 == name then (name, v) else e).map Prod.fst =
      f.values.map Prod.fst := by
    rw [List.map_map]
    refine List.map_congr_left fun e _ => ?_
    rw [Function.comp_apply]
    split
    · exact (beq_iff_eq.mp ‹_›).symm
    · rfl
  rw [names, names, put, if_pos h, hfst]

theorem Store.name_define (s : Store) (id g : FrameId) (name : String) (v : Value) :
    ((s.define id name v).frame g).name = (s.frame g).name := by
  have hput (f : Frame) : (f.put name v).name = f.name := by
    rw [Frame.put]
    split <;> rfl
  simp only [frame, define, Array.getD_eq_getD_getElem?, Array.getElem?_modify]
  split
  · cases s.frames[g]? with
    | none => rfl
    | some f => exact hput f
  · rfl

namespace Run

/-- Why a name that a frame does not hold cannot be used. -/
def missing (frame name : String) (span : Span) : Option Nat → Stop
  | some hops => .defect (.unbound name frame hops)
  | none => .error (.undefinedVariable name) span

/-- Stops where a name is used that a frame does not hold. -/
def refuse {α : Type} (frame name : String) (span : Span) : Option Nat → Run α
  | some hops => throw (.defect (.unbound name frame hops))
  | none => fail (.undefinedVariable name) span

variable {w : World} {env : Environment} {name : String} {span : Span} {ref : Option Nat}
  {id : FrameId} {v : Value} {room : Room}

theorem run_refuse {α : Type} {frame : String} (h : room.fits .report = true) :
    (refuse frame name span ref : Run α).run room w = .error (missing frame name span ref) w := by
  cases ref with
  | some hops => rfl
  | none => exact run_fail h

theorem run_read_value (hid : env.target? ref = some id) (hv : w.store.slot? id name = some v) :
    (read env name ref span).run room w = .ok v w := by
  cases ref with
  | some hops => exact run_read_local hid hv
  | none => exact run_read_global (Option.some.inj hid ▸ hv)

theorem run_read_missing (hid : env.target? ref = some id) (hv : w.store.slot? id name = none) :
    (read env name ref span).run room w =
      (refuse (w.store.frame id).name name span ref : Run Value).run room w := by
  cases ref with
  | some hops => exact run_read_unbound hid hv
  | none => exact run_read_undefined (Option.some.inj hid ▸ hv)

theorem run_read_tooShort {hops : Nat} (h : env.frames[hops]? = none) :
    (read env name (some hops) span).run room w =
      .error (.defect (.chainTooShort hops (w.store.frame env.frame).name)) w := by
  unfold read Store.getAt
  rw [run_get_bind]
  simp only [Store.ancestor_eq, h]
  rfl

theorem run_assign_value (hid : env.target? ref = some id) (hv : (w.store.slot? id name).isSome) :
    (assign env name ref span v).run room w = .ok () { w with store := w.store.define id name v } := by
  cases ref with
  | some hops => exact run_assign_local hid hv
  | none =>
    obtain rfl := Option.some.inj hid
    exact run_assign_global hv

theorem run_assign_missing (hid : env.target? ref = some id) (hv : w.store.slot? id name = none) :
    (assign env name ref span v).run room w =
      (refuse (w.store.frame id).name name span ref : Run Unit).run room w := by
  have hs : (w.store.slot? id name).isSome = false := by rw [hv]; rfl
  cases ref with
  | some hops => exact run_assign_unbound hid hs
  | none => exact run_assign_undefined (Option.some.inj hid ▸ hs)

theorem run_assign_tooShort {hops : Nat} (h : env.frames[hops]? = none) :
    (assign env name (some hops) span v).run room w =
      .error (.defect (.chainTooShort hops (w.store.frame env.frame).name)) w := by
  unfold assign Store.slotAt
  rw [run_get_bind]
  simp only [Store.ancestor_eq, h]
  rfl

/-- Assigning through hops is the assignment of the store. -/
theorem run_assign_eq_assignAt (room : Room) (w : World) (env : Environment) (name : String) (hops : Nat)
    (span : Span) (v : Value) :
    (assign env name (some hops) span v).run room w =
      match w.store.assignAt env hops name v with
      | .ok store => .ok () { w with store := store }
      | .error d => .error (.defect d) w := by
  unfold assign Store.assignAt
  rw [run_get_bind]
  cases h : w.store.slotAt env hops name <;> simp only [h] <;> rfl

theorem run_assign_eq_assignGlobal? (room : Room) (w : World) (env : Environment) (name : String)
    (span : Span) (v : Value) :
    (assign env name none span v).run room w =
      match w.store.assignGlobal? env name v with
      | some store => .ok () { w with store := store }
      | none => (fail (.undefinedVariable name) span : Run Unit).run room w := by
  unfold assign Store.assignGlobal?
  rw [run_get_bind]
  dsimp only
  cases w.store.globalSlot? env name <;> rfl

end Run

end Lox

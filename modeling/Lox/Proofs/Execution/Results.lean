import Lox.Proofs.Execution.Frames

/-!
# Results

How the parts of an evaluation follow each other, what using a name comes to, and what operators and
standard built-in functions give: constants, never functions.
-/

namespace Lox

/-! ### Sequences -/

section Sequences

variable {σ α β : Type} {m : RunOf σ α} {room : Room} {w w' : σ}

theorem run_bind_ok {a : α} (f : α → RunOf σ β) (h : m.run room w = .ok a w') :
    (m >>= f).run room w = (f a).run room w' := by
  show EStateM.bind (m room) (fun a => f a room) w = _
  unfold EStateM.bind
  rw [show m room w = .ok a w' from h]
  rfl

theorem run_bind_error {stop : Stop} (f : α → RunOf σ β)
    (h : m.run room w = .error stop w') : (m >>= f).run room w = .error stop w' := by
  show EStateM.bind (m room) (fun a => f a room) w = _
  unfold EStateM.bind
  rw [show m room w = .error stop w' from h]

/-- A sequence that comes to its end has run both of its parts. -/
theorem exists_of_run_bind {f : α → RunOf σ β} {b : β} {v : σ} (h : (m >>= f).run room w = .ok b v) :
    ∃ a u, m.run room w = .ok a u ∧ (f a).run room u = .ok b v := by
  cases hm : m.run room w with
  | ok a u => exact ⟨a, u, rfl, (run_bind_ok f hm).symm.trans h⟩
  | error stop u => cases (run_bind_error f hm).symm.trans h

theorem run_get_bind (f : σ → RunOf σ β) (room : Room) (w : σ) :
    ReaderT.run (get >>= f) room w = (f w).run room w :=
  run_bind_ok f rfl

end Sequences

/-! ### Room -/

namespace Run

variable {σ α : Type} {a : Activity} {m : RunOf σ α} {room : Room} {w : σ}

theorem run_inside_fits (h : room.fits a = true) : (inside a m).run room w = m.run (room.inside a) w := by
  show (if room.fits a = true then m (room.inside a) else _) w = _
  rw [if_pos h]
  rfl

theorem run_inside_exhausted (h : room.fits a = false) :
    (inside a m).run room w = .error (.error .stackExhausted room.blame) w := by
  show (if room.fits a = true then m (room.inside a) else _) w = _
  rw [if_neg (ne_true_of_eq_false h)]
  rfl

/-- Inside an activity a step runs in the room that is left, if there is room for the activity. -/
theorem inside_cases (a : Activity) (m : RunOf σ α) (room : Room) (w : σ) :
    (inside a m).run room w = m.run (room.inside a) w ∨
      (inside a m).run room w = .error (.error .stackExhausted room.blame) w := by
  cases h : room.fits a with
  | true => exact Or.inl (run_inside_fits h)
  | false => exact Or.inr (run_inside_exhausted h)

theorem run_of_inside_ok {x : α} {v : σ} (h : (inside a m).run room w = .ok x v) :
    m.run (room.inside a) w = .ok x v := by
  rcases inside_cases a m room w with hrun | hrun
  · exact hrun.symm.trans h
  · cases hrun.symm.trans h

theorem run_fail {e : RuntimeError} {span : Span} {w : World} (h : room.fits .report = true) :
    (fail e span : Run α).run room w = .error (.error e span) w :=
  run_inside_fits h

/-- Where an error is told about, there may be no room to tell. -/
theorem fail_cases (e : RuntimeError) (span : Span) (room : Room) (w : World) :
    (fail e span : Run α).run room w = .error (.error e span) w ∨
      (fail e span : Run α).run room w = .error (.error .stackExhausted room.blame) w :=
  inside_cases .report _ room w

end Run

/-! ### Names -/

namespace Run

variable {w : World} {env : Environment} {hops : Nat} {id : FrameId} {name : String} {span : Span}
  {v : Value} {room : Room}

theorem run_read_local (hid : env.frames[hops]? = some id) (hv : w.store.slot? id name = some v) :
    (read env name (some hops) span).run room w = .ok v w := by
  unfold read
  rw [run_get_bind]
  simp only [Store.getAt_eq hid, hv]
  rfl

theorem run_read_unbound (hid : env.frames[hops]? = some id) (hv : w.store.slot? id name = none) :
    (read env name (some hops) span).run room w =
      .error (.defect (.unbound name (w.store.frame id).name hops)) w := by
  unfold read
  rw [run_get_bind]
  simp only [Store.getAt_eq hid, hv]
  rfl

theorem run_read_global (hv : w.store.slot? env.outermost name = some v) :
    (read env name none span).run room w = .ok v w := by
  unfold read
  rw [run_get_bind]
  simp only [Store.getGlobal?_eq, hv]
  rfl

theorem run_read_undefined (hv : w.store.slot? env.outermost name = none) :
    (read env name none span).run room w = (fail (.undefinedVariable name) span : Run Value).run room w := by
  unfold read
  rw [run_get_bind]
  simp only [Store.getGlobal?_eq, hv]

theorem run_assign_local (hid : env.frames[hops]? = some id) (hs : (w.store.slot? id name).isSome) :
    (assign env name (some hops) span v).run room w =
      .ok () { w with store := w.store.define id name v } := by
  unfold assign
  rw [run_get_bind]
  simp only [Store.slotAt_eq hid, hs, if_true]
  rfl

theorem run_assign_unbound (hid : env.frames[hops]? = some id)
    (hs : (w.store.slot? id name).isSome = false) :
    (assign env name (some hops) span v).run room w =
      .error (.defect (.unbound name (w.store.frame id).name hops)) w := by
  unfold assign
  rw [run_get_bind]
  simp only [Store.slotAt_eq hid, hs]
  rfl

theorem run_assign_global (hs : (w.store.slot? env.outermost name).isSome) :
    (assign env name none span v).run room w =
      .ok () { w with store := w.store.define env.outermost name v } := by
  unfold assign
  rw [run_get_bind]
  simp only [Store.globalSlot?_eq, hs, if_true]
  rfl

theorem run_assign_undefined (hs : (w.store.slot? env.outermost name).isSome = false) :
    (assign env name none span v).run room w =
      (fail (.undefinedVariable name) span : Run Unit).run room w := by
  unfold assign
  rw [run_get_bind]
  simp only [Store.globalSlot?_eq, hs]
  rfl

end Run

/-! ### Constants -/

def Value.IsConstant (v : Value) : Prop := ∃ l, v = .ofLiteral l

theorem Value.isConstant_boolean (b : Bool) : (boolean b).IsConstant := ⟨.boolean b, rfl⟩

theorem Value.isConstant_number (x : Float) : (number x).IsConstant := ⟨.number x, rfl⟩

theorem Value.isConstant_string (s : String) : (string s).IsConstant := ⟨.string s, rfl⟩

theorem UnaryOp.isConstant_of_apply {op : UnaryOp} {u v : Value} (h : op.apply u = .ok v) :
    v.IsConstant := by
  unfold apply at h
  split at h
  · cases h
    exact Value.isConstant_boolean _
  · cases h
    exact Value.isConstant_number _
  · cases h

theorem BinaryOp.isConstant_of_applyNumbers {op : BinaryOp} {x y : Float} {v : Value}
    (h : op.applyNumbers x y = .ok v) : v.IsConstant := by
  unfold applyNumbers at h
  cases op with
  | add | subtract | multiply =>
    cases h
    exact Value.isConstant_number _
  | divide =>
    dsimp only at h
    split at h
    · cases h
    · cases h
      exact Value.isConstant_number _
  | equal | notEqual | less | lessEqual | greater | greaterEqual =>
    cases h
    exact Value.isConstant_boolean _

theorem BinaryOp.isConstant_of_apply {op : BinaryOp} {t u v : Value} (h : op.apply t u = .ok v) :
    v.IsConstant := by
  unfold apply at h
  split at h
  · cases h
    exact Value.isConstant_boolean _
  · cases h
    exact Value.isConstant_boolean _
  · split at h
    · exact isConstant_of_applyNumbers h
    · cases h
      exact Value.isConstant_string _
    · cases h
    · cases h

/-! ### Built-in functions -/

/-- What a call of a built-in function comes to at some time. A name that is not registered gives nil. -/
def Registry.answer (r : Registry) (name : String) (now : Float) (args : List Value) :
    Except String Value :=
  match r.find? name with
  | none => .ok .nil
  | some native => native.run now args

/-- There is nothing to ask but a built-in function of the registry. -/
theorem Registry.answer_cases (r : Registry) (name : String) :
    (∀ now args, r.answer name now args = .ok .nil) ∨
      ∃ native ∈ r.natives, ∀ now args, r.answer name now args = native.run now args := by
  unfold answer
  cases hfind : r.find? name with
  | none => exact Or.inl fun _ _ => rfl
  | some native => exact Or.inr ⟨native, List.mem_of_find?_eq_some hfind, fun _ _ => rfl⟩

section Calls

variable {host : Host} {name : String} {args : List Value} {span : Span} {room : Room} {w : World}

theorem run_callNative :
    (callNative host name args span).run room w =
      match host.natives.answer name (host.clock w.nativeCalls) args with
      | .ok v => .ok v { w with nativeCalls := w.nativeCalls + 1 }
      | .error message =>
        (Run.fail (.nativeFailure name message) span : Run Value).run room
          { w with nativeCalls := w.nativeCalls + 1 } := by
  have hclock : (modifyGet fun w : World =>
      (host.clock w.nativeCalls, { w with nativeCalls := w.nativeCalls + 1 }) : Run Float).run room w =
        .ok (host.clock w.nativeCalls) { w with nativeCalls := w.nativeCalls + 1 } := rfl
  unfold callNative Registry.answer
  rw [run_bind_ok _ hclock]
  cases host.natives.find? name with
  | none => rfl
  | some native =>
    dsimp only
    cases native.run (host.clock w.nativeCalls) args <;> rfl

theorem run_callNative_ok {v : Value}
    (h : host.natives.answer name (host.clock w.nativeCalls) args = .ok v) :
    (callNative host name args span).run room w = .ok v { w with nativeCalls := w.nativeCalls + 1 } := by
  rw [run_callNative, h]

theorem run_callNative_error {message : String}
    (h : host.natives.answer name (host.clock w.nativeCalls) args = .error message) :
    (callNative host name args span).run room w =
      (Run.fail (.nativeFailure name message) span : Run Value).run room
        { w with nativeCalls := w.nativeCalls + 1 } := by
  rw [run_callNative, h]

end Calls

theorem Registry.isConstant_of_standard {n : Native} (hn : n ∈ standard.natives) {now : Float}
    {args : List Value} {v : Value} (h : n.run now args = .ok v) : v.IsConstant := by
  simp only [standard, List.mem_cons, List.not_mem_nil, or_false] at hn
  rcases hn with rfl | rfl | rfl | rfl
  · simp only [Native.str] at h
    split at h
    · cases h
      exact Value.isConstant_string _
    · cases h
      exact ⟨.nil, rfl⟩
  · simp only [Native.num] at h
    split at h
    · cases h
      exact Value.isConstant_number _
    · split at h
      · cases h
        exact Value.isConstant_number _
      · cases h
    · cases h
    · cases h
      exact ⟨.nil, rfl⟩
  · simp only [Native.type] at h
    split at h
    · cases h
      exact Value.isConstant_string _
    · cases h
      exact ⟨.nil, rfl⟩
  · cases h
    exact Value.isConstant_number now

end Lox

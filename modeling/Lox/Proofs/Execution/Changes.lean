import Lox.Proofs.Execution.Discipline

/-!
# What evaluation changes

A world changes in few ways: a frame is made, a name is defined, a text is printed, a function or a call
of a built-in function is counted. A relation of earlier worlds to later ones that none of these breaks
holds between the ends of every run that is made of them.
-/

namespace Lox

/-- A relation of earlier worlds to later ones that no change breaks. -/
structure World.Persists (R : World → World → Prop) : Prop where
  refl : ∀ w, R w w
  trans : ∀ {u v w}, R u v → R v w → R u w
  define : ∀ (w : World) id name v, R w { w with store := w.store.define id name v }
  alloc : ∀ (w : World) name, R w { w with store := (w.store.alloc name).2 }
  print : ∀ (w : World) text, R w { w with printed := w.printed.push text }
  newFunction : ∀ (w : World), R w { w with functions := w.functions + 1 }
  callNative : ∀ (w : World), R w { w with nativeCalls := w.nativeCalls + 1 }

/-- The texts of the later world begin with those of the earlier one. -/
def World.Appended (w v : World) : Prop := w.printed.toList <+: v.printed.toList

theorem World.persists_appended : World.Persists World.Appended where
  refl _ := List.prefix_rfl
  trans := List.IsPrefix.trans
  define _ _ _ _ := List.prefix_rfl
  alloc _ _ := List.prefix_rfl
  print w text := by
    unfold Appended
    rw [Array.toList_push]
    exact List.prefix_append _ _
  newFunction _ := List.prefix_rfl
  callNative _ := List.prefix_rfl

/-- No frame and no name of the earlier world is missing in the later one. -/
def World.Grown (w v : World) : Prop := w.store.Grows v.store

theorem World.persists_grown : World.Persists World.Grown where
  refl w := Store.Grows.refl w.store
  trans := Store.Grows.trans
  define w id name v :=
    ⟨Store.size_le_define w.store id name v, fun _ _ h => Store.isSome_slot?_define h id name v⟩
  alloc w name := Store.grows_alloc w.store name
  print w _ := Store.Grows.refl w.store
  newFunction w := Store.Grows.refl w.store
  callNative w := Store.Grows.refl w.store

namespace Run

variable {α β : Type}

/-- The world that a run ends in. -/
def final (m : Run α) (room : Room) (w : World) : World :=
  match m.run room w with
  | .ok _ v | .error _ v => v

variable {m : Run α} {room : Room} {w v : World}

theorem final_of_ok {a : α} (h : m.run room w = .ok a v) : m.final room w = v := by
  unfold final
  rw [h]

theorem final_of_error {stop : Stop} (h : m.run room w = .error stop v) :
    m.final room w = v := by
  unfold final
  rw [h]

theorem final_congr {n : Run α} {room' : Room} {u : World} (h : m.run room w = n.run room' u) :
    m.final room w = n.final room' u := by
  unfold final
  rw [h]

theorem final_bind_ok {a : α} (f : α → Run β) (h : m.run room w = .ok a v) :
    (m >>= f).final room w = (f a).final room v := by
  unfold final
  rw [run_bind_ok f h]

theorem final_bind_error {stop : Stop} (f : α → Run β) (h : m.run room w = .error stop v) :
    (m >>= f).final room w = v := final_of_error (run_bind_error f h)

/-! ### Runs that lead from world to world -/

/-- A run ends in a world that is related to the one it begins in. -/
def Leads (R : World → World → Prop) (m : Run α) : Prop := ∀ room w, R w (m.final room w)

variable {R : World → World → Prop} (hR : World.Persists R)

include hR

theorem Leads.bind {f : α → Run β} (hm : m.Leads R) (hf : ∀ a, (f a).Leads R) :
    (m >>= f).Leads R := by
  intro room w
  have hfirst := hm room w
  cases h : m.run room w with
  | ok a v =>
    rw [final_of_ok h] at hfirst
    rw [final_bind_ok f h]
    exact hR.trans hfirst (hf a room v)
  | error stop v =>
    rw [final_of_error h] at hfirst
    rwa [final_bind_error f h]

theorem leads_of_final (h : ∀ room w, m.final room w = w) : m.Leads R := by
  intro room w
  rw [h room w]
  exact hR.refl w

theorem leads_pure (a : α) : (pure a : Run α).Leads R := leads_of_final hR fun _ _ => rfl

theorem leads_throw (stop : Stop) : (throw stop : Run α).Leads R := leads_of_final hR fun _ _ => rfl

theorem Leads.inside (hm : m.Leads R) (a : Activity) : Leads R (inside a m) := by
  intro room w
  rcases inside_cases a m room w with h | h
  · exact final_congr h ▸ hm _ w
  · rw [final_of_error h]
    exact hR.refl w

omit hR in
theorem Leads.calling (hm : m.Leads R) (span : Span) : Leads R (calling span m) := fun _ => hm _

theorem leads_fail (e : RuntimeError) (span : Span) : (fail e span : Run α).Leads R :=
  Leads.inside hR (leads_throw hR _) .report

theorem leads_ofOperator (span : Span) (r : Except RuntimeError Value) :
    (ofOperator span r).Leads R := by
  cases r with
  | ok v => exact leads_pure hR v
  | error e => exact leads_fail hR e span

theorem leads_read (env : Environment) (name : String) (ref : Option Nat) (span : Span) :
    (read env name ref span).Leads R := by
  intro room w
  rcases read_cases w env name ref span with ⟨-, -, v, -, hrun⟩ | ⟨d, hrun⟩ | ⟨-, -, hrun⟩
  · rw [final_of_ok hrun]
    exact hR.refl w
  · rw [final_of_error hrun]
    exact hR.refl w
  · rw [final_congr hrun]
    exact leads_fail hR _ span room w

theorem leads_assign (env : Environment) (name : String) (ref : Option Nat) (span : Span) (v : Value) :
    (assign env name ref span v).Leads R := by
  intro room w
  rcases assign_cases w env name ref span v with ⟨id, -, hrun⟩ | ⟨d, hrun⟩ | ⟨-, -, hrun⟩
  · rw [final_of_ok hrun]
    exact hR.define w id name v
  · rw [final_of_error hrun]
    exact hR.refl w
  · rw [final_congr hrun]
    exact leads_fail hR _ span room w

theorem leads_define (env : Environment) (name : String) (v : Value) : (define env name v).Leads R :=
  fun _ w => hR.define w env.frame name v

theorem leads_enter (env : Environment) (name : String) : (enter env name).Leads R :=
  fun _ w => hR.alloc w name

theorem leads_newFunction (f : Callable) : (newFunction f).Leads R := fun _ => hR.newFunction

theorem leads_print (text : String) : (print text).Leads R := fun _ w => hR.print w text

theorem leads_callNative (host : Host) (name : String) (args : List Value) (span : Span) :
    (callNative host name args span).Leads R := by
  intro room w
  cases hanswer : host.natives.answer name (host.clock w.nativeCalls) args with
  | ok v =>
    rw [final_of_ok (run_callNative_ok hanswer)]
    exact hR.callNative w
  | error message =>
    rw [final_congr (run_callNative_error hanswer)]
    exact hR.trans (hR.callNative w) (leads_fail hR _ span room _)

theorem leads_bindParams (env : Environment) (params : List Parameter) (args : List Value) :
    (bindParams env params args).Leads R := by
  induction params generalizing args with
  | nil => exact leads_pure hR ()
  | cons p ps ih =>
    cases args with
    | nil => exact leads_pure hR ()
    | cons v vs => exact Leads.bind hR (leads_define hR env p.name v) fun _ => ih vs

end Run

end Lox

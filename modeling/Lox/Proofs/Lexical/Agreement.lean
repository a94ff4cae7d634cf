import Lox.Proofs.Execution.Rooms
import Lox.Proofs.Lexical.Worlds

/-!
# Runs that agree

Two evaluations agree if from corresponding worlds, where nothing takes room on the stack, both give related
results, or both stop for the same reason, in worlds that correspond again. Nothing is asked of an evaluation
that meets a defect. Agreement follows the sequence of evaluations, with one rule for each way to use a name.
-/

namespace Lox.Lexical

variable {α β γ δ : Type}

section Sequences

variable {n : Run β} {g : β → Run δ} {v v' : World}

theorem run_bind_ok {b : β} (g : β → Run δ) (h : n.run v = .ok b v') :
    (n >>= g).run v = (g b).run v' := by
  show EStateM.bind n g v = _
  unfold EStateM.bind
  rw [show n v = .ok b v' from h]
  rfl

theorem run_bind_error {stop : Stop} (g : β → Run δ) (h : n.run v = .error stop v') :
    (n >>= g).run v = .error stop v' := by
  show EStateM.bind n g v = _
  unfold EStateM.bind
  rw [show n v = .error stop v' from h]

end Sequences

inductive AgreeIn (room : Room) (own : Option FrameId) (slots : List Slot) (w : Lox.World) (v : World)
    (m : Lox.Run α) (n : Run β) (Q : List Slot → Lox.World → α → β → Prop) : Prop where
  | ok {a : α} {b : β} {slots' : List Slot} {w' : Lox.World} {v' : World} (hm : m.run room w = .ok a w')
    (hn : n.run v = .ok b v') (hl : Later own slots slots' w w') (hc : Corresponds slots' w' v')
    (hq : Q slots' w' a b) : AgreeIn room own slots w v m n Q
  | stop {s : Stop} {slots' : List Slot} {w' : Lox.World} {v' : World} (hm : m.run room w = .error s w')
    (hn : n.run v = .error s v') (hc : Corresponds slots' w' v') : AgreeIn room own slots w v m n Q
  | defect {d : Defect} {w' : Lox.World} (hm : m.run room w = .error (.defect d) w') :
    AgreeIn room own slots w v m n Q

/-- The runs do the same wherever nothing takes room. -/
def Agree (own : Option FrameId) (slots : List Slot) (w : Lox.World) (v : World) (m : Lox.Run α)
    (n : Run β) (Q : List Slot → Lox.World → α → β → Prop) : Prop :=
  ∀ room : Room, room.IsAmple → AgreeIn room own slots w v m n Q

abbrev Alike (slots : List Slot) (_ : Lox.World) (a : Lox.Value) (b : Value) : Prop :=
  ValueLike slots a b

namespace AgreeIn

variable {room room' : Room} {own : Option FrameId} {slots : List Slot} {w w' : Lox.World} {v v' : World}
  {m m' : Lox.Run α} {n n' : Run β} {Q R : List Slot → Lox.World → α → β → Prop}

/-- What the same steps lead to from the same worlds agrees if it does from there. -/
theorem congr (hm : m.run room w = m'.run room' w) (hn : n.run v = n'.run v)
    (h : AgreeIn room' own slots w v m' n' Q) : AgreeIn room own slots w v m n Q := by
  cases h with
  | ok hm' hn' hl hc hq => exact .ok (hm.trans hm') (hn.trans hn') hl hc hq
  | stop hm' hn' hc => exact .stop (hm.trans hm') (hn.trans hn') hc
  | defect hm' => exact .defect (hm.trans hm')

theorem mono (h : AgreeIn room own slots w v m n Q)
    (hqr : ∀ slots' w' a b, Later own slots slots' w w' → Q slots' w' a b → R slots' w' a b) :
    AgreeIn room own slots w v m n R := by
  cases h with
  | ok hm hn hl hc hq => exact .ok hm hn hl hc (hqr _ _ _ _ hl hq)
  | stop hm hn hc => exact .stop hm hn hc
  | defect hm => exact .defect hm

end AgreeIn

namespace Agree

variable {own : Option FrameId} {slots : List Slot} {w : Lox.World} {v : World}

theorem of_ok {m : Lox.Run α} {n : Run β} {Q : List Slot → Lox.World → α → β → Prop} {a : α} {b : β}
    {slots' : List Slot} {w' : Lox.World} {v' : World} (hm : ∀ {room}, m.run room w = .ok a w')
    (hn : n.run v = .ok b v') (hl : Later own slots slots' w w') (hc : Corresponds slots' w' v')
    (hq : Q slots' w' a b) : Agree own slots w v m n Q :=
  fun _ _ => .ok hm hn hl hc hq

theorem of_stop {m : Lox.Run α} {n : Run β} {Q : List Slot → Lox.World → α → β → Prop} {s : Stop}
    {w' : Lox.World} {v' : World} (hm : ∀ {room}, m.run room w = .error s w')
    (hn : n.run v = .error s v') (hc : Corresponds slots w' v') : Agree own slots w v m n Q :=
  fun _ _ => .stop hm hn hc

theorem of_defect {m : Lox.Run α} {n : Run β} {Q : List Slot → Lox.World → α → β → Prop} {d : Defect}
    {w' : Lox.World} (hm : ∀ {room}, m.run room w = .error (.defect d) w') : Agree own slots w v m n Q :=
  fun _ _ => .defect hm

theorem congr {m m' : Lox.Run α} {n n' : Run β} {Q : List Slot → Lox.World → α → β → Prop}
    (hm : ∀ {room}, m.run room w = m'.run room w) (hn : n.run v = n'.run v)
    (h : Agree own slots w v m' n' Q) : Agree own slots w v m n Q :=
  fun room hroom => (h room hroom).congr hm hn

theorem pure {Q : List Slot → Lox.World → α → β → Prop} {a : α} {b : β} (hc : Corresponds slots w v)
    (hq : Q slots w a b) : Agree own slots w v (pure a) (pure b) Q :=
  of_ok rfl rfl (Later.refl own slots w) hc hq

theorem bind {m : Lox.Run α} {n : Run β} {f : α → Lox.Run γ} {g : β → Run δ}
    {Q : List Slot → Lox.World → α → β → Prop} {R : List Slot → Lox.World → γ → δ → Prop}
    (h : Agree own slots w v m n Q)
    (hf : ∀ slots' w' v' a b, Later own slots slots' w w' → Corresponds slots' w' v' →
      Q slots' w' a b → Agree own slots' w' v' (f a) (g b) R) :
    Agree own slots w v (m >>= f) (n >>= g) R := by
  intro room hroom
  cases h room hroom with
  | @ok a b slots' w' v' hm hn hl hc hq =>
    have hm' := Lox.run_bind_ok f hm
    have hn' := run_bind_ok g hn
    cases hf slots' w' v' a b hl hc hq room hroom with
    | ok hfm hgn hl' hc' hr => exact .ok (hm'.trans hfm) (hn'.trans hgn) (hl.trans hl') hc' hr
    | stop hfm hgn hc' => exact .stop (hm'.trans hfm) (hn'.trans hgn) hc'
    | defect hfm => exact .defect (hm'.trans hfm)
  | stop hm hn hc => exact .stop (Lox.run_bind_error f hm) (run_bind_error g hn) hc
  | defect hm => exact .defect (Lox.run_bind_error f hm)

theorem mono {m : Lox.Run α} {n : Run β} {Q R : List Slot → Lox.World → α → β → Prop}
    (h : Agree own slots w v m n Q)
    (hqr : ∀ slots' w' a b, Later own slots slots' w w' → Q slots' w' a b → R slots' w' a b) :
    Agree own slots w v m n R := fun room hroom => (h room hroom).mono hqr

theorem weaken {m : Lox.Run α} {n : Run β} {Q : List Slot → Lox.World → α → β → Prop}
    (h : Agree none slots w v m n Q) (own : Option FrameId) : Agree own slots w v m n Q := by
  intro room hroom
  cases h room hroom with
  | ok hm hn hl hc hq => exact .ok hm hn (hl.weaken own) hc hq
  | stop hm hn hc => exact .stop hm hn hc
  | defect hm => exact .defect hm

theorem first {own : Option FrameId} {m : Lox.Run α} {n : Run β} {f : α → Lox.Run γ} {g : β → Run δ}
    {Q : List Slot → Lox.World → α → β → Prop} {R : List Slot → Lox.World → γ → δ → Prop}
    (h : Agree none slots w v m n Q)
    (hf : ∀ slots' w' v' a b, Later none slots slots' w w' → Corresponds slots' w' v' →
      Q slots' w' a b → Agree own slots' w' v' (f a) (g b) R) :
    Agree own slots w v (m >>= f) (n >>= g) R := by
  have hlater : Agree none slots w v m n fun slots' w' a b =>
      Later none slots slots' w w' ∧ Q slots' w' a b := h.mono fun _ _ _ _ hl hq => ⟨hl, hq⟩
  exact (hlater.weaken own).bind fun _ _ _ _ _ _ hc hq => hf _ _ _ _ _ hq.1 hc hq.2

theorem within {m : Lox.Run α} {n : Run Completion}
    {Q : List Slot → Lox.World → α → Completion → Prop} (h : Agree own slots w v m n Q) (lenv : Env) :
    Agree own slots w v m (within lenv n) fun slots' w' a c =>
      ∃ c', Q slots' w' a c' ∧ c = c'.leave lenv := by
  intro room hroom
  cases h room hroom with
  | ok hm hn hl hc hq => exact .ok hm (run_bind_ok _ hn) hl hc ⟨_, hq, rfl⟩
  | stop hm hn hc => exact .stop hm (run_bind_error _ hn) hc
  | defect hm => exact .defect hm

theorem enter {env : Environment} {name : String} {f : Environment → Lox.Run α} {n : Run β}
    {Q : List Slot → Lox.World → α → β → Prop}
    (h : Agree (some w.store.size) slots { w with store := (w.store.alloc name).2 } v
      (f (env.child w.store.size)) n Q) :
    Agree none slots w v (Lox.Run.enter env name >>= f) n Q := by
  intro room hroom
  have henter : (Lox.Run.enter env name >>= f).run room w =
      (f (env.child w.store.size)).run room { w with store := (w.store.alloc name).2 } :=
    Lox.run_bind_ok f rfl
  have hsize : w.store.size ≤ (w.store.alloc name).2.size := by
    rw [Store.size_alloc]
    exact Nat.le_succ w.store.size
  cases h room hroom with
  | ok hm hn hl hc hq =>
    exact .ok (henter.trans hm) hn (hl.inside (Nat.le_refl w.store.size) hsize) hc hq
  | stop hm hn hc => exact .stop (henter.trans hm) hn hc
  | defect hm => exact .defect (henter.trans hm)

/-! ### Room -/

theorem inside {m : Lox.Run α} {n : Run β} {Q : List Slot → Lox.World → α → β → Prop} (a : Activity)
    (h : Agree own slots w v m n Q) : Agree own slots w v (Lox.Run.inside a m) n Q := fun room hroom =>
  .congr (Lox.Run.run_inside_fits (hroom.fits a)) rfl (h (room.inside a) (hroom.inside a))

theorem calling {m : Lox.Run α} {n : Run β} {Q : List Slot → Lox.World → α → β → Prop} (span : Span)
    (h : Agree own slots w v m n Q) : Agree own slots w v (Lox.Run.calling span m) n Q := by
  intro room hroom
  have hm : (Lox.Run.calling span m).run room w = m.run (room.calling span) w := rfl
  exact .congr hm rfl (h (room.calling span) (hroom.calling span))

theorem blaming {m : Lox.Run α} {n : Run β} {Q : List Slot → Lox.World → α → β → Prop} (span : Span)
    (h : Agree own slots w v m n Q) : Agree own slots w v (Lox.Run.blaming span m) n Q := by
  intro room hroom
  have hm : (Lox.Run.blaming span m).run room w = m.run (room.blaming span) w := rfl
  exact .congr hm rfl (h (room.blaming span) (hroom.blaming span))

theorem fail {Q : List Slot → Lox.World → α → β → Prop} (e : RuntimeError) (span : Span)
    (hc : Corresponds slots w v) : Agree own slots w v (Lox.Run.fail e span) (Run.fail e span) Q :=
  inside .report (of_stop rfl rfl hc)

/-! ### Names -/

section Reference

variable {name : String} {span : Span} {lenv : Env} {l : Location} {b : Value}

theorem run_read_local (hl : lenv.lookup name = some l) :
    (Run.read lenv name span).run v = .ok (v.cells.getD l default) v := by
  unfold Run.read
  rw [run_bind_ok _ (rfl : (get : Run World).run v = .ok v v)]
  simp only [hl]
  rfl

theorem run_read_global (hl : lenv.lookup name = none) (hb : v.globals name = some b) :
    (Run.read lenv name span).run v = .ok b v := by
  unfold Run.read
  rw [run_bind_ok _ (rfl : (get : Run World).run v = .ok v v)]
  simp only [hl, hb]
  rfl

theorem run_read_undefined (hl : lenv.lookup name = none) (hb : v.globals name = none) :
    (Run.read lenv name span).run v = (Run.fail (.undefinedVariable name) span : Run Value).run v := by
  unfold Run.read
  rw [run_bind_ok _ (rfl : (get : Run World).run v = .ok v v)]
  simp only [hl, hb]

theorem run_assign_local (hl : lenv.lookup name = some l) :
    (Run.assign lenv name span b).run v = .ok () { v with cells := v.cells.set l b } := by
  unfold Run.assign
  rw [run_bind_ok _ (rfl : (get : Run World).run v = .ok v v)]
  simp only [hl]
  rfl

theorem run_assign_global {c : Value} (hl : lenv.lookup name = none) (hb : v.globals name = some c) :
    (Run.assign lenv name span b).run v =
      .ok () { v with globals := fun x => if x = name then some b else v.globals x } := by
  unfold Run.assign
  rw [run_bind_ok _ (rfl : (get : Run World).run v = .ok v v)]
  simp only [hl, hb]
  rfl

theorem run_assign_undefined (hl : lenv.lookup name = none) (hb : v.globals name = none) :
    (Run.assign lenv name span b).run v = (Run.fail (.undefinedVariable name) span : Run Unit).run v := by
  unfold Run.assign
  rw [run_bind_ok _ (rfl : (get : Run World).run v = .ok v v)]
  simp only [hl, hb]

end Reference

theorem read {env : Environment} {lenv : Env} {name : String} {ref : Option Nat} {span : Span}
    (hc : Corresponds slots w v) (hout : env.outermost = 0) (hl : Located slots env lenv name ref) :
    Agree own slots w v (Lox.Run.read env name ref span) (Run.read lenv name span) Alike := by
  cases ref with
  | some hops =>
    obtain ⟨id, l, hid, hlookup, hs⟩ := hl
    obtain ⟨a, ha, hab⟩ := hc.read hs
    exact of_ok (Lox.Run.run_read_local hid ha) (run_read_local hlookup) (Later.refl own slots w) hc hab
  | none =>
    have hglobal := hc.global_cases name
    rw [← hout] at hglobal
    rcases hglobal with ⟨a, b, ha, hb, hab⟩ | ⟨ha, hb⟩
    · exact of_ok (Lox.Run.run_read_global ha) (run_read_global hl hb) (Later.refl own slots w) hc hab
    · exact congr (Lox.Run.run_read_undefined ha) (run_read_undefined hl hb) (fail _ span hc)

theorem assign {env : Environment} {lenv : Env} {name : String} {ref : Option Nat} {span : Span}
    {a : Lox.Value} {b : Value} (hc : Corresponds slots w v) (hout : env.outermost = 0)
    (hl : Located slots env lenv name ref ∨
      (ref = some 0 ∧ env.frame ≠ 0 ∧ (env.frame, name) ∉ slots)) (hab : ValueLike slots a b) :
    Agree own slots w v (Lox.Run.assign env name ref span a) (Run.assign lenv name span b)
      fun _ _ _ _ => True := by
  rcases hl with hl | ⟨rfl, hne, hnew⟩
  · cases ref with
    | some hops =>
      obtain ⟨id, l, hid, hlookup, hs⟩ := hl
      obtain ⟨u, hu, -⟩ := hc.read hs
      have hfilled : (w.store.slot? id name).isSome := by rw [hu]; rfl
      exact of_ok (Lox.Run.run_assign_local hid hfilled) (run_assign_local hlookup)
        (Later.same own slots (Store.size_le_define w.store id name a)) (hc.assign hs hab) trivial
    | none =>
      rcases hc.global_cases name with ⟨u, c, hu, hb, -⟩ | ⟨hu, hb⟩
      · have hfilled : (w.store.slot? env.outermost name).isSome := by rw [hout, hu]; rfl
        have hglobal := hc.defineGlobal name hab
        rw [← hout] at hglobal
        exact of_ok (Lox.Run.run_assign_global hfilled) (run_assign_global hl hb)
          (Later.same own slots (Store.size_le_define w.store env.outermost name a)) hglobal trivial
      · have hempty : (w.store.slot? env.outermost name).isSome = false := by rw [hout, hu]; rfl
        exact congr (Lox.Run.run_assign_undefined hempty) (run_assign_undefined hl hb) (fail _ span hc)
  · have hempty : (w.store.slot? env.frame name).isSome = false := by
      cases hs : w.store.slot? env.frame name with
      | none => rfl
      | some u => exact absurd (hc.filled env.frame name u hne hs) hnew
    exact of_defect (Lox.Run.run_assign_unbound rfl hempty)

theorem print (text : String) (hc : Corresponds slots w v) :
    Agree own slots w v (Lox.Run.print text) (Run.print text) fun _ _ _ _ => True :=
  of_ok rfl rfl (Later.same own slots (Nat.le_refl w.store.size)) (hc.print text) trivial

theorem declare {env : Environment} {lenv : Env} {scopes : List (List String)} {name : String}
    {a : Lox.Value} {b : Value} (hc : Corresponds slots w v) (hat : At slots w scopes env lenv)
    (hne : scopes ≠ []) (hfree : FreeIn name scopes) (hab : ValueLike slots a b) :
    Agree (some env.frame) slots w v (Lox.Run.define env name a) (Run.declare lenv name b)
      fun slots' w' _ lenv' => At slots' w' (extendScope [name] scopes) env lenv' := by
  have hsize : w.store.size ≤ (w.store.define env.frame name a).size :=
    Store.size_le_define w.store env.frame name a
  have hplace : At (slots ++ [(env.frame, name)]) { w with store := w.store.define env.frame name a }
      (extendScope [name] scopes) env ((name, slots.length) :: lenv) := hat.declare hne name hsize
  rw [← hc.length] at hplace
  exact of_ok rfl rfl (Later.declare slots hsize env.frame name)
    (hc.declare (hat.frame_ne hne) hat.made (hat.not_mem hne hfree) hab.mono) hplace

theorem declareFunction {env : Environment} {lenv : Env} {scopes : List (List String)} {name : String}
    {params : List Parameter} {body : List (Stmt Unit)} (hc : Corresponds slots w v)
    (hat : At slots w scopes env lenv) (hne : scopes ≠ []) (hfree : FreeIn name scopes)
    (hnodup : (paramNames params).Nodup) (hplaced : Stmt.PlacedAll body)
    (haccepted : Stmt.AcceptedAll false (paramNames params :: extendScope [name] scopes) true body) :
    Agree (some env.frame) slots w v
      (Lox.Run.newFunction (.closure ⟨name, params,
          Stmt.annotateAll hopsLabel (paramNames params :: extendScope [name] scopes) body, env⟩) >>=
        fun f => Lox.Run.define env name f)
      (Run.declareFunction lenv name params body)
      fun slots' w' _ lenv' => At slots' w' (extendScope [name] scopes) env lenv' := by
  let f : Lox.Value := .function w.functions (.closure ⟨name, params,
    Stmt.annotateAll hopsLabel (paramNames params :: extendScope [name] scopes) body, env⟩)
  let w' : Lox.World :=
    { w with store := w.store.define env.frame name f, functions := w.functions + 1 }
  have hsize : w.store.size ≤ w'.store.size := Store.size_le_define w.store env.frame name f
  have hplace : At (slots ++ [(env.frame, name)]) w' (extendScope [name] scopes) env
      ((name, slots.length) :: lenv) := hat.declare hne name hsize
  rw [← hc.length] at hplace
  have hlike : ValueLike (slots ++ [(env.frame, name)]) f
      (.function v.functions (.closure ⟨name, params, body, (name, v.cells.length) :: lenv⟩)) := by
    rw [← hc.functions]
    exact .function (.closure ⟨rfl, rfl, hnodup, hplaced, _, hplace.sees, rfl, haccepted⟩)
  exact of_ok rfl rfl (Later.declare slots hsize env.frame name)
    (hc.countFunction.declare (hat.frame_ne hne) hat.made (hat.not_mem hne hfree) hlike) hplace

end Agree

end Lox.Lexical

import Lox.Proofs.Execution.Results
import Lox.Proofs.Execution.Soundness
import Lox.Proofs.Scope.Labels

/-!
# Safety of evaluation

Whatever an accepted statement does, the world behind it is sound again and has lost no name, whether it
ends, returns or stops early; and where it stops on a defect, a variable without a value was assigned in
its own initializer. Each part of the evaluation has one rule, and the rules for statements follow the
tree.
-/

namespace Lox

variable {redeclare : Bool} {own : String → Prop} {α β : Type}

/-- What holds of a world after an earlier one, however the evaluation between them ended. -/
structure World.Follows (redeclare : Bool) (own : String → Prop) (w w' : World) : Prop where
  grows : w.store.Grows w'.store
  sound : w'.store.Sound redeclare own

abbrev Value.SoundIn (redeclare : Bool) (own : String → Prop) (v : Value) (w : World) : Prop :=
  v.Sound redeclare own w.store

def Stop.Excused (own : String → Prop) : Stop → Prop
  | .defect d => ∃ x frame, d = .unbound x frame 0 ∧ own x
  | .error _ _ | .passesUsedUp | .refused => True

/-- Evaluation from a world leads to a sound one, with a result that is as said or an excused stop. -/
def Safe (redeclare : Bool) (own : String → Prop) (w : World) (m : Run α) (Q : α → World → Prop) :
    Prop :=
  ∀ room, match m.run room w with
  | .ok a w' => w.Follows redeclare own w' ∧ Q a w'
  | .error stop w' => w.Follows redeclare own w' ∧ stop.Excused own

namespace Safe

variable {w : World}

theorem of_ok {m : Run α} {Q : α → World → Prop} {a : α} {w' : World}
    (h : ∀ {room}, m.run room w = .ok a w') (hf : w.Follows redeclare own w') (hq : Q a w') :
    Safe redeclare own w m Q := by
  intro room
  rw [h]
  exact ⟨hf, hq⟩

theorem of_error {m : Run α} {Q : α → World → Prop} {stop : Stop}
    (h : ∀ {room}, m.run room w = .error stop w) (hw : w.store.Sound redeclare own)
    (he : stop.Excused own) : Safe redeclare own w m Q := by
  intro room
  rw [h]
  exact ⟨⟨Store.Grows.refl w.store, hw⟩, he⟩

theorem congr {m n : Run α} {Q : α → World → Prop} (h : ∀ {room}, m.run room w = n.run room w)
    (hn : Safe redeclare own w n Q) : Safe redeclare own w m Q := by
  intro room
  rw [h]
  exact hn room

theorem inside {m : Run α} {Q : α → World → Prop} (a : Activity) (hw : w.store.Sound redeclare own)
    (hm : Safe redeclare own w m Q) : Safe redeclare own w (Run.inside a m) Q := by
  intro room
  rcases Run.inside_cases a m room w with h | h
  · rw [h]
    exact hm _
  · rw [h]
    exact ⟨⟨Store.Grows.refl w.store, hw⟩, trivial⟩

theorem calling {m : Run α} {Q : α → World → Prop} (span : Span) (hm : Safe redeclare own w m Q) :
    Safe redeclare own w (Run.calling span m) Q := fun _ => hm _

theorem blaming {m : Run α} {Q : α → World → Prop} (span : Span) (hm : Safe redeclare own w m Q) :
    Safe redeclare own w (Run.blaming span m) Q := fun _ => hm _

theorem pure {Q : α → World → Prop} {a : α} (hw : w.store.Sound redeclare own) (hq : Q a w) :
    Safe redeclare own w (pure a) Q :=
  of_ok rfl ⟨Store.Grows.refl w.store, hw⟩ hq

theorem fail {Q : α → World → Prop} (e : RuntimeError) (span : Span)
    (hw : w.store.Sound redeclare own) : Safe redeclare own w (Run.fail e span) Q :=
  inside .report hw (of_error rfl hw trivial)

theorem bind {m : Run α} {f : α → Run β} {Q : α → World → Prop} {R : β → World → Prop}
    (hm : Safe redeclare own w m Q)
    (hf : ∀ a w', w.Follows redeclare own w' → Q a w' → Safe redeclare own w' (f a) R) :
    Safe redeclare own w (m >>= f) R := by
  intro room
  have hm := hm room
  cases hr : m.run room w with
  | error stop w' =>
    rw [hr] at hm
    rw [run_bind_error f hr]
    exact hm
  | ok a w' =>
    rw [hr] at hm
    obtain ⟨hw, hq⟩ := hm
    have hfa := hf a w' hw hq room
    rw [run_bind_ok f hr]
    cases hr' : (f a).run room w' with
    | ok b w'' =>
      rw [hr'] at hfa
      exact ⟨⟨hw.grows.trans hfa.1.grows, hfa.1.sound⟩, hfa.2⟩
    | error stop w'' =>
      rw [hr'] at hfa
      exact ⟨⟨hw.grows.trans hfa.1.grows, hfa.1.sound⟩, hfa.2⟩

theorem mono {m : Run α} {Q R : α → World → Prop} (h : Safe redeclare own w m Q)
    (hqr : ∀ a w', w.Follows redeclare own w' → Q a w' → R a w') : Safe redeclare own w m R := by
  intro room
  have h := h room
  cases hr : m.run room w with
  | ok a w' =>
    rw [hr] at h
    exact ⟨h.1, hqr a w' h.1 h.2⟩
  | error stop w' =>
    rw [hr] at h
    exact h

/-! ### Names -/

theorem read {env : Environment} {name : String} {ref : Option Nat} {span : Span}
    (hw : w.store.Sound redeclare own)
    (hr : ∀ hops, ref = some hops → w.store.Holds env hops name) :
    Safe redeclare own w (Run.read env name ref span) (Value.SoundIn redeclare own) := by
  cases ref with
  | some hops =>
    obtain ⟨id, hid, hs⟩ := hr hops rfl
    obtain ⟨v, hv⟩ := Option.isSome_iff_exists.mp hs
    exact of_ok (Run.run_read_local hid hv) ⟨Store.Grows.refl w.store, hw⟩ (hw id name v hv)
  | none =>
    cases hv : w.store.slot? env.outermost name with
    | some v =>
      exact of_ok (Run.run_read_global hv) ⟨Store.Grows.refl w.store, hw⟩ (hw env.outermost name v hv)
    | none => exact congr (Run.run_read_undefined hv) (fail _ span hw)

theorem defineIn {id : FrameId} {name : String} {v : Value} (hw : w.store.Sound redeclare own)
    (hid : id < w.store.size) (hv : v.Sound redeclare own (w.store.define id name v)) :
    Safe redeclare own w (Run.defineIn id name v) fun _ w' => w'.store = w.store.define id name v :=
  of_ok rfl ⟨Store.grows_define hid name v, hw.define hid hv⟩ rfl

theorem assign {env : Environment} {name : String} {ref : Option Nat} {span : Span} {v : Value}
    (hw : w.store.Sound redeclare own)
    (hr : ∀ hops, ref = some hops → w.store.Holds env hops name ∨ (hops = 0 ∧ own name))
    (hv : v.Sound redeclare own w.store) :
    Safe redeclare own w (Run.assign env name ref span v) fun _ _ => True := by
  -- a slot that is filled belongs to a frame, so the value may enter it
  have hput : ∀ id, (w.store.slot? id name).isSome →
      w.Follows redeclare own { w with store := w.store.define id name v } := by
    intro id hs
    obtain ⟨u, hu⟩ := Option.isSome_iff_exists.mp hs
    have hid := Store.lt_size_of_slot? hu
    have hg := Store.grows_define hid name v
    exact ⟨hg, hw.define hid (hv.mono hg)⟩
  cases ref with
  | some hops =>
    by_cases hh : w.store.Holds env hops name
    · obtain ⟨id, hid, hs⟩ := hh
      exact of_ok (Run.run_assign_local hid hs) (hput id hs) trivial
    · obtain ⟨rfl, ho⟩ := (hr hops rfl).resolve_left hh
      have hs : (w.store.slot? env.frame name).isSome = false := by
        rw [Bool.eq_false_iff]
        exact fun hs => hh ⟨env.frame, rfl, hs⟩
      exact of_error (Run.run_assign_unbound rfl hs) hw ⟨name, _, rfl, ho⟩
  | none =>
    cases hs : (w.store.slot? env.outermost name).isSome with
    | true => exact of_ok (Run.run_assign_global hs) (hput env.outermost hs) trivial
    | false => exact congr (Run.run_assign_undefined hs) (fail _ span hw)

theorem define {env : Environment} {scopes : List (List String)} {name : String} {v : Value}
    (hw : w.store.Sound redeclare own) (hc : w.store.Covers scopes env)
    (hv : v.Sound redeclare own (w.store.define env.frame name v)) :
    Safe redeclare own w (Run.define env name v)
      fun _ w' => w'.store.Covers (extendScope [name] scopes) env := by
  refine (defineIn hw hc.1 hv).mono fun _ w' _ hs => ?_
  rw [hs]
  exact hc.define name v

theorem enter {env : Environment} {scopes : List (List String)} (name : String)
    (hw : w.store.Sound redeclare own) (hc : w.store.Covers scopes env) :
    Safe redeclare own w (Run.enter env name) fun inner w' => w'.store.Covers ([] :: scopes) inner :=
  of_ok rfl ⟨Store.grows_alloc w.store name, hw.alloc name⟩ (hc.alloc name)

theorem newFunction {f : Callable} (hw : w.store.Sound redeclare own) :
    Safe redeclare own w (Run.newFunction f)
      fun v w' => w'.store = w.store ∧ ∃ id, v = .function id f :=
  of_ok rfl ⟨Store.Grows.refl w.store, hw⟩ ⟨rfl, w.functions, rfl⟩

theorem print {text : String} (hw : w.store.Sound redeclare own) :
    Safe redeclare own w (Run.print text) fun _ _ => True :=
  of_ok rfl ⟨Store.Grows.refl w.store, hw⟩ trivial

theorem ofOperator {span : Span} {r : Except RuntimeError Value} (hw : w.store.Sound redeclare own)
    (hr : ∀ v, r = .ok v → v.IsConstant) :
    Safe redeclare own w (Run.ofOperator span r) (Value.SoundIn redeclare own) := by
  cases r with
  | ok v =>
    obtain ⟨l, rfl⟩ := hr v rfl
    exact pure hw (Value.sound_ofLiteral w.store l)
  | error e => exact fail e span hw

end Safe

end Lox

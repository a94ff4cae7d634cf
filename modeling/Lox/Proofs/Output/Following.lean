import Lox.Proofs.Output.Chronicle

/-!
# Going on with a chronicle

What evaluation with a chronicle has to do to follow plain evaluation: from a world of bare values it does
the same, and adds moments of bare values that keep in step with what is printed. The parts that evaluation
is made of do so.
-/

namespace Lox

variable {α β : Type}

/-! ### Changes without a moment -/

namespace World

variable {w : World}

theorem Bare.define (h : w.Bare) (id : FrameId) (name : String) {v : Value} (hv : v.Bare) :
    Bare { w with store := w.store.define id name v } := by
  intro g x u hu
  rcases Store.slot?_define_cases hu with ⟨-, rfl⟩ | hu
  · exact hv
  · exact h g x u hu

theorem Bare.alloc (h : w.Bare) (name : String) : Bare { w with store := (w.store.alloc name).2 } := by
  intro g x u hu
  rw [Store.slot?_alloc] at hu
  exact h g x u hu

end World

namespace Run

/-- From a world of bare values a run leads to such a world, with a result as said and without printing. -/
def Quiet (m : Run α) (Q : α → Prop) : Prop :=
  ∀ (room : Room) (w : World), w.Bare →
    match m.run room w with
    | .ok a v => (v.Bare ∧ v.printed = w.printed) ∧ Q a
    | .error _ v => v.Bare ∧ v.printed = w.printed

namespace Quiet

theorem of_ok {m : Run α} {Q : α → Prop} {a : World → α} {f : World → World}
    (h : ∀ room w, m.run room w = .ok (a w) (f w))
    (hf : ∀ w : World, w.Bare → (f w).Bare ∧ (f w).printed = w.printed) (hq : ∀ w, Q (a w)) :
    m.Quiet Q := by
  intro room w hw
  rw [h room w]
  exact ⟨hf w hw, hq w⟩

theorem pure {Q : α → Prop} {a : α} (hq : Q a) : Quiet (pure a) Q :=
  of_ok (fun _ _ => rfl) (fun _ hw => ⟨hw, rfl⟩) fun _ => hq

theorem throw {Q : α → Prop} (stop : Stop) : Quiet (throw stop) Q := fun _ _ hw => ⟨hw, rfl⟩

theorem bind {m : Run α} {f : α → Run β} {Q : α → Prop} {R : β → Prop} (hm : m.Quiet Q)
    (hf : ∀ a, Q a → (f a).Quiet R) : (m >>= f).Quiet R := by
  intro room w hw
  have hfirst := hm room w hw
  cases h : m.run room w with
  | ok a v =>
    rw [h] at hfirst
    rw [run_bind_ok f h]
    obtain ⟨⟨hv, hprinted⟩, ha⟩ := hfirst
    have hrest := hf a ha room v hv
    rwa [hprinted] at hrest
  | error stop v =>
    rw [h] at hfirst
    rw [run_bind_error f h]
    exact hfirst

theorem inside {m : Run α} {Q : α → Prop} (a : Activity) (hm : m.Quiet Q) :
    Quiet (Run.inside a m) Q := by
  intro room w hw
  rcases inside_cases a m room w with h | h
  · rw [h]
    exact hm _ w hw
  · rw [h]
    exact ⟨hw, rfl⟩

theorem fail {Q : α → Prop} (e : RuntimeError) (span : Span) : Quiet (Run.fail e span : Run α) Q :=
  inside .report (throw _)

theorem read (env : Environment) (name : String) (ref : Option Nat) (span : Span) :
    (Run.read env name ref span).Quiet Value.Bare := by
  intro room w hw
  rcases read_cases w env name ref span with ⟨id, -, v, hv, hrun⟩ | ⟨d, hrun⟩ | ⟨-, -, hrun⟩
  · rw [hrun]
    exact ⟨⟨hw, rfl⟩, hw id name v hv⟩
  · rw [hrun]
    exact ⟨hw, rfl⟩
  · rw [hrun]
    exact fail _ span room w hw

theorem assign (env : Environment) (name : String) (ref : Option Nat) (span : Span) {v : Value}
    (hv : v.Bare) : (Run.assign env name ref span v).Quiet fun _ => True := by
  intro room w hw
  rcases assign_cases w env name ref span v with ⟨id, -, hrun⟩ | ⟨d, hrun⟩ | ⟨-, -, hrun⟩
  · rw [hrun]
    exact ⟨⟨hw.define id name hv, rfl⟩, trivial⟩
  · rw [hrun]
    exact ⟨hw, rfl⟩
  · rw [hrun]
    exact fail _ span room w hw

theorem define (env : Environment) (name : String) {v : Value} (hv : v.Bare) :
    (Run.define env name v).Quiet fun _ => True :=
  of_ok (fun _ _ => rfl) (fun _ hw => ⟨hw.define env.frame name hv, rfl⟩) fun _ => trivial

theorem enter (env : Environment) (name : String) : (Run.enter env name).Quiet fun _ => True :=
  of_ok (fun _ _ => rfl) (fun _ hw => ⟨hw.alloc name, rfl⟩) fun _ => trivial

theorem newFunction {f : Callable} (hf : f.Bare) : (Run.newFunction f).Quiet Value.Bare :=
  of_ok (fun _ _ => rfl) (fun _ hw => ⟨hw, rfl⟩) fun _ => hf

theorem ofOperator (span : Span) {r : Except RuntimeError Value} (h : ∀ v, r = .ok v → v.Bare) :
    (Run.ofOperator span r).Quiet Value.Bare := by
  cases r with
  | ok v => exact pure (h v rfl)
  | error e => exact fail e span

theorem bindParams (env : Environment) (params : List Parameter) {args : List Value}
    (hargs : ∀ v ∈ args, v.Bare) : (Lox.bindParams env params args).Quiet fun _ => True := by
  induction params generalizing args with
  | nil => exact pure trivial
  | cons p params ih =>
    cases args with
    | nil => exact pure trivial
    | cons v args =>
      obtain ⟨hv, hargs⟩ := List.forall_mem_cons.mp hargs
      exact bind (define env p.name hv) fun _ _ => ih hargs

theorem callNative {host : Host} (hnatives : host.natives.Bare) (name : String) {args : List Value}
    (hargs : ∀ v ∈ args, v.Bare) (span : Span) : (callNative host name args span).Quiet Value.Bare := by
  intro room w hw
  cases hanswer : host.natives.answer name (host.clock w.nativeCalls) args with
  | ok v =>
    rw [run_callNative_ok hanswer]
    exact ⟨⟨hw, rfl⟩, hnatives.of_answer hargs hanswer⟩
  | error message =>
    rw [run_callNative_error hanswer]
    exact fail _ span room _ hw

end Quiet

end Run

/-! ### Following -/

/-- From a chronicle with a world of bare values, evaluation with a chronicle does what the plain one does
and the chronicle goes on, with a result as said. -/
def Chronicles (m : Chronicled α) (n : Run α) (Q : α → Prop) : Prop :=
  ∀ (room : Room) (c : Chronicle), c.world.Bare → ∃ d, c.Follows d ∧
    ((∃ a, m.run room c = .ok a d ∧ n.run room c.world = .ok a d.world ∧ Q a) ∨
      ∃ stop, m.run room c = .error stop d ∧ n.run room c.world = .error stop d.world)

def ChronicledRule.Chronicles (call : ChronicledRule) (rule : CallRule) : Prop :=
  ∀ f args span, f.Bare → (∀ v ∈ args, v.Bare) →
    Lox.Chronicles (call f args span) (rule f args span) Value.Bare

namespace Chronicles

variable {Q : α → Prop}

theorem lift {n : Run α} (h : n.Quiet Q) : Chronicles (Chronicled.lift n) n Q := by
  intro room c hc
  have hquiet := h room c.world hc
  have hlift : (Chronicled.lift n).run room c = match n.run room c.world with
    | .ok a w => .ok a { c with world := w }
    | .error stop w => .error stop { c with world := w } := rfl
  rw [hlift]
  cases hn : n.run room c.world with
  | ok a w =>
    rw [hn] at hquiet
    exact ⟨{ c with world := w }, .of_world hquiet.1.1 hquiet.1.2, Or.inl ⟨a, rfl, rfl, hquiet.2⟩⟩
  | error stop w =>
    rw [hn] at hquiet
    exact ⟨{ c with world := w }, .of_world hquiet.1 hquiet.2, Or.inr ⟨stop, rfl, rfl⟩⟩

theorem pure {a : α} (hq : Q a) : Chronicles (Pure.pure a) (Pure.pure a) Q := fun _ c hc =>
  ⟨c, .refl hc, Or.inl ⟨a, rfl, rfl, hq⟩⟩

theorem throw (stop : Stop) :
    Chronicles (MonadExcept.throw stop : Chronicled α) (MonadExcept.throw stop) Q := fun _ c hc =>
  ⟨c, .refl hc, Or.inr ⟨stop, rfl, rfl⟩⟩

theorem bind {m : Chronicled α} {n : Run α} {f : α → Chronicled β} {g : α → Run β} {R : β → Prop}
    (h : Chronicles m n Q) (hf : ∀ a, Q a → Chronicles (f a) (g a) R) :
    Chronicles (m >>= f) (n >>= g) R := by
  intro room c hc
  obtain ⟨d, hd, ⟨a, hm, hn, ha⟩ | ⟨stop, hm, hn⟩⟩ := h room c hc
  · obtain ⟨e, he, hrest⟩ := hf a ha room d hd.bare
    refine ⟨e, hd.trans he, ?_⟩
    rw [run_bind_ok f hm, run_bind_ok g hn]
    exact hrest
  · exact ⟨d, hd, Or.inr ⟨stop, run_bind_error f hm, run_bind_error g hn⟩⟩

/-! Both run in one room. -/

theorem inside {m : Chronicled α} {n : Run α} (a : Activity) (h : Chronicles m n Q) :
    Chronicles (Run.inside a m) (Run.inside a n) Q := by
  intro room c hc
  cases hfits : room.fits a with
  | true =>
    rw [Run.run_inside_fits hfits, Run.run_inside_fits hfits]
    exact h (room.inside a) c hc
  | false =>
    rw [Run.run_inside_exhausted hfits, Run.run_inside_exhausted hfits]
    exact ⟨c, .refl hc, Or.inr ⟨_, rfl, rfl⟩⟩

theorem calling {m : Chronicled α} {n : Run α} (span : Span) (h : Chronicles m n Q) :
    Chronicles (Run.calling span m) (Run.calling span n) Q := fun room c hc =>
  h (room.calling span) c hc

theorem blaming {m : Chronicled α} {n : Run α} (span : Span) (h : Chronicles m n Q) :
    Chronicles (Run.blaming span m) (Run.blaming span n) Q := fun room c hc =>
  h (room.blaming span) c hc

theorem fail (e : RuntimeError) (span : Span) :
    Chronicles (Chronicled.lift (Run.fail e span : Run α)) (Run.fail e span) Q :=
  lift (.fail e span)

theorem note {x : Happening} (hvalues : ∀ v ∈ x.values, v.Bare) (hprinted : x.printed? = none)
    {m : Chronicled α} {n : Run α} (h : Chronicles m n Q) :
    Chronicles (Chronicled.note x >>= fun _ => m) n Q := by
  intro room c hc
  let d : Chronicle := { c with moments := c.moments ++ [⟨x, c.written, c.world⟩] }
  have hnote : (Chronicled.note x).run room c = .ok () d := rfl
  have hprints : Moment.prints [⟨x, c.written, c.world⟩] = [] := by
    rw [Moment.prints, List.filterMap_cons, hprinted, List.filterMap_nil]
  have hwritten : c.written = c.written ++ (Moment.prints [⟨x, c.written, c.world⟩]).map Value.text := by
    rw [hprints, List.map_nil, List.append_nil]
  have hd : c.Follows d :=
    ⟨rfl, hc, _, rfl, List.forall_mem_singleton.mpr ⟨hvalues, hc⟩, ⟨hwritten, trivial⟩, hwritten⟩
  obtain ⟨e, he, hrun⟩ := h room d hc
  refine ⟨e, hd.trans he, ?_⟩
  rw [run_bind_ok _ hnote]
  exact hrun

theorem noted {m : Chronicled Value} {n : Run Value} (h : Chronicles m n Value.Bare) :
    Chronicles (Chronicled.noted m) n Value.Bare := by
  have hvalue : Chronicles (m >>= fun v => Chronicled.note (.evaluated v) >>= fun _ => Pure.pure v)
      (n >>= fun v => Pure.pure v) Value.Bare :=
    h.bind fun v hv => note (x := .evaluated v) (List.forall_mem_singleton.mpr hv) rfl (pure hv)
  have hplain : (n >>= fun v => Pure.pure v) = n := bind_pure n
  rw [hplain] at hvalue
  exact note (x := .begun) nofun rfl hvalue

theorem print {v : Value} (hv : v.Bare) :
    Chronicles (Chronicled.print v) (Run.print v.text) fun _ => True := by
  intro room c hc
  let w : World := { c.world with printed := c.world.printed.push v.text }
  let d : Chronicle := { c with world := w }
  let x : Moment := ⟨.printed v, d.written, w⟩
  have hwritten : d.written = c.written ++ (Moment.prints [x]).map Value.text := by
    change c.earlier ++ (c.world.printed.push v.text).toList = _
    rw [Array.toList_push, ← List.append_assoc]
    rfl
  refine ⟨{ d with moments := c.moments ++ [x] }, ⟨rfl, hc, [x], rfl, ?_, ⟨hwritten, trivial⟩, hwritten⟩,
    Or.inl ⟨(), rfl, rfl, trivial⟩⟩
  exact List.forall_mem_singleton.mpr ⟨List.forall_mem_singleton.mpr hv, hc⟩

end Chronicles

end Lox

import Lox.Proofs.Loops.Worlds

/-!
# Runs that agree

Two runs agree if from matching worlds, in one room, both give matching results, or both stop with the same
error at the same place, in worlds that match again; links are only added. Agreement follows the sequence
of evaluations, with one rule for each way to make a frame and to use a name.
-/

namespace Lox.Loops

variable {α β γ δ : Type}

/-- The same reason to stop; a defect tells the hops of the other tree and the frame that they count
from. -/
inductive StopMatches : Stop → Stop → Prop where
  | error (e : RuntimeError) (span : Span) : StopMatches (.error e span) (.error e span)
  | chainTooShort (depth depth' : Int) (frame frame' : String) :
    StopMatches (.defect (.chainTooShort depth frame)) (.defect (.chainTooShort depth' frame'))
  | unbound (name frame frame' : String) (depth depth' : Int) :
    StopMatches (.defect (.unbound name frame depth)) (.defect (.unbound name frame' depth'))
  | passesUsedUp : StopMatches .passesUsedUp .passesUsedUp

inductive AgreeIn (room : Room) (links : Links) (w w' : World) (m : Run α) (n : Run β)
    (Q : Links → α → β → Prop) : Prop where
  | ok {a : α} {b : β} {later : Links} {v v' : World} (hm : m.run room w = .ok a v)
    (hn : n.run room w' = .ok b v') (hl : links ⊆ later) (hw : WorldsMatch later v v')
    (hq : Q later a b) : AgreeIn room links w w' m n Q
  | stop {s s' : Stop} {later : Links} {v v' : World} (hm : m.run room w = .error s v)
    (hn : n.run room w' = .error s' v') (hl : links ⊆ later) (hs : StopMatches s s')
    (hw : WorldsMatch later v v') : AgreeIn room links w w' m n Q

/-- However much room there is, the runs do the same. -/
def Agree (links : Links) (w w' : World) (m : Run α) (n : Run β) (Q : Links → α → β → Prop) : Prop :=
  ∀ room, AgreeIn room links w w' m n Q

namespace AgreeIn

variable {room : Room} {links : Links} {w w' : World} {m : Run α} {n : Run β}

/-- What the same steps lead to from the worlds at hand agrees if it does from there, as long as links are
kept. -/
theorem congr {m₁ : Run α} {n₁ : Run β} {Q : Links → α → β → Prop} {room₁ : Room} {links₁ : Links}
    {w₁ w₁' : World} (hm : m.run room w = m₁.run room₁ w₁) (hn : n.run room w' = n₁.run room₁ w₁')
    (hl : links ⊆ links₁) (h : AgreeIn room₁ links₁ w₁ w₁' m₁ n₁ Q) : AgreeIn room links w w' m n Q := by
  cases h with
  | ok hm₁ hn₁ hl₁ hw hq =>
    exact .ok (hm.trans hm₁) (hn.trans hn₁) (List.Subset.trans hl hl₁) hw hq
  | stop hm₁ hn₁ hl₁ hs hw =>
    exact .stop (hm.trans hm₁) (hn.trans hn₁) (List.Subset.trans hl hl₁) hs hw

end AgreeIn

namespace Agree

variable {links : Links} {w w' : World}

theorem of_ok {m : Run α} {n : Run β} {Q : Links → α → β → Prop} {a : α} {b : β} {v v' : World}
    (hm : ∀ {room}, m.run room w = .ok a v) (hn : ∀ {room}, n.run room w' = .ok b v')
    (hw : WorldsMatch links v v') (hq : Q links a b) : Agree links w w' m n Q :=
  fun _ => .ok hm hn (List.Subset.refl links) hw hq

theorem of_stop {m : Run α} {n : Run β} {Q : Links → α → β → Prop} {s s' : Stop} {v v' : World}
    (hm : ∀ {room}, m.run room w = .error s v) (hn : ∀ {room}, n.run room w' = .error s' v')
    (hs : StopMatches s s') (hw : WorldsMatch links v v') : Agree links w w' m n Q :=
  fun _ => .stop hm hn (List.Subset.refl links) hs hw

/-- Steps that run the same from the worlds at hand may be put in place of each other, as long as links
are kept. -/
theorem of_run {m : Run α} {n : Run β} {m₁ : Run α} {n₁ : Run β} {Q : Links → α → β → Prop}
    {links₁ : Links} {w₁ w₁' : World} (hm : ∀ {room}, m.run room w = m₁.run room w₁)
    (hn : ∀ {room}, n.run room w' = n₁.run room w₁') (hl : links ⊆ links₁)
    (h : Agree links₁ w₁ w₁' m₁ n₁ Q) : Agree links w w' m n Q :=
  fun room => (h room).congr hm hn hl

theorem pure {Q : Links → α → β → Prop} {a : α} {b : β} (hw : WorldsMatch links w w')
    (hq : Q links a b) : Agree links w w' (pure a) (pure b) Q :=
  of_ok rfl rfl hw hq

theorem bind {m : Run α} {n : Run β} {f : α → Run γ} {g : β → Run δ} {Q : Links → α → β → Prop}
    {R : Links → γ → δ → Prop} (h : Agree links w w' m n Q)
    (hnext : ∀ later v v' a b, links ⊆ later → WorldsMatch later v v' → Q later a b →
      Agree later v v' (f a) (g b) R) :
    Agree links w w' (m >>= f) (n >>= g) R := by
  intro room
  cases h room with
  | ok hm hn hl hw hq =>
    exact (hnext _ _ _ _ _ hl hw hq room).congr (run_bind_ok f hm) (run_bind_ok g hn) hl
  | stop hm hn hl hs hw => exact .stop (run_bind_error f hm) (run_bind_error g hn) hl hs hw

theorem mono {m : Run α} {n : Run β} {Q R : Links → α → β → Prop} (h : Agree links w w' m n Q)
    (hqr : ∀ later a b, links ⊆ later → Q later a b → R later a b) : Agree links w w' m n R := by
  intro room
  cases h room with
  | ok hm hn hl hw hq => exact .ok hm hn hl hw (hqr _ _ _ hl hq)
  | stop hm hn hl hs hw => exact .stop hm hn hl hs hw

theorem and_left {m : Run α} {n : Run β} {Q : Links → α → β → Prop} {P : α → Prop}
    (h : Agree links w w' m n Q) (hp : ∀ room a v, m.run room w = .ok a v → P a) :
    Agree links w w' m n fun later a b => P a ∧ Q later a b := by
  intro room
  cases h room with
  | ok hm hn hl hw hq => exact .ok hm hn hl hw ⟨hp _ _ _ hm, hq⟩
  | stop hm hn hl hs hw => exact .stop hm hn hl hs hw

/-! ### Room -/

theorem inside {m : Run α} {n : Run β} {Q : Links → α → β → Prop} (a : Activity)
    (hw : WorldsMatch links w w') (h : Agree links w w' m n Q) :
    Agree links w w' (Run.inside a m) (Run.inside a n) Q := by
  intro room
  cases hfits : room.fits a with
  | true =>
    exact (h (room.inside a)).congr (Run.run_inside_fits hfits) (Run.run_inside_fits hfits)
      (List.Subset.refl links)
  | false =>
    exact .stop (Run.run_inside_exhausted hfits) (Run.run_inside_exhausted hfits)
      (List.Subset.refl links) (.error _ _) hw

theorem calling {m : Run α} {n : Run β} {Q : Links → α → β → Prop} (span : Span)
    (h : Agree links w w' m n Q) :
    Agree links w w' (Run.calling span m) (Run.calling span n) Q := by
  intro room
  have hm : (Run.calling span m).run room w = m.run (room.calling span) w := rfl
  have hn : (Run.calling span n).run room w' = n.run (room.calling span) w' := rfl
  exact (h (room.calling span)).congr hm hn (List.Subset.refl links)

theorem fail {Q : Links → α → β → Prop} (e : RuntimeError) (span : Span)
    (hw : WorldsMatch links w w') :
    Agree links w w' (Run.fail e span) (Run.fail e span) Q :=
  inside .report hw (of_stop rfl rfl (.error e span) hw)

/-! ### Frames -/

theorem run_enter_bind (env : Environment) (name : String) (f : Environment → Run α) {room : Room}
    (w : World) :
    (Run.enter env name >>= f).run room w =
      (f (env.child w.store.size)).run room { w with store := (w.store.alloc name).2 } :=
  run_bind_ok f rfl

section Frames

variable {env env' : Environment} {name : String} {Q : Links → α → β → Prop}

theorem enter {f : Environment → Run α} {g : Environment → Run β}
    (h : Agree ((w.store.size, w'.store.size) :: links) { w with store := (w.store.alloc name).2 }
      { w' with store := (w'.store.alloc name).2 } (f (env.child w.store.size))
      (g (env'.child w'.store.size)) Q) :
    Agree links w w' (Run.enter env name >>= f) (Run.enter env' name >>= g) Q :=
  of_run (run_enter_bind env name f w) (run_enter_bind env' name g w') (List.subset_cons_self _ links) h

theorem enterLeft {f : Environment → Run α} {n : Run β}
    (h : Agree links { w with store := (w.store.alloc name).2 } w' (f (env.child w.store.size)) n Q) :
    Agree links w w' (Run.enter env name >>= f) n Q :=
  of_run (run_enter_bind env name f w) rfl (List.Subset.refl links) h

theorem enterRight {m : Run α} {g : Environment → Run β}
    (h : Agree links w { w' with store := (w'.store.alloc name).2 } m (g (env'.child w'.store.size)) Q) :
    Agree links w w' m (Run.enter env' name >>= g) Q :=
  of_run rfl (run_enter_bind env' name g w') (List.Subset.refl links) h

end Frames

/-! ### Names -/

section Names

variable {h h' : Nat → Nat} {env env' : Environment}

theorem refuse {Q : Links → α → β → Prop} (hw : WorldsMatch links w w') (frame frame' name : String)
    (span : Span) (ref : Option Nat) :
    Agree links w w' (Run.refuse frame name span (ref.map h)) (Run.refuse frame' name span (ref.map h')) Q := by
  cases ref with
  | none => exact fail _ span hw
  | some k => exact of_stop rfl rfl (.unbound name frame frame' _ _) hw

theorem read (hw : WorldsMatch links w w') (henv : Aligned links h h' env env') (name : String)
    (ref : Option Nat) (span : Span) :
    Agree links w w' (Run.read env name (ref.map h) span) (Run.read env' name (ref.map h') span)
      ValueMatches := by
  rcases henv.target_cases ref with ⟨l, hmem, ha, ha'⟩ | ⟨k, rfl, ha, ha'⟩
  · rcases rel_cases (hw.slots l hmem name) with ⟨v, v', hv, hv', hvv⟩ | ⟨hv, hv'⟩
    · exact of_ok (Run.run_read_value ha hv) (Run.run_read_value ha' hv') hw hvv
    · exact of_run (Run.run_read_missing ha hv) (Run.run_read_missing ha' hv') (List.Subset.refl links)
        (refuse hw _ _ name span ref)
  · exact of_stop (Run.run_read_tooShort ha) (Run.run_read_tooShort ha') (.chainTooShort _ _ _ _) hw

theorem assign (hw : WorldsMatch links w w') (henv : Aligned links h h' env env') (name : String)
    (ref : Option Nat) (span : Span) {v v' : Value} (hv : ValueMatches links v v') :
    Agree links w w' (Run.assign env name (ref.map h) span v) (Run.assign env' name (ref.map h') span v')
      fun _ _ _ => True := by
  rcases henv.target_cases ref with ⟨l, hmem, ha, ha'⟩ | ⟨k, rfl, ha, ha'⟩
  · rcases rel_cases (hw.slots l hmem name) with ⟨u, u', hu, hu', -⟩ | ⟨hu, hu'⟩
    · exact of_ok (Run.run_assign_value ha (Option.isSome_of_eq_some hu))
        (Run.run_assign_value ha' (Option.isSome_of_eq_some hu')) (hw.define hmem name hv) trivial
    · exact of_run (Run.run_assign_missing ha hu) (Run.run_assign_missing ha' hu')
        (List.Subset.refl links) (refuse hw _ _ name span ref)
  · exact of_stop (Run.run_assign_tooShort ha) (Run.run_assign_tooShort ha') (.chainTooShort _ _ _ _) hw

theorem define (hw : WorldsMatch links w w') (hhead : (env.frame, env'.frame) ∈ links) (name : String)
    {v v' : Value} (hv : ValueMatches links v v') :
    Agree links w w' (Run.define env name v) (Run.define env' name v') fun _ _ _ => True :=
  of_ok rfl rfl (hw.define hhead name hv) trivial

end Names

/-! ### Effects -/

theorem print (hw : WorldsMatch links w w') (text : String) :
    Agree links w w' (Run.print text) (Run.print text) fun _ _ _ => True :=
  of_ok rfl rfl (hw.print text) trivial

theorem newFunction (hw : WorldsMatch links w w') {f f' : Callable} (hf : CallableMatches links f f') :
    Agree links w w' (Run.newFunction f) (Run.newFunction f') ValueMatches := by
  refine of_ok rfl rfl hw.countFunction ?_
  rw [← hw.functions]
  exact .function w.functions hf

theorem ofOperator (hw : WorldsMatch links w w') (span : Span) {r : Except RuntimeError Value}
    (hr : ∀ v, r = .ok v → v.IsConstant) :
    Agree links w w' (Run.ofOperator span r) (Run.ofOperator span r) ValueMatches := by
  cases r with
  | ok v => exact pure hw (.constant (hr v rfl))
  | error e => exact fail e span hw

end Agree

end Lox.Loops

import Lox.Proofs.Execution.Rooms
import Lox.Proofs.Matching.Worlds

/-!
# Runs that match

Two runs agree if from matching worlds, in rooms that hold the same, both give matching results, or both
stop for the same reason, in worlds that match again; links are only added. Agreement follows the sequence
of evaluations, with one rule for each way to use a name.
-/

namespace Lox.Matching

variable {α β γ δ : Type}

/-- The same reason to stop, whatever the place. -/
inductive StopMatches : Stop → Stop → Prop where
  | error (e : RuntimeError) (span span' : Span) : StopMatches (.error e span) (.error e span')
  | defect (d d' : Defect) : StopMatches (.defect d) (.defect d')
  | passesUsedUp : StopMatches .passesUsedUp .passesUsedUp
  | refused : StopMatches .refused .refused

/-! ### Rooms -/

/-- Rooms with the same frames for the same activities. Where a statement may stand in a block of its own,
blocks take none. -/
structure RoomsMatch (wraps : Prop) (r r' : Room) : Prop where
  free : r.free = r'.free
  takes : r.takes = r'.takes
  block : wraps → r'.takes .block = 0

namespace RoomsMatch

variable {wraps : Prop} {r r' : Room}

theorem refl (r : Room) : RoomsMatch False r r := ⟨rfl, rfl, False.elim⟩

theorem ample (r : Room) : RoomsMatch wraps r.ample r.ample := ⟨rfl, rfl, fun _ => rfl⟩

theorem fits (h : RoomsMatch wraps r r') (a : Activity) : r.fits a = r'.fits a := by
  unfold Room.fits
  rw [h.free, h.takes]

theorem inside (h : RoomsMatch wraps r r') (a : Activity) : RoomsMatch wraps (r.inside a) (r'.inside a) := by
  refine ⟨?_, h.takes, h.block⟩
  show r.free - r.takes a = r'.free - r'.takes a
  rw [h.free, h.takes]

theorem fits_block (h : RoomsMatch wraps r r') (hwraps : wraps) : r'.fits .block = true :=
  decide_eq_true ((h.block hwraps).symm ▸ Nat.zero_le _)

theorem insideBlock (h : RoomsMatch wraps r r') (hwraps : wraps) : RoomsMatch wraps r (r'.inside .block) := by
  refine ⟨?_, h.takes, h.block⟩
  show r.free = r'.free - r'.takes .block
  rw [h.block hwraps, Nat.sub_zero, h.free]

theorem blaming (h : RoomsMatch wraps r r') (span span' : Span) :
    RoomsMatch wraps (r.blaming span) (r'.blaming span') := ⟨h.free, h.takes, h.block⟩

theorem calling (h : RoomsMatch wraps r r') (span span' : Span) :
    RoomsMatch wraps (r.calling span) (r'.calling span') := by
  unfold Room.calling
  rw [h.fits]
  split
  · exact h.blaming span span'
  · exact h

end RoomsMatch

/-! ### Agreement -/

inductive AgreeIn (wraps : Prop) (before : List String) (links : List Link) (r r' : Room) (w w' : World)
    (m : Run α) (n : Run β) (Q : List Link → α → β → Prop) : Prop where
  | ok {a : α} {b : β} {later : List Link} {v v' : World} (hm : m.run r w = .ok a v)
    (hn : n.run r' w' = .ok b v') (hl : links ⊆ later) (hw : WorldsMatch wraps before later v v')
    (hq : Q later a b) : AgreeIn wraps before links r r' w w' m n Q
  | stop {s s' : Stop} {later : List Link} {v v' : World} (hm : m.run r w = .error s v)
    (hn : n.run r' w' = .error s' v') (hs : StopMatches s s')
    (hw : WorldsMatch wraps before later v v') : AgreeIn wraps before links r r' w w' m n Q

/-- In all rooms that match, the runs do the same. -/
def Agree (wraps : Prop) (before : List String) (links : List Link) (w w' : World) (m : Run α) (n : Run β)
    (Q : List Link → α → β → Prop) : Prop :=
  ∀ r r', RoomsMatch wraps r r' → AgreeIn wraps before links r r' w w' m n Q

/-- What the same steps lead to from the same worlds agrees if it does from there. -/
theorem AgreeIn.congr {wraps : Prop} {before : List String} {links links' : List Link} {r r' t t' : Room}
    {w w' v v' : World} {m : Run α} {n : Run β} {m' : Run α} {n' : Run β} {Q : List Link → α → β → Prop}
    (hm : m.run r w = m'.run t v) (hn : n.run r' w' = n'.run t' v') (hl : links ⊆ links')
    (h : AgreeIn wraps before links' t t' v v' m' n' Q) : AgreeIn wraps before links r r' w w' m n Q := by
  cases h with
  | ok hm' hn' hl' hw hq => exact .ok (hm.trans hm') (hn.trans hn') (List.Subset.trans hl hl') hw hq
  | stop hm' hn' hs hw => exact .stop (hm.trans hm') (hn.trans hn') hs hw

namespace Agree

variable {wraps : Prop} {before : List String} {links : List Link} {w w' : World}

theorem of_ok {m : Run α} {n : Run β} {Q : List Link → α → β → Prop} {a : α} {b : β} {v v' : World}
    (hm : ∀ {r}, m.run r w = .ok a v) (hn : ∀ {r}, n.run r w' = .ok b v')
    (hw : WorldsMatch wraps before links v v') (hq : Q links a b) :
    Agree wraps before links w w' m n Q :=
  fun _ _ _ => .ok hm hn (List.Subset.refl links) hw hq

theorem of_stop {m : Run α} {n : Run β} {Q : List Link → α → β → Prop} {s s' : Stop} {v v' : World}
    (hm : ∀ {r}, m.run r w = .error s v) (hn : ∀ {r}, n.run r w' = .error s' v') (hs : StopMatches s s')
    (hw : WorldsMatch wraps before links v v') : Agree wraps before links w w' m n Q :=
  fun _ _ _ => .stop hm hn hs hw

theorem congr {m m' : Run α} {n n' : Run β} {Q : List Link → α → β → Prop} {v v' : World}
    (hm : ∀ {r}, m.run r w = m'.run r v) (hn : ∀ {r}, n.run r w' = n'.run r v')
    (h : Agree wraps before links v v' m' n' Q) : Agree wraps before links w w' m n Q :=
  fun r r' hr => .congr hm hn (List.Subset.refl links) (h r r' hr)

theorem pure {Q : List Link → α → β → Prop} {a : α} {b : β} (hw : WorldsMatch wraps before links w w')
    (hq : Q links a b) : Agree wraps before links w w' (pure a) (pure b) Q :=
  of_ok rfl rfl hw hq

theorem bind {m : Run α} {n : Run β} {f : α → Run γ} {g : β → Run δ} {Q : List Link → α → β → Prop}
    {R : List Link → γ → δ → Prop} (h : Agree wraps before links w w' m n Q)
    (hf : ∀ later v v' a b, links ⊆ later → WorldsMatch wraps before later v v' → Q later a b →
      Agree wraps before later v v' (f a) (g b) R) :
    Agree wraps before links w w' (m >>= f) (n >>= g) R := by
  intro r r' hr
  cases h r r' hr with
  | ok hm hn hl hw hq =>
    exact .congr (run_bind_ok f hm) (run_bind_ok g hn) hl (hf _ _ _ _ _ hl hw hq r r' hr)
  | stop hm hn hs hw => exact .stop (run_bind_error f hm) (run_bind_error g hn) hs hw

/-! ### Room -/

theorem inside {m : Run α} {n : Run β} {Q : List Link → α → β → Prop} (a : Activity)
    (hw : WorldsMatch wraps before links w w') (h : Agree wraps before links w w' m n Q) :
    Agree wraps before links w w' (Run.inside a m) (Run.inside a n) Q := by
  intro r r' hr
  cases hfits : r.fits a with
  | true =>
    have hfits' := (hr.fits a).symm.trans hfits
    exact .congr (Run.run_inside_fits hfits) (Run.run_inside_fits hfits') (List.Subset.refl links)
      (h _ _ (hr.inside a))
  | false =>
    have hfits' := (hr.fits a).symm.trans hfits
    exact .stop (Run.run_inside_exhausted hfits) (Run.run_inside_exhausted hfits') (.error _ _ _) hw

theorem insideBlock {m : Run α} {n : Run β} {Q : List Link → α → β → Prop} (hwraps : wraps)
    (h : Agree wraps before links w w' m n Q) :
    Agree wraps before links w w' m (Run.inside .block n) Q := fun r _ hr =>
  .congr rfl (Run.run_inside_fits (hr.fits_block hwraps)) (List.Subset.refl links)
    (h r _ (hr.insideBlock hwraps))

theorem calling {m : Run α} {n : Run β} {Q : List Link → α → β → Prop} (span span' : Span)
    (h : Agree wraps before links w w' m n Q) :
    Agree wraps before links w w' (Run.calling span m) (Run.calling span' n) Q := by
  intro r r' hr
  have hm : (Run.calling span m).run r w = m.run (r.calling span) w := rfl
  have hn : (Run.calling span' n).run r' w' = n.run (r'.calling span') w' := rfl
  exact .congr hm hn (List.Subset.refl links) (h _ _ (hr.calling span span'))

theorem blaming {m : Run α} {n : Run β} {Q : List Link → α → β → Prop} (span span' : Span)
    (h : Agree wraps before links w w' m n Q) :
    Agree wraps before links w w' (Run.blaming span m) (Run.blaming span' n) Q := by
  intro r r' hr
  have hm : (Run.blaming span m).run r w = m.run (r.blaming span) w := rfl
  have hn : (Run.blaming span' n).run r' w' = n.run (r'.blaming span') w' := rfl
  exact .congr hm hn (List.Subset.refl links) (h _ _ (hr.blaming span span'))

theorem fail {Q : List Link → α → β → Prop} (e : RuntimeError) (span span' : Span)
    (hw : WorldsMatch wraps before links w w') :
    Agree wraps before links w w' (Run.fail e span) (Run.fail e span') Q :=
  inside .report hw (of_stop rfl rfl (.error e span span') hw)

/-! ### Frames -/

theorem enter {env env' : Environment} {name name' : String} {f : Environment → Run α}
    {g : Environment → Run β} {Q : List Link → α → β → Prop} (π : Equiv.Perm String)
    (h : Agree wraps before (⟨w.store.size, w'.store.size, π⟩ :: links)
      { w with store := (w.store.alloc name).2 } { w' with store := (w'.store.alloc name').2 }
      (f (env.child w.store.size)) (g (env'.child w'.store.size)) Q) :
    Agree wraps before links w w' (Run.enter env name >>= f) (Run.enter env' name' >>= g) Q :=
  fun r r' hr => .congr (run_bind_ok f rfl) (run_bind_ok g rfl) (List.subset_cons_self _ links) (h r r' hr)

theorem enterRight {env' : Environment} {name : String} {m : Run α} {g : Environment → Run β}
    {Q : List Link → α → β → Prop}
    (h : Agree wraps before links w { w' with store := (w'.store.alloc name).2 } m
      (g (env'.child w'.store.size)) Q) :
    Agree wraps before links w w' m (Run.enter env' name >>= g) Q :=
  fun r r' hr => .congr rfl (run_bind_ok g rfl) (List.Subset.refl links) (h r r' hr)

/-! ### Names -/

section Reference

variable {σ : List Step} {env env' : Environment} {name name' : String} {ref ref' : Option Nat}

theorem read (hw : WorldsMatch wraps before links w w')
    (henv : Aligned links σ env.frames env'.frames) (hr : RefMatches σ name ref name' ref')
    (span span' : Span) :
    Agree wraps before links w w' (Run.read env name ref span) (Run.read env' name' ref' span')
      (ValueMatches wraps) := by
  cases hr with
  | global =>
    rcases rel_cases (hw.slot?_outermost henv name) with ⟨v, v', hv, hv', hvv⟩ | ⟨hv, hv'⟩
    · exact of_ok (Run.run_read_global hv) (Run.run_read_global hv') hw hvv
    · exact congr (Run.run_read_undefined hv) (Run.run_read_undefined hv') (fail _ span span' hw)
  | inScope hfind =>
    obtain ⟨l, hl, rfl, hleft, hright⟩ := henv.find? hfind
    rcases rel_cases (hw.slot? hl name) with ⟨v, v', hv, hv', hvv⟩ | ⟨hv, hv'⟩
    · exact of_ok (Run.run_read_local hleft hv) (Run.run_read_local hright hv') hw hvv
    · exact of_stop (Run.run_read_unbound hleft hv) (Run.run_read_unbound hright hv') (.defect _ _) hw

theorem assign (hw : WorldsMatch wraps before links w w')
    (henv : Aligned links σ env.frames env'.frames) (hr : RefMatches σ name ref name' ref')
    (span span' : Span) {v v' : Value} (hv : ValueMatches wraps links v v') :
    Agree wraps before links w w' (Run.assign env name ref span v) (Run.assign env' name' ref' span' v')
      fun _ _ _ => True := by
  cases hr with
  | global =>
    rcases rel_cases (hw.slot?_outermost henv name) with ⟨u, u', hu, hu', -⟩ | ⟨hu, hu'⟩
    · exact of_ok (Run.run_assign_global (by rw [hu]; rfl)) (Run.run_assign_global (by rw [hu']; rfl))
        (hw.defineOutermost henv name hv) trivial
    · exact congr (Run.run_assign_undefined (by rw [hu]; rfl))
        (Run.run_assign_undefined (by rw [hu']; rfl)) (fail _ span span' hw)
  | inScope hfind =>
    obtain ⟨l, hl, rfl, hleft, hright⟩ := henv.find? hfind
    rcases rel_cases (hw.slot? hl name) with ⟨u, u', hu, hu', -⟩ | ⟨hu, hu'⟩
    · exact of_ok (Run.run_assign_local hleft (by rw [hu]; rfl))
        (Run.run_assign_local hright (by rw [hu']; rfl)) (hw.define hl name hv) trivial
    · exact of_stop (Run.run_assign_unbound hleft (by rw [hu]; rfl))
        (Run.run_assign_unbound hright (by rw [hu']; rfl)) (.defect _ _) hw

theorem define (hw : WorldsMatch wraps before links w w')
    (henv : Aligned links σ env.frames env'.frames) {π : Equiv.Perm String} (hπ : here? σ = some π)
    (name : String) {v v' : Value} (hv : ValueMatches wraps links v v') :
    Agree wraps before links w w' (Run.define env name v) (Run.define env' (π name) v')
      fun _ _ _ => True := by
  obtain ⟨l, hl, rfl, hleft, hright⟩ := henv.here? hπ hw.globals
  have hdefine := hw.define hl name hv
  rw [hleft, hright] at hdefine
  exact of_ok rfl rfl hdefine trivial

end Reference

/-! ### Effects -/

theorem print (hw : WorldsMatch wraps before links w w') (text : String) :
    Agree wraps before links w w' (Run.print text) (Run.print text) fun _ _ _ => True :=
  of_ok rfl rfl (hw.print text) trivial

theorem newFunction (hw : WorldsMatch wraps before links w w') {f f' : Callable}
    (hf : CallableMatches wraps links f f') :
    Agree wraps before links w w' (Run.newFunction f) (Run.newFunction f') (ValueMatches wraps) := by
  refine of_ok rfl rfl hw.countFunction ?_
  rw [← hw.functions]
  exact .function w.functions hf

theorem ofOperator (hw : WorldsMatch wraps before links w w') (span span' : Span)
    {r : Except RuntimeError Value} (hr : ∀ v, r = .ok v → v.IsConstant) :
    Agree wraps before links w w' (Run.ofOperator span r) (Run.ofOperator span' r)
      (ValueMatches wraps) := by
  cases r with
  | ok v => exact pure hw (.constant (hr v rfl))
  | error e => exact fail e span span' hw

end Agree

end Lox.Matching

import Lox.Proofs.Execution.Preservation

/-!
# Calls and programs are safe

A call fills the frame of the function with its parameters and runs a body that was resolved for just
those scopes. Built-in functions make no functions of their own. At top level no function is around, so
nothing is returned there.
-/

namespace Lox

variable {redeclare : Bool} {own : String → Prop}

/-- A built-in function makes no functions: each one that it returns is one of its arguments. -/
def Native.ReturnsGiven (n : Native) : Prop :=
  ∀ now args id f, n.run now args = .ok (.function id f) → .function id f ∈ args

def Registry.ReturnsGiven (r : Registry) : Prop := ∀ n ∈ r.natives, n.ReturnsGiven

theorem Registry.returnsGiven_standard : Registry.standard.ReturnsGiven := by
  intro n hn now args id f h
  obtain ⟨l, hl⟩ := Registry.isConstant_of_standard hn h
  cases l <;> cases hl

theorem Registry.ReturnsGiven.mem_of_answer {r : Registry} (hn : r.ReturnsGiven) {name : String}
    {now : Float} {args : List Value} {id : Nat} {f : Callable}
    (h : r.answer name now args = .ok (.function id f)) : .function id f ∈ args := by
  rcases r.answer_cases name with hnil | ⟨native, hmem, hrun⟩
  · rw [hnil] at h
    cases h
  · rw [hrun] at h
    exact hn native hmem now args id f h

namespace Safe

theorem callNative {host : Host} (hn : host.natives.ReturnsGiven) {name : String} {args : List Value}
    {span : Span} {w : World} (hw : w.store.Sound redeclare own)
    (hargs : ∀ v ∈ args, v.Sound redeclare own w.store) :
    Safe redeclare own w (callNative host name args span) (Value.SoundIn redeclare own) := by
  have hcounted : w.Follows redeclare own { w with nativeCalls := w.nativeCalls + 1 } :=
    ⟨Store.Grows.refl w.store, hw⟩
  cases hanswer : host.natives.answer name (host.clock w.nativeCalls) args with
  | ok v =>
    refine of_ok (run_callNative_ok hanswer) hcounted ?_
    cases v with
    | function id f => exact hargs _ (hn.mem_of_answer hanswer)
    | _ => trivial
  | error message =>
    intro room
    rw [run_callNative_error hanswer]
    rcases Run.fail_cases (α := Value) (.nativeFailure name message) span room
      { w with nativeCalls := w.nativeCalls + 1 } with h | h <;> rw [h] <;> exact ⟨hcounted, trivial⟩

theorem bindParams {env : Environment} (params : List Parameter) {args : List Value}
    {held : List String} {scopes : List (List String)} {w : World}
    (hlen : args.length = params.length) (hw : w.store.Sound redeclare own)
    (hargs : ∀ v ∈ args, v.Sound redeclare own w.store) (hc : w.store.Covers (held :: scopes) env) :
    Safe redeclare own w (bindParams env params args)
      fun _ w' => w'.store.Covers ((paramNames params ++ held) :: scopes) env := by
  induction params generalizing args held w with
  | nil => exact pure hw hc
  | cons p ps ih =>
    cases args with
    | nil => cases hlen
    | cons v vs =>
      have hv := hargs v List.mem_cons_self
      have hdefine := define hw hc (hv.mono (Store.grows_define hc.1 p.name v))
      refine bind hdefine fun _ w' hw' hc' => ?_
      have hvs : ∀ u ∈ vs, u.Sound redeclare own w'.store := fun u hu =>
        (hargs u (List.mem_cons_of_mem v hu)).mono hw'.grows
      have hps := ih (Nat.succ.inj hlen) hw'.sound hvs hc'
      rwa [← List.append_assoc, ← paramNames_cons] at hps

theorem callClosure {host : Host} {call : CallRule} (hcall : call.Safe redeclare own) {c : Closure}
    {args : List Value} {w : World} (hw : w.store.Sound redeclare own) (hf : c.Sound redeclare own w.store)
    (hargs : ∀ v ∈ args, v.Sound redeclare own w.store) (hlen : args.length = c.params.length) :
    Safe redeclare own w (callClosure host call c args) (Value.SoundIn redeclare own) := by
  obtain ⟨scopes, body, hbody, hp, ha, hs, hc⟩ := hf
  unfold Lox.callClosure
  refine bind (enter c.name hw hc) fun env w' hw' hc' => ?_
  have hargs' : ∀ v ∈ args, v.Sound redeclare own w'.store := fun v hv => (hargs v hv).mono hw'.grows
  refine bind (bindParams c.params hlen hw'.sound hargs' hc') fun _ w'' hw'' hc'' => ?_
  rw [List.append_nil] at hc''
  rw [hbody]
  refine bind (execStmts hcall host.maxPasses body hp ha hs hw''.sound hc'') fun r w₃ hw₃ hr => ?_
  cases r with
  | normal => exact pure hw₃.sound trivial
  | returned v => exact pure hw₃.sound hr.2

theorem callWithin {host : Host} (hn : host.natives.ReturnsGiven) (calls : Nat) :
    (callWithin host calls).Safe redeclare own := by
  induction calls with
  | zero => exact fun span hw _ _ _ => fail .stackOverflow span hw
  | succ calls ih =>
    intro w f args span hw hf hargs hlen
    refine calling span ?_
    cases f with
    | native name arity => exact inside _ hw (callNative hn hw hargs)
    | closure c => exact inside _ hw (callClosure ih hw hf hargs hlen)

/-! ### Programs -/

theorem execTopLevel {host : Host} (hn : host.natives.ReturnsGiven) {globals : Environment}
    {s : Stmt Unit} {w : World} (hp : s.Placed) (ha : s.Accepted redeclare [] false)
    (hs : ∀ x, s.SelfAssigns x [] → own x) (hw : w.store.Sound redeclare own)
    (hc : w.store.Covers [] globals) :
    Safe redeclare own w (execTopLevel host globals (s.annotate hopsLabel [])) fun _ _ => True := by
  have hexec := execStmt (callWithin hn host.maxCallDepth) host.maxPasses s hp ha hs hw hc
  refine bind hexec fun c w' hw' hq => ?_
  cases c with
  | normal => exact pure hw'.sound trivial
  | returned v => cases hq.1

theorem execProgram {host : Host} (hn : host.natives.ReturnsGiven) {globals : Environment}
    (ss : List (Stmt Unit)) {w : World} (hp : Stmt.PlacedAll ss)
    (ha : Stmt.AcceptedAll redeclare [] false ss) (hs : ∀ x, Stmt.SelfAssignsAll x [] ss → own x)
    (hw : w.store.Sound redeclare own) (hc : w.store.Covers [] globals) :
    Safe redeclare own w (execProgram host globals (Stmt.annotateAll hopsLabel [] ss))
      fun _ _ => True := by
  induction ss generalizing w with
  | nil => exact pure hw trivial
  | cons s ss ih =>
    have hhead := execTopLevel hn hp.1 ha.1 (fun x hx => hs x (Or.inl hx)) hw hc
    refine bind (blaming _ hhead) fun _ w' hw' _ => ?_
    exact ih hp.2 ha.2 (fun x hx => hs x (Or.inr hx)) hw'.sound (hc.mono hw'.grows)

end Safe

end Lox

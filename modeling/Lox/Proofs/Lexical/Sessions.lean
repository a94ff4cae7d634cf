import Lox.Proofs.Execution.CallDepth
import Lox.Proofs.Lexical.Programs

/-!
# Sessions keep to lexical scoping

Seen from outside, a session that runs accepted programs cannot be told from lexical scoping: what every
program prints, how it ends and the globals behind it are the same, run after run. Local declarations of
one name in one scope are left out, and so is a run that meets a defect or that the host cuts off: lexical
scoping knows of no stack.
-/

namespace Lox

/-- What is seen of the run of a program: why it stopped early, if it did, the texts it printed, and
the globals behind it. -/
structure Observation where
  stop : Option Stop
  printed : List String
  globals : String → Option Value

namespace Observation

def isDefect (o : Observation) : Bool :=
  match o.stop with
  | some (.defect _) => true
  | _ => false

/-- The host has cut the run off. -/
def isOfHost (o : Observation) : Bool := o.stop.any Stop.isOfHost

end Observation

namespace Session

/-- What is seen of a program that a session runs, of functions all but their environments, and the
session behind it. -/
def observe (s : Session) (p : Program Unit) : Observation × Session :=
  let (stop, printed, s') := s.execute (s.resolve p)
  (⟨stop, printed, fun name => (s'.globalFrame.get? name).map Value.outline⟩, s')

def observeAll : Session → List (Program Unit) → List Observation
  | _, [] => []
  | s, p :: ps =>
    let (o, s') := s.observe p
    o :: s'.observeAll ps

end Session

namespace Lexical

def observe (host : Host) (v : World) (p : Program Unit) : Observation × World :=
  let (stop, v') :=
    match (execProgram host p.statements).run { v with printed := #[] } with
    | .ok () v' => (none, v')
    | .error stop v' => (some stop, v')
  (⟨stop, v'.printed.toList, fun name => (v'.globals name).map Value.outline⟩, v')

def observeAll (host : Host) : World → List (Program Unit) → List Observation
  | _, [] => []
  | v, p :: ps =>
    let (o, v') := observe host v p
    o :: observeAll host v' ps

/-! ### New sessions -/

theorem corresponds_new : Corresponds [] { store := (Store.alloc {} "globals").2 } {} where
  distinct := List.nodup_nil
  made := Nat.zero_lt_one
  length := rfl
  inner := nofun
  cells := nofun
  filled id name a _ ha := by
    rw [Session.slot?_new] at ha
    cases ha
  globals name := by
    rw [Session.slot?_new]
    exact .none
  printed := rfl
  functions := rfl
  nativeCalls := rfl

theorem corresponds_install {slots : List Slot} (natives : Registry) (names : List String)
    {w : Lox.World} {v : World} (hc : Corresponds slots w v) :
    Corresponds slots (Session.install natives Session.globals names w).2
      (install natives names v) := by
  induction names generalizing w v with
  | nil => exact hc
  | cons name names ih =>
    unfold Session.install install
    cases natives.find? name with
    | none => exact hc
    | some native =>
      have hlike : ValueLike slots (.function w.functions (.native name native.arity))
          (.function v.functions (.native name native.arity)) := by
        rw [hc.functions]
        exact .function (.native name native.arity)
      exact ih (hc.countFunction.defineGlobal name hlike)

theorem corresponds_create {config : Config} {natives : Registry} {clock : Nat → Float}
    {machine : Machine} {s : Session} (h : Session.create config natives clock machine = .ok s) :
    Corresponds [] s.world (installed config natives) := by
  have hinstall := corresponds_install natives (Session.nativeNames config natives) corresponds_new
  rw [Session.eq_of_create h]
  exact hinstall

/-! ### Programs -/

theorem Corresponds.globals_outline {slots : List Slot} {w : Lox.World} {v : World}
    (h : Corresponds slots w v) (name : String) :
    ((w.store.frame 0).get? name).map Lox.Value.outline = (v.globals name).map Value.outline := by
  change (w.store.slot? 0 name).map Lox.Value.outline = (v.globals name).map Value.outline
  rcases h.global_cases name with ⟨a, b, ha, hb, hab⟩ | ⟨ha, hb⟩
  · rw [ha, hb, Option.map_some, Option.map_some, hab.outline]
  · rw [ha, hb, Option.map_none, Option.map_none]

theorem Corresponds.observation {slots : List Slot} {w : Lox.World} {v : World}
    (h : Corresponds slots w v) (stop : Option Stop) :
    (⟨stop, w.printed.toList, fun name => ((w.store.frame 0).get? name).map Lox.Value.outline⟩ :
      Observation) =
      ⟨stop, v.printed.toList, fun name => (v.globals name).map Value.outline⟩ := by
  rw [h.printed, funext h.globals_outline]

theorem observe_of_ok {host : Host} {v v' : World} {p : Program Unit}
    (h : (execProgram host p.statements).run { v with printed := #[] } = .ok () v') :
    observe host v p =
      (⟨none, v'.printed.toList, fun name => (v'.globals name).map Value.outline⟩, v') := by
  unfold observe
  rw [h]

theorem observe_of_error {host : Host} {v v' : World} {p : Program Unit} {stop : Stop}
    (h : (execProgram host p.statements).run { v with printed := #[] } = .error stop v') :
    observe host v p =
      (⟨some stop, v'.printed.toList, fun name => (v'.globals name).map Value.outline⟩, v') := by
  unfold observe
  rw [h]

/-- A program that a session runs without a defect, and without being cut off by the host, is seen as under
lexical scoping, and leaves worlds that correspond again. -/
theorem observe_step {s : Session} {v : World} {slots : List Slot} {p : Program Unit}
    (hn : s.natives.Plain) (hp : p.Placed) (ha : p.Accepted false) (hc : Corresponds slots s.world v)
    (hd : (s.observe p).1.isDefect = false) (hh : (s.observe p).1.isOfHost = false) :
    (s.observe p).1 = (observe s.host v p).1 ∧
      ∃ table w slots', (s.observe p).2 = { s with table, world := w } ∧
        Corresponds slots' w (observe s.host v p).2 := by
  have hcleared : Corresponds slots s.cleared { v with printed := #[] } := { hc with printed := rfl }
  have hagree : Agree (some 0) slots s.cleared { v with printed := #[] }
      (Lox.execProgram s.host Session.globals p.annotate.statements) (execProgram s.host p.statements)
      fun _ _ _ _ => True := Agree.execProgram hn p.statements hp ha hcleared
  have hstop : (s.observe p).1.stop = Run.stop? (s.run p.annotate.statements) := by
    rw [Session.observe, Session.execute_eq, Session.program_resolve]
  rw [Observation.isOfHost, hstop] at hh
  obtain ⟨room, hroom, hrun⟩ := Session.exists_ample_run hh
  rw [← Session.program_resolve s p] at hrun
  cases hagree room hroom with
  | @ok _ _ slots' w' v' hm hn' _ hc' _ =>
    unfold Session.observe
    rw [Session.execute_of_ok (hrun.trans (Session.program_resolve s p ▸ hm)), observe_of_ok hn']
    exact ⟨hc'.observation none, _, w', slots', rfl, hc'⟩
  | @stop stop slots' w' v' hm hn' hc' =>
    unfold Session.observe
    rw [Session.execute_of_error (hrun.trans (Session.program_resolve s p ▸ hm)), observe_of_error hn']
    exact ⟨hc'.observation (some stop), _, w', slots', rfl, hc'⟩
  | defect hm =>
    unfold Session.observe at hd
    rw [Session.execute_of_error (hrun.trans (Session.program_resolve s p ▸ hm))] at hd
    cases hd

theorem observeAll_of_corresponds (programs : List (Program Unit)) {s : Session} {v : World}
    {slots : List Slot} (hn : s.natives.Plain) (hp : ∀ p ∈ programs, p.Placed ∧ p.Accepted false)
    (hc : Corresponds slots s.world v)
    (hd : ∀ o ∈ s.observeAll programs, o.isDefect = false ∧ o.isOfHost = false) :
    s.observeAll programs = observeAll s.host v programs := by
  induction programs generalizing s v slots with
  | nil => rfl
  | cons p ps ih =>
    obtain ⟨hplaced, haccepted⟩ := hp p List.mem_cons_self
    obtain ⟨hhead, hhost⟩ := hd (s.observe p).1 List.mem_cons_self
    obtain ⟨hsame, table, w, slots', hs', hc'⟩ := observe_step hn hplaced haccepted hc hhead hhost
    have hrest : ∀ o ∈ (s.observe p).2.observeAll ps, o.isDefect = false ∧ o.isOfHost = false :=
      fun o ho => hd o (List.mem_cons_of_mem _ ho)
    rw [hs'] at hrest
    have htail : ({ s with table, world := w } : Session).observeAll ps =
        observeAll s.host (observe s.host v p).2 ps :=
      ih hn (fun q hq => hp q (List.mem_cons_of_mem p hq)) hc' hrest
    calc s.observeAll (p :: ps)
        = (s.observe p).1 :: (s.observe p).2.observeAll ps := rfl
      _ = (observe s.host v p).1 :: observeAll s.host (observe s.host v p).2 ps := by
          rw [hsame, hs', htail]
      _ = observeAll s.host v (p :: ps) := rfl

end Lexical

namespace Session

/-- Programs that are accepted where no scope may declare a name twice, run one after the other in a new
session, are seen as under lexical scoping: every program prints the same texts, ends the same way, with the
same error at the same place if it ends with one, and leaves the same globals, as long as none of them meets
a defect or is cut off by the host. Built-in functions must not look into the environments of functions, as
the standard ones do not. -/
theorem observeAll_lexically {config : Config} {natives : Registry} {clock : Nat → Float}
    {machine : Machine} {s : Session} (hn : natives.Plain) (hr : config.allowLocalRedeclaration = false)
    (hs : create config natives clock machine = .ok s) (programs : List (Program Unit))
    (hp : ∀ p ∈ programs, ∃ limit file source, config.Accepts limit file source p)
    (hd : ∀ o ∈ s.observeAll programs, o.isDefect = false ∧ o.isOfHost = false) :
    s.observeAll programs =
      Lexical.observeAll s.host (Lexical.installed config natives) programs := by
  have hnatives : s.natives.Plain := (succeeds_create hs).natives ▸ hn
  refine Lexical.observeAll_of_corresponds programs hnatives (fun p hmem => ?_)
    (Lexical.corresponds_create hs) hd
  obtain ⟨limit, file, source, h⟩ := hp p hmem
  exact ⟨h.placed, hr ▸ h.accepted⟩

/-- A function does not see a variable that its block declares behind it. -/
theorem observeAll_lexically_shadowing :
    ∃ p, bare.config.Accepts bare.machine.nesting ""
        "var a = nil; { fun show() { print a; } show(); var a = true; show(); print a; }" p ∧
      (Lexical.observeAll bare.host (Lexical.installed bare.config .standard) [p]).map
        Observation.printed = [["nil", "nil", "true"]] := by
  let source := "var a = nil; { fun show() { print a; } show(); var a = true; show(); print a; }"
  have hrun : (bare.config.accepted? bare.machine.nesting "" source).any (fun p =>
      let os := bare.observeAll [p]
      os.all (fun o => !o.isDefect && !o.isOfHost) &&
        os.map Observation.printed == [["nil", "nil", "true"]]) = true := by
    decide +kernel
  obtain ⟨p, hp, hseen⟩ := (Option.any_eq_true _ _).mp hrun
  rw [Bool.and_eq_true, beq_iff_eq, List.all_eq_true] at hseen
  have hcreate : create bare.config .standard bare.clock .standard = .ok bare := rfl
  have hsame := observeAll_lexically Registry.plain_standard rfl hcreate [p]
    (fun q hq => ⟨_, "", source, List.mem_singleton.mp hq ▸ hp⟩)
    (fun o ho => by simpa using hseen.1 o ho)
  exact ⟨p, hp, hsame ▸ hseen.2⟩

/-- `print nil == nil == … == nil;` with so many comparisons. -/
def comparing (n : Nat) : Program Unit :=
  let nils : Expr Unit := .literal default .nil
  ⟨default, [.print default (Nat.repeat (fun e => .binary default .equal e nils) n nils)]⟩

/-- Where the stack is exhausted a session stops with an error, while lexical scoping goes on: it gives this
program a text to print. -/
theorem observeAll_lexically_exhausted :
    create shallow.config .standard bare.clock .standard = .ok shallow ∧
      (shallow.resolve (comparing 500)).hasErrors = false ∧
      (shallow.observeAll [comparing 500]).map (fun o => (o.printed, Verdict.ofStop o.stop)) =
        [([], .reported .runtime (some "E407"))] ∧
      (Lexical.observeAll shallow.host (Lexical.installed shallow.config .standard) [comparing 500]).map
          (fun o => (o.printed, Verdict.ofStop o.stop)) =
        [(["false"], .reported .done none)] := by
  refine ⟨rfl, ?_⟩
  decide +kernel

end Session

end Lox

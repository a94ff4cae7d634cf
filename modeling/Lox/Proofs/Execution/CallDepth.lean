import Lox.Proofs.Execution.Outcomes

/-!
# A higher limit on calls

A session with a higher limit on calls shows what the session with the lower one shows, source by source,
up to the first source that fails for want of calls. Of that one it shows at least the texts that were
printed before the failure. This takes a host that gives a stack for so many calls: one that does not
refuses every program.
-/

namespace Lox

/-- The program has run out of calls, or of room. -/
def RuntimeError.IsOverflow (e : RuntimeError) : Prop := e.code = "E407"

namespace Session

/-- The same session with another limit on calls. -/
def allowing (s : Session) (calls : Limit) : Session :=
  { s with config := { s.config with maxCallDepth := calls } }

def Outcome.allowing (o : Outcome) (calls : Limit) : Outcome :=
  { o with session := o.session.allowing calls }

/-- The program failed for want of calls. -/
def Outcome.Overflows (o : Outcome) : Prop := o.verdict = .reported .runtime (some "E407")

instance (o : Outcome) : Decidable o.Overflows := inferInstanceAs (Decidable (_ = _))

theorem create_allowing {config : Config} {natives : Registry} {clock : Nat → Float} {machine : Machine}
    {s : Session} (h : create config natives clock machine = .ok s) (calls : Limit) :
    create { config with maxCallDepth := calls } natives clock machine = .ok (s.allowing calls) := by
  unfold create at h ⊢
  dsimp only at h ⊢
  have hnames : nativeNames { config with maxCallDepth := calls } natives = nativeNames config natives :=
    rfl
  rw [hnames]
  split at h
  · cases h
  · cases h
    rfl

variable {s : Session} {calls : Limit}

theorem world_eq_final (m : Run Unit) (room : Room) (w : World) :
    Run.world (m.run room w) = m.final room w := by
  unfold Run.final
  cases m.run room w <;> rfl

/-- A program does the same with a higher limit, or it fails for want of calls and may get further. -/
theorem execute_allowing (hle : s.config.maxCallDepth.val ≤ calls.val)
    (hgrants : s.machine.Grants calls.val) (r : Resolution) :
    (s.allowing calls).execute r =
        ((s.execute r).1, (s.execute r).2.1, (s.execute r).2.2.allowing calls) ∨
      ∃ e span, e.IsOverflow ∧ (s.execute r).1 = some (.error e span) ∧
        (s.execute r).2.1 <+: ((s.allowing calls).execute r).2.1 := by
  obtain ⟨room, hroom⟩ := (hgrants.of_le hle).exists_room
  obtain ⟨room', hroom'⟩ := hgrants.exists_room
  have hrun := run_of_room (s := s) hroom r.program.statements
  have hrun' := run_of_room (s := s.allowing calls) hroom' r.program.statements
  have hoverflow : RuntimeError.IsOverflow .stackOverflow := rfl
  have hexhausted : RuntimeError.IsOverflow .stackExhausted := rfl
  have hextends : Run.Extends RuntimeError.IsOverflow
      (execProgram s.host globals r.program.statements)
      (execProgram (s.host.allowing calls.val) globals r.program.statements) :=
    Run.Extends.execProgram hexhausted hle (fun _ => hoverflow) globals r.program.statements
  have hwithin := Machine.within_of_room? hle hroom hroom'
  rw [execute_eq, execute_eq, hrun, hrun']
  rcases hextends.run room room' s.cleared hwithin with heq | ⟨e, span, v, hover, hstop, hprinted⟩
  · rw [show (execProgram (s.allowing calls).host globals r.program.statements).run room'
      (s.allowing calls).cleared = _ from heq]
    exact Or.inl rfl
  · rw [← world_eq_final] at hprinted
    rw [hstop]
    exact Or.inr ⟨e, span, hover, rfl, hprinted⟩

/-- Where the host refuses the stack, no program begins. -/
theorem execute_refused (h : ¬ s.machine.Grants s.config.maxCallDepth.val) (r : Resolution) :
    (s.execute r).1 = some .refused ∧ (s.execute r).2.1 = [] := by
  rw [execute_eq, run_of_refused (Machine.room?_of_not_grants h)]
  exact ⟨rfl, rfl⟩

theorem result_refused (h : ¬ s.machine.Grants s.config.maxCallDepth.val) (before : List (String × String))
    {file source : String} {p : Program Unit} (hp : s.config.Accepts s.machine.nesting file source p) :
    ((s.after before).runSource file source).result = .error .refused := by
  rw [← config_after s before, ← machine_after s before] at h hp
  rw [runSource_of_accepts hp, result_runProgram (hasErrors_of_accepts hp), (execute_refused h _).1]

theorem runProgram_allowing (hle : s.config.maxCallDepth.val ≤ calls.val)
    (hgrants : s.machine.Grants calls.val) (source : String) (p : Program Unit) :
    (s.allowing calls).runProgram source p = (s.runProgram source p).allowing calls ∨
      (s.runProgram source p).Overflows ∧
        (s.runProgram source p).printed <+: ((s.allowing calls).runProgram source p).printed := by
  have hresolve : (s.allowing calls).resolve p = s.resolve p := rfl
  cases herrors : (s.resolve p).hasErrors with
  | true =>
    left
    simp only [runProgram, hresolve, herrors, if_true]
    rfl
  | false =>
    rcases execute_allowing hle hgrants (s.resolve p) with heq | ⟨e, span, hover, hstop, hprinted⟩
    · left
      simp only [runProgram, hresolve, herrors, Bool.false_eq_true, if_false, heq]
      obtain ⟨stop, printed, s'⟩ := s.execute (s.resolve p)
      cases stop with
      | none => rfl
      | some stop => cases stop <;> rfl
    · right
      have hdeep : ((s.allowing calls).resolve p).hasErrors = false := herrors
      constructor
      · rw [Outcome.Overflows, verdict_runProgram herrors, hstop]
        exact congrArg (fun code => Verdict.reported .runtime (some code)) hover
      · rw [printed_runProgram herrors, printed_runProgram hdeep]
        exact hprinted

theorem runSource_allowing (hle : s.config.maxCallDepth.val ≤ calls.val)
    (hgrants : s.machine.Grants calls.val) (file source : String) :
    (s.allowing calls).runSource file source = (s.runSource file source).allowing calls ∨
      (s.runSource file source).Overflows ∧
        (s.runSource file source).printed <+: ((s.allowing calls).runSource file source).printed := by
  have hnesting : (s.allowing calls).machine.nesting = s.machine.nesting := rfl
  unfold runSource
  rw [hnesting]
  split
  · exact Or.inl rfl
  · split
    · exact Or.inl rfl
    · exact runProgram_allowing hle hgrants source _

theorem outcomes_allowing (hle : s.config.maxCallDepth.val ≤ calls.val)
    (hgrants : s.machine.Grants calls.val) {runs : List (String × String)}
    (h : ∀ o ∈ s.outcomes runs, ¬ o.Overflows) :
    (s.allowing calls).outcomes runs = (s.outcomes runs).map (·.allowing calls) ∧
      (s.allowing calls).after runs = (s.after runs).allowing calls := by
  induction runs generalizing s with
  | nil => exact ⟨rfl, rfl⟩
  | cons run runs ih =>
    obtain ⟨hrun, hruns⟩ := List.forall_mem_cons.mp h
    have hsame := (runSource_allowing hle hgrants run.1 run.2).resolve_right fun hover => hrun hover.1
    have hsession : ((s.allowing calls).runSource run.1 run.2).session =
        (s.runSource run.1 run.2).session.allowing calls := congrArg Outcome.session hsame
    have hle' : (s.runSource run.1 run.2).session.config.maxCallDepth.val ≤ calls.val := by
      rwa [(s.succeeds_runSource run.1 run.2).config]
    have hgrants' : (s.runSource run.1 run.2).session.machine.Grants calls.val := by
      rwa [(s.succeeds_runSource run.1 run.2).machine]
    obtain ⟨houtcomes, hafter⟩ := ih hle' hgrants' hruns
    constructor
    · show (s.allowing calls).runSource run.1 run.2 ::
          ((s.allowing calls).runSource run.1 run.2).session.outcomes runs = _
      rw [hsession, houtcomes, hsame]
      rfl
    · show ((s.allowing calls).runSource run.1 run.2).session.after runs = _
      rw [hsession, hafter]
      rfl

/-- Two new sessions that differ in their limit on calls run the same sources, on a host that gives a stack
for the higher limit. If none of them fails for want of calls in the session with the lower limit, the
outcomes are the same, and so is the world behind them; otherwise this is so of the sources in front of the
first that does, and what that one prints with the lower limit it prints first with the higher one. On any
other host every program that is accepted is refused. -/
theorem outcomes_higher_limit {config : Config} {natives : Registry} {clock : Nat → Float}
    {machine : Machine} (hs : create config natives clock machine = .ok s) (calls : Limit)
    (hle : config.maxCallDepth.val ≤ calls.val) (runs : List (String × String)) :
    create { config with maxCallDepth := calls } natives clock machine = .ok (s.allowing calls) ∧
      (machine.Grants calls.val →
        ((∀ o ∈ s.outcomes runs, ¬ o.Overflows) →
          (s.allowing calls).outcomes runs = (s.outcomes runs).map (·.allowing calls) ∧
            ((s.allowing calls).after runs).world = (s.after runs).world) ∧
        ∀ before run later, runs = before ++ run :: later → (∀ o ∈ s.outcomes before, ¬ o.Overflows) →
          ((s.after before).runSource run.1 run.2).Overflows →
            (s.allowing calls).outcomes before = (s.outcomes before).map (·.allowing calls) ∧
              ((s.after before).runSource run.1 run.2).printed <+:
                (((s.allowing calls).after before).runSource run.1 run.2).printed) ∧
      (¬ machine.Grants calls.val → ∀ before run later, runs = before ++ run :: later →
        ∀ p, config.Accepts machine.nesting run.1 run.2 p →
          (((s.allowing calls).after before).runSource run.1 run.2).result = .error .refused) := by
  have hconfig : s.config = config ∧ s.machine = machine := by
    obtain ⟨table, w, rfl⟩ := succeeds_create hs
    exact ⟨rfl, rfl⟩
  obtain ⟨rfl, rfl⟩ := hconfig
  refine ⟨create_allowing hs calls, fun hgrants => ⟨?_, ?_⟩, ?_⟩
  · intro hnone
    obtain ⟨houtcomes, hafter⟩ := outcomes_allowing hle hgrants hnone
    rw [hafter]
    exact ⟨houtcomes, rfl⟩
  · intro before run later _ hbefore _
    obtain ⟨houtcomes, hafter⟩ := outcomes_allowing hle hgrants hbefore
    refine ⟨houtcomes, ?_⟩
    rw [← config_after s before] at hle
    rw [← machine_after s before] at hgrants
    rw [hafter]
    rcases runSource_allowing hle hgrants run.1 run.2 with hsame | ⟨-, hprefix⟩
    · exact congrArg Outcome.printed hsame ▸ List.prefix_rfl
    · exact hprefix
  · exact fun hrefuses before run _ _ p hp => result_refused hrefuses before hp

/-- Sessions in which one call, and two, may be in progress at the same time. -/
def shallow : Session := bare.allowing ⟨1, Nat.zero_lt_one⟩

def deeper : Session := shallow.allowing ⟨2, Nat.zero_lt_two⟩

theorem outcomes_higher_limit_endless :
    ["nil"] <+:
      ((deeper.after [("", "fun f(x) { print x; f(true); }")]).runSource "" "f(nil);").printed := by
  let before : List (String × String) := [("", "fun f(x) { print x; f(true); }")]
  have hcreate : create shallow.config .standard bare.clock .standard = .ok shallow := rfl
  have hle : shallow.config.maxCallDepth.val ≤ 2 := Nat.le_succ 1
  have hbefore : ∀ o ∈ shallow.outcomes before, ¬ o.Overflows := by decide +kernel
  have hover : ((shallow.after before).runSource "" "f(nil);").Overflows := by decide +kernel
  have hprinted : ((shallow.after before).runSource "" "f(nil);").printed = ["nil"] := by decide +kernel
  have hgrants : Machine.standard.Grants 2 := by decide
  obtain ⟨-, hgranted, -⟩ :=
    outcomes_higher_limit hcreate ⟨2, Nat.zero_lt_two⟩ hle (before ++ [("", "f(nil);")])
  rw [← hprinted]
  exact ((hgranted hgrants).2 before ("", "f(nil);") [] rfl hbefore hover).2

end Session

end Lox

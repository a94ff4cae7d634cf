import Lox.Proofs.Execution.Outcomes
import Lox.Proofs.Matching.Places
import Lox.Proofs.Matching.Simulation

/-!
# Sessions that match

A session that has run sources matches itself: all that its functions have captured are frames that were
made. So two programs that match, run from the same session, print the same texts, end with the same
verdict, and leave globals of the same names, kinds and texts.
-/

namespace Lox

namespace Session

/-- The globals as they are seen from outside. -/
def shownGlobals (s : Session) : List (String × Kind × String) :=
  s.globalValues.map fun e => (e.1, e.2.kind, e.2.text)

/-- What is seen of a run: the texts that it printed, how it ended, and the globals that it left. -/
def Outcome.shown (o : Outcome) : List String × Verdict × List (String × Kind × String) :=
  (o.printed, o.verdict, o.session.shownGlobals)

theorem shown_runProgram {s : Session} {p : Program Unit} (h : (s.resolve p).hasErrors = false)
    (source : String) :
    (s.runProgram source p).shown =
      ((Run.world (s.run p.annotate.statements)).printed.toList,
        Verdict.ofStop (Run.stop? (s.run p.annotate.statements)),
        ({ s with world := Run.world (s.run p.annotate.statements) } : Session).shownGlobals) := by
  rw [Outcome.shown, printed_runProgram h, verdict_runProgram h, session_runProgram h, execute_eq,
    program_resolve]
  rfl

end Session

namespace Matching

variable {wraps : Prop} {before : List String} {links : List Link} {w w' : World}

theorem StopMatches.verdict {s s' : Stop} (h : StopMatches s s') :
    Verdict.ofStop (some s) = Verdict.ofStop (some s') := by
  cases h <;> rfl

theorem StopMatches.isExhausted {s s' : Stop} (h : StopMatches s s') : s.isExhausted = s'.isExhausted := by
  cases h with
  | error e => cases e <;> rfl
  | _ => rfl

/-! ### Ends of runs -/

/-- Two runs come to the same end, or stop for the same reason. -/
structure ResultsMatch (wraps : Prop) (before : List String) (x y : EStateM.Result Stop World Unit) :
    Prop where
  stops : Option.Rel StopMatches (Run.stop? x) (Run.stop? y)
  worlds : ∃ later, WorldsMatch wraps before later (Run.world x) (Run.world y)

theorem AgreeIn.results {r r' : Room} {m n : Run Unit} {Q : List Link → Unit → Unit → Prop}
    (h : AgreeIn wraps before links r r' w w' m n Q) :
    ResultsMatch wraps before (m.run r w) (n.run r' w') := by
  cases h with
  | ok hm hn hl hw hq =>
    rw [hm, hn]
    exact ⟨.none, _, hw⟩
  | stop hm hn hs hw =>
    rw [hm, hn]
    exact ⟨.some hs, _, hw⟩

namespace ResultsMatch

variable {x y : EStateM.Result Stop World Unit} (h : ResultsMatch wraps before x y)

include h

theorem verdict : Verdict.ofStop (Run.stop? x) = Verdict.ofStop (Run.stop? y) := by
  rcases rel_cases h.stops with ⟨s, s', hs, hs', hss⟩ | ⟨hs, hs'⟩
  · rw [hs, hs']
    exact hss.verdict
  · rw [hs, hs']

theorem exhausted : (Run.stop? x).any Stop.isExhausted = (Run.stop? y).any Stop.isExhausted := by
  rcases rel_cases h.stops with ⟨s, s', hs, hs', hss⟩ | ⟨hs, hs'⟩
  · rw [hs, hs']
    exact hss.isExhausted
  · rw [hs, hs']

end ResultsMatch

theorem WorldsMatch.shownGlobals {s s' : Session} (h : WorldsMatch wraps before links s.world s'.world) :
    s.shownGlobals = s'.shownGlobals := by
  have hentries := h.entries Link.globals h.globals
  have hnames : s.globalNames = s'.globalNames := by
    refine congrArg (fun names => List.mergeSort names fun a b => decide (a ≤ b)) ?_
    refine List.forall₂_eq_eq_eq ▸ ?_
    refine List.forall₂_map_left_iff.mpr (List.forall₂_map_right_iff.mpr (hentries.imp ?_))
    exact fun _ _ he => he.1.symm
  have hvalues (name : String) : (s.globalFrame.get? name).map (fun v => (name, v.kind, v.text)) =
      (s'.globalFrame.get? name).map fun v => (name, v.kind, v.text) := by
    rcases rel_cases (hentries.lookup name) with ⟨v, v', hv, hv', hvv⟩ | ⟨hv, hv'⟩
    · rw [show s.globalFrame.get? name = some v from hv, show s'.globalFrame.get? name = some v' from hv',
        Option.map_some, Option.map_some, hvv.alike.kind, hvv.alike.text]
    · rw [show s.globalFrame.get? name = none from hv, show s'.globalFrame.get? name = none from hv']
  unfold Session.shownGlobals Session.globalValues
  rw [List.map_filterMap, List.map_filterMap, hnames]
  refine List.filterMap_congr fun name _ => ?_
  rw [Option.map_map, Option.map_map]
  exact hvalues name

theorem ResultsMatch.shown {s : Session} {p q : Program Unit}
    (h : ResultsMatch wraps [] (s.run p.annotate.statements) (s.run q.annotate.statements))
    (hp : (s.resolve p).hasErrors = false) (hq : (s.resolve q).hasErrors = false)
    (source source' : String) : (s.runProgram source p).shown = (s.runProgram source' q).shown := by
  obtain ⟨later, hlater⟩ := h.worlds
  rw [Session.shown_runProgram hp, Session.shown_runProgram hq, Prod.mk.injEq, Prod.mk.injEq]
  exact ⟨hlater.printed.symm, h.verdict, hlater.shownGlobals⟩

/-! ### Sessions that match themselves -/

variable {s : Session}

def MatchesItself (s : Session) : Prop := ∃ links, WorldsMatch False [] links s.cleared s.cleared

theorem worldsMatch_new :
    WorldsMatch False [] [Link.globals] { store := (Store.alloc {} "globals").2 }
      { store := (Store.alloc {} "globals").2 } where
  globals := List.mem_singleton_self _
  distinct l hl m hm _ := (List.mem_singleton.mp hl).trans (List.mem_singleton.mp hm).symm
  made l hl := by
    rw [List.mem_singleton.mp hl]
    exact ⟨Nat.zero_lt_one, Nat.zero_lt_one⟩
  entries l hl := by
    rw [List.mem_singleton.mp hl]
    exact .nil
  printed := rfl
  functions := rfl
  nativeCalls := rfl

theorem matchesItself_create {config : Config} {natives : Registry} {clock : Nat → Float}
    {machine : Machine} (h : Session.create config natives clock machine = .ok s) : MatchesItself s := by
  have hworld : WorldsMatch False [] [Link.globals] s.world s.world := by
    refine Session.create_induction (P := fun w => WorldsMatch False [] [Link.globals] w w) h
      worldsMatch_new fun w hw native _ => ?_
    have hv : ValueMatches False [Link.globals]
        (.function w.functions (.native native.name native.arity))
        (.function w.functions (.native native.name native.arity)) := .function _ (.native _ _)
    exact (hw.define hw.globals native.name hv).countFunction
  exact ⟨_, { hworld with printed := rfl }⟩

/-- In the room that the host gives, or if it refuses, programs that match come to the same end. -/
theorem run_matches (hn : s.natives.Discreet) {ss ss' : List ResolvedStmt}
    (hs : ProgramsMatch False ss ss') (hw : WorldsMatch False [] links s.cleared s.cleared) :
    ResultsMatch False [] (s.run ss) (s.run ss') := by
  cases hroom : s.room? with
  | none =>
    rw [Session.run_of_refused hroom, Session.run_of_refused hroom]
    exact ⟨.some .refused, links, hw⟩
  | some room =>
    rw [Session.run_of_room hroom, Session.run_of_room hroom]
    exact (Agree.execProgram hn hs hw room room (.refl room)).results

theorem MatchesItself.runSource (hn : s.natives.Discreet) (h : MatchesItself s)
    (file source : String) : MatchesItself (s.runSource file source).session := by
  rcases s.runSource_cases file source with ⟨hsame, -⟩ | ⟨p, hp, hsession, -⟩
  · rwa [hsame]
  · obtain ⟨links, hw⟩ := h
    obtain ⟨later, hlater⟩ := (run_matches hn (programsMatch_self False p.statements) hw).worlds
    rw [hsession, Session.execute_eq, s.program_resolve]
    exact ⟨later, { hlater with printed := rfl }⟩

theorem MatchesItself.after (hn : s.natives.Discreet) (h : MatchesItself s)
    (runs : List (String × String)) : MatchesItself (s.after runs) := by
  have hboth : (s.after runs).natives.Discreet ∧ MatchesItself (s.after runs) := by
    refine Session.after_induction (P := fun s => s.natives.Discreet ∧ MatchesItself s) ⟨hn, h⟩ ?_
    rintro s ⟨hn, h⟩ run -
    exact ⟨(s.succeeds_runSource run.1 run.2).natives ▸ hn, h.runSource hn run.1 run.2⟩
  exact hboth.2

theorem MatchesItself.runProgram (hn : s.natives.Discreet) (h : MatchesItself s) {p q : Program Unit}
    (hp : (s.resolve p).hasErrors = false) (hq : (s.resolve q).hasErrors = false)
    (hpq : ProgramsMatch False p.annotate.statements q.annotate.statements) (source source' : String) :
    (s.runProgram source p).shown = (s.runProgram source' q).shown := by
  obtain ⟨links, hw⟩ := h
  exact (run_matches hn hpq hw).shown hp hq source source'

/-! ### Moved programs -/

theorem hasErrors_mapSpan (s : Session) (g : Span → Span) (p : Program Unit) :
    (s.resolve (p.mapSpan g)).hasErrors = false ↔ (s.resolve p).hasErrors = false := by
  unfold Session.resolve
  rw [Resolution.hasErrors_ofProgram, Resolution.hasErrors_ofProgram]
  exact p.accepted_mapSpan_iff g s.config.allowLocalRedeclaration

theorem hasErrors_of_unplaced {p q : Program Unit} (hpq : q.unplaced = p.unplaced)
    (hp : (s.resolve p).hasErrors = false) : (s.resolve q).hasErrors = false := by
  unfold Session.resolve at hp ⊢
  rw [Resolution.hasErrors_ofProgram] at hp ⊢
  exact Program.accepted_of_unplaced hpq hp

theorem MatchesItself.runProgram_mapSpan (hn : s.natives.Discreet) (h : MatchesItself s)
    (g : Span → Span) {p : Program Unit} (hp : (s.resolve p).hasErrors = false)
    (source source' : String) :
    (s.runProgram source p).shown = (s.runProgram source' (p.mapSpan g)).shown :=
  h.runProgram hn hp ((hasErrors_mapSpan s g p).mpr hp) (programsMatch_mapSpan False g p.statements)
    source source'

theorem MatchesItself.runProgram_unplaced (hn : s.natives.Discreet) (h : MatchesItself s)
    {p q : Program Unit} (hpq : q.unplaced = p.unplaced) (hp : (s.resolve p).hasErrors = false)
    (source source' : String) : (s.runProgram source' q).shown = (s.runProgram source p).shown := by
  have hq := hasErrors_of_unplaced hpq hp
  calc
    (s.runProgram source' q).shown = (s.runProgram source q.unplaced).shown :=
      h.runProgram_mapSpan hn _ hq source' source
    _ = (s.runProgram source p.unplaced).shown := by rw [hpq]
    _ = (s.runProgram source p).shown := (h.runProgram_mapSpan hn _ hp source source).symm

theorem MatchesItself.exhausts_mapSpan (hn : s.natives.Discreet) (h : MatchesItself s) (g : Span → Span)
    (p : Program Unit) : s.Exhausts (p.mapSpan g) ↔ s.Exhausts p := by
  obtain ⟨links, hw⟩ := h
  have hends := run_matches hn (programsMatch_mapSpan False g p.statements) hw
  rw [Session.exhausts_iff, Session.exhausts_iff]
  exact iff_of_eq (congrArg (· = true) hends.exhausted.symm)

theorem MatchesItself.exhausts_of_unplaced (hn : s.natives.Discreet) (h : MatchesItself s)
    {p q : Program Unit} (hpq : q.unplaced = p.unplaced) : s.Exhausts q ↔ s.Exhausts p := by
  have hmoved : s.Exhausts q.unplaced ↔ s.Exhausts p.unplaced := by rw [hpq]
  exact (h.exhausts_mapSpan hn _ q).symm.trans (hmoved.trans (h.exhausts_mapSpan hn _ p))

end Matching

end Lox

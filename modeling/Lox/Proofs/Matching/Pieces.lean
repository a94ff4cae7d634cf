import Lox.Proofs.Matching.Sessions
import Lox.Proofs.Syntax.Joining

/-!
# Piece by piece

A session that runs the pieces of a text one after the other does what it does when it runs the whole
text, as long as every piece but the last comes to its end. What a function of an earlier piece refers to
is there for as long as the session lives.
-/

namespace Lox

namespace Session

/-- How the last one of several sources ended. -/
def lastVerdict (os : List Outcome) : Verdict :=
  match os.getLast? with
  | none => .reported .done none
  | some o => o.verdict

end Session

namespace Matching

theorem execProgram_append (host : Host) (env : Environment) (ss ts : List ResolvedStmt) :
    execProgram host env (ss ++ ts) = (execProgram host env ss >>= fun _ => execProgram host env ts) := by
  induction ss with
  | nil => rfl
  | cons s ss ih =>
    rw [List.cons_append, execProgram, execProgram, ih, bind_assoc]

theorem annotateAll_append (ss ts : List (Stmt Unit)) :
    Stmt.annotateAll hopsLabel [] (ss ++ ts) =
      Stmt.annotateAll hopsLabel [] ss ++ Stmt.annotateAll hopsLabel [] ts := by
  induction ss with
  | nil => rfl
  | cons s ss ih => exact congrArg (List.cons _) ih

theorem acceptedAll_append {redeclare : Bool} {ss ts : List (Stmt Unit)}
    (hs : Stmt.AcceptedAll redeclare [] false ss) (ht : Stmt.AcceptedAll redeclare [] false ts) :
    Stmt.AcceptedAll redeclare [] false (ss ++ ts) := by
  induction ss with
  | nil => exact ht
  | cons s ss ih => exact ⟨hs.1, ih hs.2⟩

variable {s : Session} {before : List String} {links : List Link} {w' : World}

theorem outcome_of_accepts {file source : String} {p : Program Unit}
    (h : s.config.Accepts s.machine.nesting file source p) :
    let m := s.run (Stmt.annotateAll hopsLabel [] p.statements)
    (s.runSource file source).verdict = .ofStop (Run.stop? m) ∧
      (s.runSource file source).printed = (Run.world m).printed.toList ∧
        ∃ table, (s.runSource file source).session = { s with table, world := Run.world m } := by
  have herrors := Session.hasErrors_of_accepts h
  rw [Session.runSource_of_accepts h, Session.verdict_runProgram herrors,
    Session.printed_runProgram herrors, Session.session_runProgram herrors, Session.execute_eq,
    Session.program_resolve]
  exact ⟨rfl, rfl, _, rfl⟩

/-- A run ends as sources do that were run one after the other, when certain texts had been printed. -/
structure EndsAs (before : List String) (os : List Session.Outcome) (s : Session)
    (m : EStateM.Result Stop World Unit) : Prop where
  verdict : Verdict.ofStop (Run.stop? m) = Session.lastVerdict os
  printed : (Run.world m).printed.toList = before ++ os.flatMap Session.Outcome.printed
  worlds : ∃ earlier later, WorldsMatch False earlier later s.cleared (Run.world m)

theorem EndsAs.cons {o : Session.Outcome} {os : List Session.Outcome}
    {m : EStateM.Result Stop World Unit} (h : EndsAs (before ++ o.printed) os s m)
    (ho : o.verdict = .reported .done none) : EndsAs before (o :: os) s m where
  verdict := by
    cases os with
    | nil => exact h.verdict.trans ho.symm
    | cons o' os => exact h.verdict
  printed := by rw [h.printed, List.append_assoc, List.flatMap_cons]
  worlds := h.worlds

/-- A piece that stops is the last one, and the whole stops there. -/
theorem EndsAs.last {run : String × String} {runs : List (String × String)} {stop stop' : Stop}
    {v v' : World} {later : List Link} {table : Table}
    (hdone : ∀ o ∈ (s.outcomes (run :: runs)).dropLast, o.verdict = .reported .done none)
    (hverdict : (s.runSource run.1 run.2).verdict = .ofStop (some stop))
    (hprinted : (s.runSource run.1 run.2).printed = v.printed.toList)
    (hsession : (s.runSource run.1 run.2).session = { s with table, world := v })
    (hstop : StopMatches stop stop') (hv : WorldsMatch False before later v v') :
    runs = [] ∧ EndsAs before (s.outcomes [run]) (s.after [run]) (.error stop' v') := by
  constructor
  · cases runs with
    | nil => rfl
    | cons run' runs =>
      have hdone := hverdict.symm.trans (hdone _ List.mem_cons_self)
      cases stop <;> cases hdone
  · have hcleared : WorldsMatch False (before ++ v.printed.toList) later { v with printed := #[] } v' :=
      { hv with printed := by simp [hv.printed] }
    refine ⟨hstop.verdict.symm.trans hverdict.symm, ?_, before ++ v.printed.toList, later, ?_⟩
    · show v'.printed.toList = before ++ ((s.runSource run.1 run.2).printed ++ [])
      rw [hprinted, List.append_nil]
      exact hv.printed
    · show WorldsMatch False _ later (s.runSource run.1 run.2).session.cleared v'
      rw [hsession]
      exact hcleared

/-- The pieces run one after the other on the left, their statements in one run on the right, in the room
that all of them are given. -/
theorem pieces_endAs {config : Config} {machine : Machine} {room : Room} (hn : s.natives.Discreet)
    (hconfig : s.config = config) (hmachine : s.machine = machine) (hroom : s.room? = some room)
    {runs : List (String × String)} {ps : List (Program Unit)}
    (hp : List.Forall₂ (fun run p => config.Accepts machine.nesting run.1 run.2 p) runs ps)
    (hdone : ∀ o ∈ (s.outcomes runs).dropLast, o.verdict = .reported .done none)
    (hw : WorldsMatch False before links s.cleared w') :
    EndsAs before (s.outcomes runs) (s.after runs)
      ((execProgram s.host Session.globals
        (Stmt.annotateAll hopsLabel [] (ps.flatMap Program.statements))).run room w') := by
  induction hp generalizing s before links w' with
  | nil => exact ⟨rfl, hw.printed, before, links, hw⟩
  | @cons run p runs ps hrun hrest ih =>
    obtain ⟨hverdict, hprinted, table, hsession⟩ := outcome_of_accepts (hmachine ▸ hconfig ▸ hrun)
    have hself := programsMatch_self False p.statements
    have hagree : Agree False before links s.cleared w'
        (execProgram s.host Session.globals (Stmt.annotateAll hopsLabel [] p.statements))
        (execProgram s.host Session.globals (Stmt.annotateAll hopsLabel [] p.statements))
        fun _ _ _ => True := Agree.execProgram hn hself hw
    rw [Session.run_of_room hroom] at hverdict hprinted hsession
    rw [List.flatMap_cons, annotateAll_append, execProgram_append]
    cases hagree room room (.refl room) with
    | @ok u u' later v v' hleft hright _ hv _ =>
      rw [hleft] at hverdict hprinted hsession
      let next : Session := { s with table, world := v }
      have houtcomes : s.outcomes (run :: runs) = s.runSource run.1 run.2 :: next.outcomes runs :=
        congrArg (fun t => s.runSource run.1 run.2 :: Session.outcomes t runs) hsession
      have hafter : s.after (run :: runs) = next.after runs :=
        congrArg (fun t => Session.after t runs) hsession
      have hdone' : ∀ o ∈ (next.outcomes runs).dropLast, o.verdict = .reported .done none := by
        intro o ho
        refine hdone o ?_
        rw [houtcomes, List.dropLast_cons_of_ne_nil (List.ne_nil_of_mem (List.dropLast_subset _ ho))]
        exact List.mem_cons_of_mem _ ho
      have hcleared : WorldsMatch False (before ++ (s.runSource run.1 run.2).printed) later next.cleared v' :=
        { hv with printed := by simp [hv.printed, hprinted, Session.cleared, Run.world, next] }
      have hrest := @ih next _ later v' hn hconfig hmachine hroom hdone' hcleared
      rw [houtcomes, hafter, run_bind_ok _ hright]
      exact hrest.cons hverdict
    | @stop stop stop' later v v' hleft hright hstop hv =>
      rw [hleft] at hverdict hprinted hsession
      obtain ⟨rfl, hends⟩ := EndsAs.last hdone hverdict hprinted hsession hstop hv
      rw [run_bind_error _ hright]
      exact hends

/-- Pieces and the whole end alike whatever the host gives, but for no pieces at all: they end well even
where a program would be refused. -/
theorem pieces_run {config : Config} {machine : Machine} (hn : s.natives.Discreet)
    (hconfig : s.config = config) (hmachine : s.machine = machine) {runs : List (String × String)}
    {ps : List (Program Unit)}
    (hp : List.Forall₂ (fun run p => config.Accepts machine.nesting run.1 run.2 p) runs ps)
    (hsome : runs ≠ [] ∨ machine.Grants config.maxCallDepth.val)
    (hdone : ∀ o ∈ (s.outcomes runs).dropLast, o.verdict = .reported .done none)
    (hw : WorldsMatch False [] links s.cleared s.cleared) :
    EndsAs [] (s.outcomes runs) (s.after runs)
      (s.run (Stmt.annotateAll hopsLabel [] (ps.flatMap Program.statements))) := by
  cases hroom : s.room? with
  | some room =>
    rw [Session.run_of_room hroom]
    exact pieces_endAs hn hconfig hmachine hroom hp hdone hw
  | none =>
    rw [Session.run_of_refused hroom]
    cases hp with
    | nil =>
      obtain ⟨room, hgiven⟩ := (hsome.resolve_left fun hne => hne rfl).exists_room
      rw [← hmachine, ← hconfig] at hgiven
      cases hroom.symm.trans hgiven
    | @cons run p runs ps hrun hrest =>
      obtain ⟨hverdict, hprinted, table, hsession⟩ := outcome_of_accepts (hmachine ▸ hconfig ▸ hrun)
      rw [Session.run_of_refused hroom] at hverdict hprinted hsession
      obtain ⟨rfl, hends⟩ := EndsAs.last hdone hverdict hprinted hsession .refused hw
      exact hends

/-! ### Whole texts -/

/-- One program with the statements of several ones. -/
def concatenation (ps : List (Program Unit)) : Program Unit :=
  ⟨default, ps.flatMap Program.statements⟩

theorem unplaced_concatenation (ps : List (Program Unit)) :
    (concatenation ps).unplaced.statements = ps.flatMap fun p => p.unplaced.statements := by
  show Stmt.mapSpanAll _ (ps.flatMap Program.statements) = _
  induction ps with
  | nil => rfl
  | cons p ps ih => rw [List.flatMap_cons, List.flatMap_cons, Stmt.mapSpanAll_append, ih]; rfl

theorem accepted_concatenation {config : Config} {limit : Nat} {runs : List (String × String)}
    {ps : List (Program Unit)}
    (h : List.Forall₂ (fun run p => config.Accepts limit run.1 run.2 p) runs ps) :
    (concatenation ps).Accepted config.allowLocalRedeclaration := by
  show Stmt.AcceptedAll config.allowLocalRedeclaration [] false (ps.flatMap Program.statements)
  induction h with
  | nil => trivial
  | cons hp _ ih =>
    rw [List.flatMap_cons]
    exact acceptedAll_append hp.accepted ih

theorem accepts_joined {config : Config} {limit : Nat} {runs : List (String × String)}
    {ps : List (Program Unit)}
    (hp : List.Forall₂ (fun run p => config.Accepts limit run.1 run.2 p) runs ps) (file : String)
    (hcut : ¬ Parser.CutOff
      (Parser.parseProgram limit (Lexer.scan file ("\n".intercalate (runs.map Prod.snd))).tokens).faults) :
    ∃ q, config.Accepts limit file ("\n".intercalate (runs.map Prod.snd)) q ∧
      q.unplaced = (concatenation ps).unplaced := by
  have hspells : List.Forall₂ (fun run p => Spells run.1 run.2 p) runs ps := hp.imp fun run p h => by
    obtain ⟨tokens, ht, hparse, -⟩ := Config.accepts_iff.mp h
    exact .of_parse ht hparse
  obtain ⟨q, hq, hstatements⟩ := Spells.joined hspells file
  have hunplaced : q.unplaced = (concatenation ps).unplaced :=
    congrArg (Program.mk default) (hstatements.trans (unplaced_concatenation ps).symm)
  have hread := Lexer.tokenize_of_no_fault hq.read
  have hparse := (Parser.parse_of_isProgram hq.formed).resolve_right hcut
  have haccepted := Program.accepted_of_unplaced hunplaced (accepted_concatenation hp)
  exact ⟨q, Config.accepts_iff.mpr ⟨_, hread, hparse, haccepted⟩, hunplaced⟩

theorem shown_whole (hn : s.natives.Discreet) (hself : MatchesItself s) {runs : List (String × String)}
    {ps : List (Program Unit)}
    (hp : List.Forall₂ (fun run p => s.config.Accepts s.machine.nesting run.1 run.2 p) runs ps)
    (hsome : runs ≠ [] ∨ s.machine.Grants s.config.maxCallDepth.val)
    (hdone : ∀ o ∈ (s.outcomes runs).dropLast, o.verdict = .reported .done none) (file : String)
    (hcut : ¬ Parser.CutOff (Parser.parseProgram s.machine.nesting
      (Lexer.scan file ("\n".intercalate (runs.map Prod.snd))).tokens).faults) :
    (s.runSource file ("\n".intercalate (runs.map Prod.snd))).shown =
      ((s.outcomes runs).flatMap Session.Outcome.printed, Session.lastVerdict (s.outcomes runs),
        (s.after runs).shownGlobals) := by
  obtain ⟨q, hq, hunplaced⟩ := accepts_joined hp file hcut
  have herrors : (s.resolve (concatenation ps)).hasErrors = false :=
    (Resolution.hasErrors_ofProgram s.config s.globalNames _).mpr (accepted_concatenation hp)
  obtain ⟨links, hw⟩ := id hself
  have hends := pieces_run hn rfl rfl hp hsome hdone hw
  obtain ⟨earlier, later, hmatch⟩ := hends.worlds
  rw [Session.runSource_of_accepts hq, hself.runProgram_unplaced hn hunplaced herrors "",
    Session.shown_runProgram herrors, Prod.mk.injEq, Prod.mk.injEq]
  refine ⟨hends.printed, hends.verdict, ?_⟩
  let left : Session := { s.after runs with world := (s.after runs).cleared }
  exact (@WorldsMatch.shownGlobals _ _ _ left _ hmatch).symm

end Matching

/-! ### Functions of earlier pieces -/

/-- The body of a function is labelled in scopes whose names the frames around it hold. -/
def Closure.Anchored (c : Closure) (s : Store) : Prop :=
  ∃ (scopes : List (List String)) (body : List (Stmt Unit)),
    c.body = Stmt.annotateAll hopsLabel (paramNames c.params :: scopes) body ∧ s.Covers scopes c.env

theorem Registry.Discreet.returnsGiven {r : Registry} (h : r.Discreet) : r.ReturnsGiven := by
  intro n hn now args id f hv
  obtain ⟨l, hl⟩ := (h n hn).gives now args _ hv
  cases l <;> cases hl

namespace Session

variable {own : String → Prop} {config : Config} {machine : Machine} {s : Session}

theorem Sound.grows_runSource (h : s.Sound own config machine) {file source : String}
    (hs : ∀ p, config.Accepts machine.nesting file source p → ∀ x, p.SelfAssigns x → own x) :
    s.world.store.Grows (s.runSource file source).session.world.store := by
  rcases s.runSource_cases file source with ⟨hsame, -⟩ | ⟨p, hp, hsession, -⟩
  · rw [hsame]
    exact Store.Grows.refl _
  · rw [h.settings, h.machine] at hp
    have hrun := h.run hp.placed hp.accepted (hs p hp)
    rw [hsession, execute_eq, program_resolve]
    split at hrun <;> rename_i heq <;> rw [heq]
    · exact hrun.grows
    · exact hrun.1.grows

theorem Sound.grows_after (h : s.Sound own config machine) {runs : List (String × String)}
    (hs : ∀ run ∈ runs, ∀ p, config.Accepts machine.nesting run.1 run.2 p →
      ∀ x, p.SelfAssigns x → own x) :
    s.world.store.Grows (s.after runs).world.store := by
  induction runs generalizing s with
  | nil => exact Store.Grows.refl _
  | cons run runs ih =>
    have hrun := hs run List.mem_cons_self
    have hnext := (h.runSource hrun).1
    exact (h.grows_runSource hrun).trans (ih hnext fun run' hmem => hs run' (List.mem_cons_of_mem run hmem))

theorem anchored_after {natives : Registry} {clock : Nat → Float} (hn : natives.ReturnsGiven)
    (hs : create config natives clock machine = .ok s) (before later : List (String × String))
    {id : FrameId} {name : String} {k : Nat} {c : Closure}
    (hc : (s.after before).world.store.slot? id name = some (.function k (.closure c))) :
    c.Anchored (s.after (before ++ later)).world.store := by
  have hsound : (s.after before).Sound (fun _ => True) config machine :=
    (sound_create hn hs).after fun _ _ _ _ _ _ => trivial
  obtain ⟨scopes, body, hbody, -, -, -, hcovers⟩ := hsound.sound id name _ hc
  have happend : s.after (before ++ later) = (s.after before).after later := List.foldl_append
  rw [happend]
  exact ⟨scopes, body, hbody, hcovers.mono (hsound.grows_after fun _ _ _ _ _ _ => trivial)⟩

/-! ### Pieces and the whole -/

theorem exists_programs {limit : Nat} {runs : List (String × String)}
    (h : ∀ run ∈ runs, ∃ p, config.Accepts limit run.1 run.2 p) :
    ∃ ps, List.Forall₂ (fun run p => config.Accepts limit run.1 run.2 p) runs ps := by
  induction runs with
  | nil => exact ⟨[], .nil⟩
  | cons run runs ih =>
    obtain ⟨p, hp⟩ := h run List.mem_cons_self
    obtain ⟨ps, hps⟩ := ih fun run' hmem => h run' (List.mem_cons_of_mem run hmem)
    exact ⟨p :: ps, .cons hp hps⟩

/-- Pieces that a new session runs one after the other show what the text made of them shows in a new
session, if every piece but the last comes to its end. If there is no piece, the host has to give a stack.
What a function of an earlier piece refers to is there for all later ones. -/
theorem shown_joined {natives : Registry} {clock : Nat → Float} (hn : natives.Discreet)
    (hs : create config natives clock machine = .ok s) {runs : List (String × String)}
    (hp : ∀ run ∈ runs, ∃ p, config.Accepts machine.nesting run.1 run.2 p)
    (hsome : runs ≠ [] ∨ machine.Grants config.maxCallDepth.val)
    (hdone : ∀ o ∈ (s.outcomes runs).dropLast, o.verdict = .reported .done none) (file : String)
    (hcut : ¬ Parser.CutOff (Parser.parseProgram machine.nesting
      (Lexer.scan file ("\n".intercalate (runs.map Prod.snd))).tokens).faults) :
    (s.runSource file ("\n".intercalate (runs.map Prod.snd))).shown =
        ((s.outcomes runs).flatMap Outcome.printed, lastVerdict (s.outcomes runs),
          (s.after runs).shownGlobals) ∧
      ∀ before later, runs = before ++ later → ∀ id name k c,
        (s.after before).world.store.slot? id name = some (.function k (.closure c)) →
          c.Anchored (s.after runs).world.store := by
  have hcreated := succeeds_create hs
  have hself := Matching.matchesItself_create hs
  constructor
  · obtain ⟨table, w, rfl⟩ := hcreated
    obtain ⟨ps, hps⟩ := exists_programs hp
    exact Matching.shown_whole hn hself hps hsome hdone file hcut
  · rintro before later rfl id name k c hc
    exact anchored_after hn.returnsGiven hs before later hc

/-- A function of the first piece prints a variable of a block that has ended when it is called. -/
def keptPieces : List (String × String) :=
  [("", "var g; { var a = true; fun f() { print a; } g = f; }"), ("", "g();")]

theorem shown_joined_kept :
    (bare.runSource "" "var g; { var a = true; fun f() { print a; } g = f; }\ng();").printed =
      ["true"] := by
  have hcreate : create bare.config .standard bare.clock .standard = .ok bare := rfl
  have hp : ∀ run ∈ keptPieces, ∃ p, bare.config.Accepts bare.machine.nesting run.1 run.2 p := by
    decide +kernel
  have hdone : ∀ o ∈ (bare.outcomes keptPieces).dropLast, o.verdict = .reported .done none := by
    decide +kernel
  have hfaults : (Parser.parseProgram bare.machine.nesting
      (Lexer.scan "" ("\n".intercalate (keptPieces.map Prod.snd))).tokens).faults = [] := by
    decide +kernel
  have hcut : ¬ Parser.CutOff (Parser.parseProgram bare.machine.nesting
      (Lexer.scan "" ("\n".intercalate (keptPieces.map Prod.snd))).tokens).faults := by
    rw [hfaults]
    exact fun h => nomatch h
  have hsome : keptPieces ≠ [] ∨ bare.machine.Grants bare.config.maxCallDepth.val :=
    Or.inl (List.cons_ne_nil _ _)
  have hprinted : (bare.outcomes keptPieces).flatMap Outcome.printed = ["true"] := by decide +kernel
  have h := congrArg Prod.fst (shown_joined Registry.discreet_standard hcreate hp hsome hdone "" hcut).1
  rw [hprinted] at h
  exact h

end Session

end Lox

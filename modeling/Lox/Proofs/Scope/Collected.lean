import Lox.Diagnostic.Collector
import Lox.Scope.Resolution
import Lox.Syntax.Parser.Program

/-!
# Collected diagnostics

A parse and a walk over the names each have a collector of their own. A parse adds every fault and stops where
the collector is full; a walk goes on, and adds errors only as long as it is not full. So what both report, and
whether they have failed, is what the collector says.
-/

namespace Lox

/-! ### Collectors -/

namespace Collector

variable (c : Collector) (ds : List Diagnostic)

def addAll : Collector := ds.foldl add c

/-- Adds a diagnostic, but no error to a full collector. -/
def offer (d : Diagnostic) : Collector := if d.isError && c.isFull then c else c.add d

def offerAll : Collector := ds.foldl offer c

theorem entries_addAll : (c.addAll ds).entries = c.entries ++ ds := by
  induction ds generalizing c with
  | nil => exact (List.append_nil _).symm
  | cons d ds ih => exact (ih (c.add d)).trans (List.append_assoc _ [d] ds)

theorem limit_addAll : (c.addAll ds).limit = c.limit := by
  induction ds generalizing c with
  | nil => rfl
  | cons d ds ih => exact ih (c.add d)

theorem errorCount_addAll (h : ∀ d ∈ ds, d.isError = true) :
    (c.addAll ds).errorCount = c.errorCount + ds.length := by
  rw [errorCount, entries_addAll, List.countP_append, List.countP_eq_length.mpr h, errorCount]

/-- A collector with room for so many errors more takes those, and all that is no error. -/
theorem entries_offerAll {room : Nat} (hroom : c.limit = c.errorCount + room) (fs : List Finding) :
    (c.offerAll (fs.map Finding.diagnostic)).entries =
      c.entries ++ (Finding.limitErrors room fs).map Finding.diagnostic := by
  induction fs generalizing c room with
  | nil => exact (List.append_nil _).symm
  | cons f fs ih =>
    have hcount := c.errorCount_add f.diagnostic
    rw [Finding.isError_diagnostic] at hcount
    have hadd {room : Nat} (h : c.limit = (c.add f.diagnostic).errorCount + room) :
        ((c.add f.diagnostic).offerAll (fs.map Finding.diagnostic)).entries =
          c.entries ++ f.diagnostic :: (Finding.limitErrors room fs).map Finding.diagnostic :=
      (ih (c.add f.diagnostic) h).trans (List.append_assoc _ [_] _)
    change ((c.offer f.diagnostic).offerAll _).entries = _
    rw [offer, Finding.isError_diagnostic, isFull]
    cases herror : f.isError with
    | false =>
      have hlimit : Finding.limitErrors room (f :: fs) = f :: Finding.limitErrors room fs := by
        cases room <;> simp [Finding.limitErrors, herror]
      rw [Bool.false_and, if_neg Bool.false_ne_true, hlimit]
      exact hadd (by simp [hcount, herror, hroom])
    | true =>
      rw [Bool.true_and]
      cases room with
      | zero =>
        rw [decide_eq_true (by omega), if_pos rfl, ih c hroom]
        simp [Finding.limitErrors, herror]
      | succ room =>
        rw [decide_eq_false (by omega), if_neg Bool.false_ne_true, Finding.limitErrors, if_pos herror]
        exact hadd (by simp [hcount, herror, hroom]; omega)

end Collector

/-! ### A parse -/

namespace Parser

theorem isError_diagnostic (source : Option String) (f : SyntaxFault) : (f.diagnostic source).isError = true :=
  rfl

/-- A collector to which all faults of a parse were added: it holds them in their order, is full just if the
parse has as many as it may have, and has errors just if the parse fails. -/
theorem parse_collected (limit : Nat) (tokens : List Token) (source : Option String) :
    let outcome := parseProgram limit tokens
    let collector := Collector.addAll { limit := errorLimit } (outcome.faults.map (·.diagnostic source))
    collector.entries = outcome.faults.map (·.diagnostic source) ∧ collector.isFull = outcome.isFull ∧
      (collector.hasErrors = true ↔ parse limit tokens = .error outcome.faults) := by
  intro outcome collector
  have hcount : collector.errorCount = outcome.faults.length := by
    rw [Collector.errorCount_addAll, List.length_map]
    · exact Nat.zero_add _
    · intro d hd
      obtain ⟨f, -, rfl⟩ := List.mem_map.mp hd
      exact isError_diagnostic source f
  refine ⟨Collector.entries_addAll _ _, ?_, ?_⟩
  · rw [Collector.isFull, Collector.limit_addAll, hcount, Outcome.isFull]
  · rw [Collector.hasErrors, decide_eq_true_iff, hcount, List.length_pos_iff, parse]
    change _ ↔ (if outcome.faults.isEmpty = true then _ else _) = _
    cases outcome.faults <;> simp

end Parser

/-! ### A walk -/

namespace Resolution

/-- A collector that all findings of a walk were offered to holds what is reported, and has errors just if the
program is rejected. -/
theorem diagnostics_collected (config : Config) (r : Resolution) :
    let collector :=
      Collector.offerAll { limit := config.maxErrors.val } (r.findings.map Finding.diagnostic)
    collector.entries = r.diagnostics config ∧ collector.hasErrors = r.hasErrors := by
  intro collector
  have hentries : collector.entries = r.diagnostics config :=
    Collector.entries_offerAll _ (Nat.zero_add _).symm r.findings
  refine ⟨hentries, ?_⟩
  have hreported : (r.reported config).filter Finding.isError = [] ↔
      r.findings.filter Finding.isError = [] := by
    rw [reported, Finding.filter_isError_limitErrors, List.take_eq_nil_iff]
    exact or_iff_right (Nat.pos_iff_ne_zero.mp config.maxErrors.property)
  have hcount : collector.errorCount = (r.reported config).countP Finding.isError := by
    rw [Collector.errorCount, hentries, diagnostics, List.countP_map]
    rfl
  rw [Collector.hasErrors, hcount, hasErrors, Bool.eq_iff_iff, decide_eq_true_iff, List.countP_pos_iff,
    List.any_eq_true]
  have hany (fs : List Finding) : (∃ f ∈ fs, f.isError = true) ↔ fs.filter Finding.isError ≠ [] := by
    rw [Ne, List.filter_eq_nil_iff]
    simp
  rw [hany, hany, Ne, Ne, hreported]

end Resolution

end Lox

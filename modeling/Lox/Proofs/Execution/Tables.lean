import Lox.Proofs.Execution.Origins
import Lox.Proofs.Execution.Outcomes

/-!
# What a table keeps

The bindings of a program are entered in the table of its session when the program begins. Later programs
have other numbers, so what was entered stays as it is, and the functions of a program are found in the
table with the bindings that they were resolved with.
-/

namespace Lox

/-! ### Functions with labels -/

section Labels

variable {ρ τ : Type} (f : ρ → τ)

def Declaration.map (d : Declaration ρ) : Declaration τ := ⟨d.name, d.params, Stmt.mapAll f d.body⟩

mutual

theorem Stmt.functions_map (s : Stmt ρ) : (s.map f).functions = s.functions.map (·.map f) := by
  cases s with
  | expression | print | varDecl | ret => rfl
  | block span body => exact Stmt.functionsAll_mapAll body
  | conditional span c t e =>
    cases e with
    | none => exact Stmt.functions_map t
    | some e =>
      have ht := Stmt.functions_map t
      have he := Stmt.functions_map e
      simp only [Stmt.map, Stmt.functions, List.map_append, ht, he]
  | loop span c b => exact Stmt.functions_map b
  | funDecl span name params body =>
    have hbody := Stmt.functionsAll_mapAll body
    simp only [Stmt.map, Stmt.functions, List.map_cons, hbody]
    rfl

theorem Stmt.functionsAll_mapAll (ss : List (Stmt ρ)) :
    Stmt.functionsAll (Stmt.mapAll f ss) = (Stmt.functionsAll ss).map (·.map f) := by
  cases ss with
  | nil => rfl
  | cons s ss =>
    have hhead := Stmt.functions_map s
    have htail := Stmt.functionsAll_mapAll ss
    simp only [Stmt.mapAll, Stmt.functionsAll, List.map_append, hhead, htail]

end

theorem Program.functions_map (p : Program ρ) : (p.map f).functions = p.functions.map (·.map f) :=
  Stmt.functionsAll_mapAll f p.statements

end Labels

/-! ### Tables that grow -/

/-- The later table has the programs of the earlier one, with the same bindings. -/
structure Table.Grows (t u : Table) : Prop where
  programs : t.programs ≤ u.programs
  lookup : ∀ program < t.programs, ∀ node, u.lookup program node = t.lookup program node

namespace Table.Grows

variable {t u v : Table}

theorem refl (t : Table) : t.Grows t := ⟨Nat.le_refl _, fun _ _ _ => rfl⟩

theorem trans (h : t.Grows u) (h' : u.Grows v) : t.Grows v where
  programs := Nat.le_trans h.programs h'.programs
  lookup program hlt node :=
    (h'.lookup program (Nat.lt_of_lt_of_le hlt h.programs) node).trans (h.lookup program hlt node)

theorem extend (t : Table) (bindings : List (Nat × Nat)) : t.Grows (t.extend bindings) where
  programs := Nat.le_succ _
  lookup _ hlt node := lookup_extend_of_lt hlt node

end Table.Grows

namespace Session

variable {s : Session} {file source : String} {p : Program Unit}

theorem table_runSource_of_accepts (h : s.config.Accepts s.machine.nesting file source p) :
    (s.runSource file source).session.table = s.table.extend (s.resolve p).bindings := by
  rw [runSource_of_accepts h, session_runProgram (hasErrors_of_accepts h), execute_eq]

theorem grows_runSource (s : Session) (file source : String) :
    s.table.Grows (s.runSource file source).session.table := by
  rcases s.runSource_cases file source with ⟨hsame, -⟩ | ⟨p, hp, -, -⟩
  · rw [hsame]
    exact .refl s.table
  · rw [table_runSource_of_accepts hp]
    exact .extend s.table _

theorem grows_after (s : Session) (runs : List (String × String)) : s.table.Grows (s.after runs).table :=
  after_induction (P := fun t => s.table.Grows t.table) (.refl s.table)
    fun t h run _ => h.trans (t.grows_runSource run.1 run.2)

/-- The bindings of a program of a session are in its table from then on. -/
theorem lookup_after {before later : List (String × String)}
    (hp : s.config.Accepts s.machine.nesting file source p) (node : Nat) :
    (s.after (before ++ (file, source) :: later)).table.lookup (s.after before).table.programs node =
      ((s.after before).resolve p).bindings.lookup node := by
  let t := s.after before
  have hp' : t.config.Accepts t.machine.nesting file source p := by
    rwa [show t.config = s.config from config_after s before,
      show t.machine = s.machine from machine_after s before]
  have hsplit : s.after (before ++ (file, source) :: later) =
      (t.runSource file source).session.after later := List.foldl_append
  have htable := table_runSource_of_accepts hp'
  have hlt : t.table.programs < (t.runSource file source).session.table.programs := by
    rw [htable]
    exact Nat.lt_succ_self _
  rw [hsplit, (grows_after _ later).lookup _ hlt, htable]
  exact Table.lookup_extend node

end Session

end Lox

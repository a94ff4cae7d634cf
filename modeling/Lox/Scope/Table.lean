import Lox.Scope.Resolution

/-!
# The table of bindings

An interpreter keeps the bindings of all its programs in one table, so that a function can be called when
later programs run. A reference is known by the number of its program and its own number there. Programs
are numbered as they come, so the bindings of one never replace those of another.
-/

namespace Lox

/-- The hops of local references, under the numbers of their programs and their own. -/
structure Table where
  entries : List ((Nat × Nat) × Nat)
  /-- The number of programs so far. -/
  programs : Nat
  numbered : ∀ e ∈ entries, e.1.1 < programs

namespace Table

def empty : Table := ⟨[], 0, fun _ he => absurd he List.not_mem_nil⟩

instance : Inhabited Table := ⟨empty⟩

def lookup (t : Table) (program node : Nat) : Option Nat := t.entries.lookup (program, node)

/-- The table with the bindings of one more program. -/
def extend (t : Table) (bindings : List (Nat × Nat)) : Table where
  entries := bindings.map (fun b => ((t.programs, b.1), b.2)) ++ t.entries
  programs := t.programs + 1
  numbered := by
    intro e he
    rcases List.mem_append.mp he with hnew | hold
    · obtain ⟨b, -, rfl⟩ := List.mem_map.mp hnew
      exact Nat.lt_succ_self _
    · exact Nat.lt_succ_of_lt (t.numbered e hold)

variable {t : Table} {bindings : List (Nat × Nat)}

theorem lookup_extend_of_lt {program : Nat} (h : program < t.programs) (node : Nat) :
    (t.extend bindings).lookup program node = t.lookup program node := by
  have hne (b : Nat × Nat) : ((program, node) == (t.programs, b.1)) = false :=
    beq_false_of_ne fun heq => absurd (Prod.mk.inj heq).1 (Nat.ne_of_lt h)
  show (bindings.map (fun b => ((t.programs, b.1), b.2)) ++ t.entries).lookup (program, node) = _
  induction bindings with
  | nil => rfl
  | cons b bindings ih => rw [List.map_cons, List.cons_append, List.lookup_cons, hne b, ih]

theorem lookup_programs (node : Nat) : t.lookup t.programs node = none := by
  refine List.lookup_eq_none_iff.mpr fun e he => bne_iff_ne.mpr fun heq => ?_
  have hlt := t.numbered e he
  rw [← heq] at hlt
  exact Nat.lt_irrefl _ hlt

/-- The bindings of the latest program are those that it came with. -/
theorem lookup_extend (node : Nat) :
    (t.extend bindings).lookup t.programs node = bindings.lookup node := by
  show (bindings.map (fun b => ((t.programs, b.1), b.2)) ++ t.entries).lookup (t.programs, node) = _
  induction bindings with
  | nil => exact lookup_programs node
  | cons b bindings ih =>
    have hkey : ((t.programs, node) == (t.programs, b.1)) = (node == b.1) := by
      rw [Bool.eq_iff_iff, beq_iff_eq, beq_iff_eq, Prod.mk.injEq]
      exact and_iff_right rfl
    rw [List.map_cons, List.cons_append, List.lookup_cons, List.lookup_cons, ih, hkey]

end Table

end Lox

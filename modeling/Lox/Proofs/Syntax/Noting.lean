import Lox.Proofs.Syntax.Steps

/-!
# Faults on the way

A rule that recovers succeeds although it has noted faults. Which ones they are depends on the segments
of the program that are at fault: each of them has its own, one or more, and they are noted segment by
segment. `Notes` says so of a run that is not cut off by its depth; without such a segment it says no more
than `Yields`.
-/

namespace Lox.Parser

variable {α β : Type} {s m s' : State}

/-! ### States with more faults -/

/-- The same state with faults noted on top of those it has. -/
def State.plus (s : State) (faults : List SyntaxFault) : State :=
  { s with faults := faults ++ s.faults }

theorem State.plus_nil (s : State) : s.plus [] = s := rfl

theorem State.plus_plus (s : State) (fs gs : List SyntaxFault) :
    (s.plus fs).plus gs = s.plus (gs ++ fs) := by
  rw [plus, plus, plus, List.append_assoc]

theorem Moves.plus {ts : List Token} (h : Moves s ts s') (faults : List SyntaxFault) :
    Moves (s.plus faults) ts (s'.plus faults) where
  tokens := h.tokens
  previous := h.previous
  faults := congrArg (faults ++ ·) h.faults

/-! ### Blame -/

/-- A segment has faults of its own, all of them at its tokens. -/
structure Accuses (faults : List SyntaxFault) (segment : List Token) : Prop where
  some_fault : faults ≠ []
  inside : ∀ f ∈ faults, ∃ t ∈ segment, f.span = t.span

/-- The faults are those of the segments, one segment after the other. -/
inductive Blames : List (List Token) → List SyntaxFault → Prop where
  | nil : Blames [] []
  | cons {segment : List Token} {segments : List (List Token)} {own faults : List SyntaxFault} :
    Accuses own segment → Blames segments faults → Blames (segment :: segments) (own ++ faults)

theorem Blames.append {bads bads' : List (List Token)} {faults faults' : List SyntaxFault}
    (h : Blames bads faults) (h' : Blames bads' faults') : Blames (bads ++ bads') (faults ++ faults') := by
  induction h with
  | nil => exact h'
  | cons hown _ ih =>
    rw [List.append_assoc]
    exact .cons hown ih

theorem Blames.eq_nil {faults : List SyntaxFault} (h : Blames [] faults) : faults = [] := by
  cases h
  rfl

/-! ### Runs -/

/-- A rule succeeds in the given way and notes the faults of the segments, unless it is cut off by its
depth. -/
def Notes (bads : List (List Token)) (rule : Rule α) (s : State) (a : α) (s' : State) : Prop :=
  (∃ faults, Blames bads faults.reverse ∧ rule s = .ok a (s'.plus faults)) ∨
    ∃ s'', rule s = .error .tooDeep s''

variable {bads bads' : List (List Token)} {rule : Rule α} {next : α → Rule β} {a : α} {b : β}

theorem notes_tooDeep (s s' : State) (a : α) : Notes bads (throw .tooDeep) s a s' := Or.inr ⟨s, rfl⟩

theorem YieldsUnless.notes (h : Yields rule s a s') : Notes [] rule s a s' := by
  rcases h with h | ⟨-, h⟩
  · exact Or.inl ⟨[], .nil, h⟩
  · exact Or.inr h

/-- What follows starts with the faults that have been noted so far. -/
theorem Notes.bind (h : Notes bads rule s a m)
    (hn : ∀ faults, Notes bads' (next a) (m.plus faults) b (s'.plus faults)) :
    Notes (bads ++ bads') (rule >>= next) s b s' := by
  rcases h with ⟨fs, hfs, hr⟩ | ⟨m', hr⟩
  · rw [Notes, bind_of_ok hr]
    rcases hn fs with ⟨gs, hgs, hr'⟩ | hr'
    · rw [State.plus_plus] at hr'
      refine Or.inl ⟨gs ++ fs, ?_, hr'⟩
      rw [List.reverse_append]
      exact hfs.append hgs
    · exact Or.inr hr'
  · exact Or.inr ⟨m', bind_of_error hr⟩

theorem YieldsUnless.bindNotes (h : Yields rule s a m) (hn : Notes bads (next a) m b s') :
    Notes bads (rule >>= next) s b s' := by
  rcases h with h | ⟨-, m', h⟩
  · rwa [Notes, bind_of_ok h]
  · exact Or.inr ⟨m', bind_of_error h⟩

theorem Notes.bindYields (h : Notes bads rule s a m)
    (hn : ∀ faults, Yields (next a) (m.plus faults) b (s'.plus faults)) :
    Notes bads (rule >>= next) s b s' := by
  rw [← List.append_nil bads]
  exact h.bind fun faults => (hn faults).notes

theorem Notes.map (f : α → β) (h : Notes bads rule s a s') : Notes bads (f <$> rule) s (f a) s' := by
  rw [map_eq_pure_bind f rule]
  exact h.bindYields fun faults => yields_pure (f a) _

theorem Notes.recovering (h : Notes bads rule s a s') :
    Notes bads (recovering rule) s (some a) s' := by
  rcases h with ⟨fs, hfs, hr⟩ | ⟨s'', hr⟩
  · exact Or.inl ⟨fs, hfs, by rw [Parser.recovering, hr]⟩
  · exact Or.inr ⟨s'', by rw [Parser.recovering, hr]⟩

end Lox.Parser

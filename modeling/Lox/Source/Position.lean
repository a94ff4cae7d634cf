/-!
# Places in a source text

A position counts lines and columns from one and offsets from zero, all in characters. Only a line
feed begins a new line. A span is the stretch of a named source between two positions.
-/

namespace Lox

/-! ### Positions -/

/-- A place between two characters of a source text. -/
structure Position where
  line : Nat
  column : Nat
  offset : Nat
deriving DecidableEq, Repr, Inhabited

namespace Position

def origin : Position := ⟨1, 1, 0⟩

def next (p : Position) (c : Char) : Position :=
  if c = '\n' then ⟨p.line + 1, 1, p.offset + 1⟩ else ⟨p.line, p.column + 1, p.offset + 1⟩

def after (p : Position) (cs : List Char) : Position := cs.foldl next p

theorem after_nil (p : Position) : p.after [] = p := rfl

theorem after_cons (p : Position) (c : Char) (cs : List Char) :
    p.after (c :: cs) = (p.next c).after cs := rfl

theorem after_append (p : Position) (cs ds : List Char) :
    p.after (cs ++ ds) = (p.after cs).after ds := by
  simp [after, List.foldl_append]

theorem offset_next (p : Position) (c : Char) : (p.next c).offset = p.offset + 1 := by
  unfold next
  split <;> rfl

theorem offset_after (p : Position) (cs : List Char) :
    (p.after cs).offset = p.offset + cs.length := by
  induction cs generalizing p with
  | nil => rfl
  | cons c cs ih =>
    rw [after_cons, ih, offset_next, List.length_cons]
    omega

end Position

/-! ### Spans -/

/-- The stretch of a source from `first` to `last`; `file` is empty for a source without a name. -/
structure Span where
  file : String
  first : Position
  last : Position
deriving DecidableEq, Repr, Inhabited

namespace Span

def nowhere : Span := ⟨"", ⟨0, 0, 0⟩, ⟨0, 0, 0⟩⟩

def join (s t : Span) : Span := ⟨s.file, s.first, t.last⟩

/-- The name of the source in front of a place, if it has one. -/
def located (s : Span) (place : String) : String :=
  if s.file.isEmpty then place else s.file ++ ":" ++ place

def placeText (p : Position) : String := toString p.line ++ ":" ++ toString p.column

def startText (s : Span) : String := s.located (placeText s.first)

def text (s : Span) : String := s.located (placeText s.first ++ "-" ++ placeText s.last)

end Span

end Lox

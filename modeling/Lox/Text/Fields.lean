/-!
# Fields between separators

A text is cut at every occurrence of a separator. There is one field more than separators, and
joining the fields again gives the text back.
-/

namespace Lox.Text

def fields (separator : Char) : List Char → List (List Char)
  | [] => [[]]
  | c :: cs =>
    if c = separator then [] :: fields separator cs
    else
      match fields separator cs with
      | [] => [[c]]
      | f :: fs => (c :: f) :: fs

theorem fields_ne_nil (separator : Char) (cs : List Char) : fields separator cs ≠ [] := by
  cases cs with
  | nil => simp [fields]
  | cons c cs =>
    rw [fields]
    split
    · simp
    · split <;> simp

theorem intercalate_fields (separator : Char) (cs : List Char) :
    [separator].intercalate (fields separator cs) = cs := by
  induction cs with
  | nil => rfl
  | cons c cs ih =>
    rw [fields]
    split
    · rename_i h
      cases hf : fields separator cs with
      | nil => exact absurd hf (fields_ne_nil _ _)
      | cons f fs =>
        rw [hf] at ih
        simp [List.intercalate, ← ih, h]
    · cases hf : fields separator cs with
      | nil => exact absurd hf (fields_ne_nil _ _)
      | cons f fs =>
        rw [hf] at ih
        cases fs <;> simp_all [List.intercalate]

end Lox.Text

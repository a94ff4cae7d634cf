/-!
# Line ends of text files

Text files end their lines with a line feed, a carriage return, or both in this order. Read as text,
each of the three is a single line feed.
-/

namespace Lox.Text

def unifyNewlines : List Char → List Char
  | [] => []
  | '\r' :: '\n' :: cs => '\n' :: unifyNewlines cs
  | '\r' :: cs => '\n' :: unifyNewlines cs
  | c :: cs => c :: unifyNewlines cs

theorem not_mem_unifyNewlines (cs : List Char) : '\r' ∉ unifyNewlines cs := by
  fun_induction unifyNewlines cs with
  | case1 => simp
  | case2 cs ih => simp [ih]
  | case3 cs _ ih => simp [ih]
  | case4 c cs _ h ih => simpa [ih, eq_comm] using fun e => h e

theorem unifyNewlines_of_not_mem (cs : List Char) (h : '\r' ∉ cs) : unifyNewlines cs = cs := by
  fun_induction unifyNewlines cs with
  | case1 => rfl
  | case2 => simp at h
  | case3 => simp at h
  | case4 c cs _ _ ih => rw [ih fun m => h (List.mem_cons_of_mem _ m)]

theorem unifyNewlines_unifyNewlines (cs : List Char) :
    unifyNewlines (unifyNewlines cs) = unifyNewlines cs :=
  unifyNewlines_of_not_mem _ (not_mem_unifyNewlines cs)

end Lox.Text

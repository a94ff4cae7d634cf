import Lox.Proofs.Syntax.Tiling
import Mathlib.Data.List.TakeWhile

/-!
# Lines that are looked up

Places count line feeds, while the lines that are quoted are cut at every line break. Up to the end of a
line whose breaks are line feeds only, a carriage return in front of them or not, both count the same, and
the line that is looked up is the one around the place, without the carriage return at its end.
-/

namespace Lox.Source

/-! ### Lines between line feeds -/

/-- The line around an offset: what stands between the last line feed in front of it and the next one. -/
def lineAt (source : List Char) (offset : Nat) : List Char :=
  ((source.take offset).reverse.takeWhile (· != '\n')).reverse ++
    (source.drop offset).takeWhile (· != '\n')

/-- The offset of the line feed that ends the line around an offset, or of the end of the text. -/
def lineEnd (source : List Char) (offset : Nat) : Nat :=
  offset + ((source.drop offset).takeWhile (· != '\n')).length

theorem ne_feed_of_mem {cs : List Char} (h : '\n' ∉ cs) : ∀ c ∈ cs, (c != '\n') = true :=
  fun _ hc => bne_iff_ne.mpr fun heq => h (heq.symm ▸ hc)

theorem takeWhile_no_feed {cs : List Char} (h : '\n' ∉ cs) : cs.takeWhile (· != '\n') = cs :=
  List.takeWhile_eq_self_iff.mpr (ne_feed_of_mem h)

section

variable {line behind : List Char} (hline : '\n' ∉ line)

include hline

theorem takeWhile_feed_behind (hbehind : behind.takeWhile (· != '\n') = []) :
    (line ++ behind).takeWhile (· != '\n') = line := by
  rw [List.takeWhile_append_of_pos (ne_feed_of_mem hline), hbehind, List.append_nil]

variable {offset : Nat} (ho : offset ≤ line.length)

include ho

theorem lineAt_first (hbehind : behind.takeWhile (· != '\n') = []) :
    lineAt (line ++ behind) offset = line := by
  have htake : '\n' ∉ (line.take offset).reverse :=
    fun h => hline (List.mem_of_mem_take (List.mem_reverse.mp h))
  have hdrop : '\n' ∉ line.drop offset := fun h => hline (List.mem_of_mem_drop h)
  rw [lineAt, List.take_append_of_le_length ho, List.drop_append_of_le_length ho,
    takeWhile_no_feed htake, takeWhile_feed_behind hdrop hbehind, List.reverse_reverse,
    List.take_append_drop]

theorem lineEnd_first (hbehind : behind.takeWhile (· != '\n') = []) :
    lineEnd (line ++ behind) offset = line.length := by
  have hdrop : '\n' ∉ line.drop offset := fun h => hline (List.mem_of_mem_drop h)
  rw [lineEnd, List.drop_append_of_le_length ho, takeWhile_feed_behind hdrop hbehind, List.length_drop]
  omega

end

section

variable (line behind : List Char) (offset : Nat)

theorem take_behind_feed : (line ++ '\n' :: behind).take (line.length + 1 + offset) =
    line ++ '\n' :: behind.take offset := by
  rw [Nat.add_assoc, List.take_append, List.take_of_length_le (Nat.le_add_right ..),
    Nat.add_sub_cancel_left, Nat.add_comm 1, List.take_succ_cons]

theorem drop_behind_feed :
    (line ++ '\n' :: behind).drop (line.length + 1 + offset) = behind.drop offset := by
  rw [Nat.add_assoc, List.drop_append, List.drop_of_length_le (Nat.le_add_right ..),
    Nat.add_sub_cancel_left, Nat.add_comm 1, List.drop_succ_cons, List.nil_append]

theorem lineAt_behind_feed :
    lineAt (line ++ '\n' :: behind) (line.length + 1 + offset) = lineAt behind offset := by
  have hreverse : (line ++ '\n' :: behind.take offset).reverse =
      (behind.take offset).reverse ++ '\n' :: line.reverse := by
    simp
  rw [lineAt, take_behind_feed, drop_behind_feed, hreverse, Lexer.takeWhile_line rfl]
  rfl

theorem lineEnd_behind_feed :
    lineEnd (line ++ '\n' :: behind) (line.length + 1 + offset) = line.length + 1 + lineEnd behind offset := by
  rw [lineEnd, drop_behind_feed, lineEnd]
  omega

end

/-! ### Texts with plain breaks -/

/-- All line breaks are line feeds, or carriage returns directly in front of one. -/
def PlainBreaks : List Char → Prop
  | [] => True
  | c :: cs => (isLineBreak c = true → c = '\n' ∨ c = '\r' ∧ cs.head? = some '\n') ∧ PlainBreaks cs

instance decidablePlainBreaks : DecidablePred PlainBreaks
  | [] => .isTrue trivial
  | c :: cs =>
    have := decidablePlainBreaks cs
    inferInstanceAs (Decidable
      ((isLineBreak c = true → c = '\n' ∨ c = '\r' ∧ cs.head? = some '\n') ∧ PlainBreaks cs))

theorem PlainBreaks.of_append {xs ys : List Char} (h : PlainBreaks (xs ++ ys)) : PlainBreaks ys := by
  induction xs with
  | nil => exact h
  | cons c cs ih => exact ih h.2

theorem PlainBreaks.up_to_feed {xs ys : List Char} (h : PlainBreaks (xs ++ '\n' :: ys)) :
    PlainBreaks (xs ++ ['\n']) := by
  induction xs with
  | nil => exact ⟨fun _ => Or.inl rfl, trivial⟩
  | cons c cs ih =>
    have hhead : (cs ++ ['\n']).head? = (cs ++ '\n' :: ys).head? := by cases cs <;> rfl
    rw [List.cons_append, PlainBreaks, hhead]
    exact ⟨h.1, ih h.2⟩

theorem plainBreaks_of_feeds {cs : List Char} (h : ∀ c ∈ cs, isLineBreak c = true → c = '\n') :
    PlainBreaks cs := by
  induction cs with
  | nil => trivial
  | cons c cs ih =>
    obtain ⟨hc, hcs⟩ := List.forall_mem_cons.mp h
    exact ⟨fun hb => Or.inl (hc hb), ih hcs⟩

/-- What is looked up for a line: all of it, or all but a carriage return at its end. -/
def Quotes (text line : List Char) : Prop := line = text ∨ line = text ++ ['\r']

theorem Quotes.cons {text line : List Char} (h : Quotes text line) (c : Char) :
    Quotes (c :: text) (c :: line) := h.imp (congrArg (List.cons c)) (congrArg (List.cons c))

theorem linesFrom_feed {line : List Char} (hline : '\n' ∉ line) (hplain : PlainBreaks (line ++ ['\n'])) :
    ∃ text, Quotes text line ∧ ∀ current behind, linesFrom current (line ++ '\n' :: behind) =
      String.ofList (current.reverse ++ text) :: linesFrom [] behind := by
  induction line with
  | nil => exact ⟨[], Or.inl rfl, fun current behind => by rw [List.append_nil]; rfl⟩
  | cons c cs ih =>
    obtain ⟨hc, hcs⟩ := List.ne_and_not_mem_of_not_mem_cons hline
    obtain ⟨hbreak, hrest⟩ := hplain
    cases hb : isLineBreak c with
    | false =>
      obtain ⟨text, htext, hlines⟩ := ih hcs hrest
      refine ⟨c :: text, htext.cons c, fun current behind => ?_⟩
      have hreturn : (c == '\r') = false := beq_false_of_ne fun heq => by
        rw [heq] at hb
        exact absurd hb (by decide)
      rw [List.cons_append, linesFrom, hreturn, Bool.false_and, hb, if_neg Bool.false_ne_true,
        if_neg Bool.false_ne_true, hlines, List.reverse_cons, List.append_assoc]
      rfl
    | true =>
      obtain ⟨rfl, hhead⟩ := (hbreak hb).resolve_left hc.symm
      obtain rfl : cs = [] := by
        cases cs with
        | nil => rfl
        | cons d ds => exact absurd (Option.some.inj hhead) (List.ne_of_not_mem_cons hcs).symm
      exact ⟨[], Or.inr rfl, fun current behind => by rw [List.append_nil]; rfl⟩

theorem no_break_of_plainBreaks {line : List Char} (hline : '\n' ∉ line) (hplain : PlainBreaks line) :
    ∀ c ∈ line, isLineBreak c = false := by
  induction line with
  | nil => exact fun _ h => absurd h List.not_mem_nil
  | cons c cs ih =>
    obtain ⟨hc, hcs⟩ := List.ne_and_not_mem_of_not_mem_cons hline
    refine List.forall_mem_cons.mpr ⟨?_, ih hcs hplain.2⟩
    rw [← Bool.not_eq_true]
    intro hb
    obtain ⟨-, hhead⟩ := (hplain.1 hb).resolve_left hc.symm
    exact hcs (List.mem_of_mem_head? hhead)

/-! ### Lookup -/

theorem exists_behind_feed {source : List Char} {offset : Nat} (h : '\n' ∈ source.take offset) :
    ∃ line behind rest, source = line ++ '\n' :: behind ∧ '\n' ∉ line ∧
      offset = line.length + 1 + rest := by
  obtain ⟨line, behind, rfl, hline⟩ := List.eq_append_cons_of_mem (List.mem_of_mem_take h)
  have hbeyond : line.length + 1 ≤ offset := by
    by_contra hshort
    rw [List.take_append_of_le_length (by omega)] at h
    exact hline (List.mem_of_mem_take h)
  obtain ⟨rest, rfl⟩ := Nat.exists_eq_add_of_le hbeyond
  exact ⟨line, behind, rest, rfl, hline, rfl⟩

theorem quotes_first_line {line behind : List Char} {offset : Nat} {text : String}
    (hline : '\n' ∉ line) (hwithin : offset ≤ line.length)
    (hplain : PlainBreaks
      ((line ++ '\n' :: behind).take (lineEnd (line ++ '\n' :: behind) offset + 1)))
    (h : (linesFrom [] (line ++ '\n' :: behind))[0]? = some text) :
    Quotes text.toList (lineAt (line ++ '\n' :: behind) offset) := by
  have hbehind : ('\n' :: behind).takeWhile (· != '\n') = [] := rfl
  have htake : (line ++ '\n' :: behind).take (line.length + 1) = line ++ ['\n'] :=
    take_behind_feed _ _ 0
  rw [lineEnd_first hline hwithin hbehind, htake] at hplain
  obtain ⟨quoted, hquoted, hlines⟩ := linesFrom_feed hline hplain
  rw [hlines] at h
  obtain rfl := Option.some.inj h
  rwa [lineAt_first hline hwithin hbehind, String.toList_ofList]

theorem quotes_only_line {source : List Char} {offset : Nat} {text : String} (hfeed : '\n' ∉ source)
    (ho : offset ≤ source.length) (hplain : PlainBreaks (source.take (lineEnd source offset + 1)))
    (h : (linesFrom [] source)[0]? = some text) : Quotes text.toList (lineAt source offset) := by
  have hwhole : lineAt source offset = source := by
    have hline := @lineAt_first source [] hfeed offset ho rfl
    rwa [List.append_nil] at hline
  have hend : lineEnd source offset = source.length := by
    have hline := @lineEnd_first source [] hfeed offset ho rfl
    rwa [List.append_nil] at hline
  rw [hend, List.take_of_length_le (Nat.le_succ _)] at hplain
  by_cases hne : source = []
  · rw [hne] at h
    cases h
  · rw [linesFrom_of_no_break [] source (no_break_of_plainBreaks hfeed hplain) (Or.inr hne)] at h
    obtain rfl := Option.some.inj h
    rw [hwhole, String.toList_ofList]
    exact Or.inl rfl

/-- One line feed after the other is passed on both sides, up to the line of the place. -/
theorem quotes_of_getElem?_linesFrom {n offset : Nat} {source : List Char} {text : String}
    (ho : offset ≤ source.length) (hn : (source.take offset).count '\n' = n)
    (hplain : PlainBreaks (source.take (lineEnd source offset + 1)))
    (h : (linesFrom [] source)[n]? = some text) : Quotes text.toList (lineAt source offset) := by
  -- On the line feeds in front of the offset; each takes the first line off the source.
  induction n generalizing source offset with
  | zero =>
    by_cases hfeed : '\n' ∈ source
    · obtain ⟨line, behind, rfl, hline⟩ := List.eq_append_cons_of_mem hfeed
      have hwithin : offset ≤ line.length := by
        by_contra hlong
        obtain ⟨rest, rfl⟩ := Nat.exists_eq_add_of_lt (Nat.lt_of_not_le hlong)
        refine List.count_eq_zero.mp hn ?_
        rw [Nat.add_right_comm, take_behind_feed]
        exact List.mem_append_right line List.mem_cons_self
      exact quotes_first_line hline hwithin hplain h
    · exact quotes_only_line hfeed ho hplain h
  | succ n ih =>
    have hfeed : '\n' ∈ source.take offset := List.count_pos_iff.mp (by omega)
    obtain ⟨line, behind, rest, rfl, hline, rfl⟩ := exists_behind_feed hfeed
    have hinside : rest ≤ behind.length := by
      rw [List.length_append, List.length_cons] at ho
      omega
    have hcount : (behind.take rest).count '\n' = n := by
      rw [take_behind_feed, List.count_append, List.count_eq_zero.mpr hline, List.count_cons_self] at hn
      omega
    rw [lineEnd_behind_feed, Nat.add_assoc, take_behind_feed] at hplain
    obtain ⟨quoted, -, hlines⟩ := linesFrom_feed hline hplain.up_to_feed
    rw [hlines] at h
    rw [lineAt_behind_feed]
    exact ih hinside hcount hplain.of_append.2 h

theorem quotes_of_line? {source text : String} {p : Position} (hp : p.IsIn source.toList)
    (hplain : PlainBreaks (source.toList.take (lineEnd source.toList p.offset + 1)))
    (h : line? source p.line = some text) : Quotes text.toList (lineAt source.toList p.offset) := by
  rw [hp.line, Nat.add_comm] at h
  exact quotes_of_getElem?_linesFrom hp.inside rfl hplain h

theorem mem_of_mem_lineAt {source : List Char} {offset : Nat} {c : Char} (h : c ∈ lineAt source offset) :
    c ∈ source := by
  rcases List.mem_append.mp h with h | h
  · have hmem := List.takeWhile_sublist _ |>.subset (List.mem_reverse.mp h)
    exact List.mem_of_mem_take (List.mem_reverse.mp hmem)
  · exact List.mem_of_mem_drop (List.takeWhile_sublist _ |>.subset h)

/-- Where line feeds are the only line breaks, what is looked up is the line around the place itself. -/
theorem toList_of_line? {source text : String} {p : Position} (hp : p.IsIn source.toList)
    (hfeeds : ∀ c ∈ source.toList, isLineBreak c = true → c = '\n')
    (h : line? source p.line = some text) : text.toList = lineAt source.toList p.offset := by
  have hplain : PlainBreaks (source.toList.take (lineEnd source.toList p.offset + 1)) :=
    plainBreaks_of_feeds fun c hc => hfeeds c (List.mem_of_mem_take hc)
  refine ((quotes_of_line? hp hplain h).resolve_right fun hreturn => ?_).symm
  have hmem : '\r' ∈ lineAt source.toList p.offset := by
    rw [hreturn]
    exact List.mem_append_right _ List.mem_cons_self
  exact absurd (hfeeds '\r' (mem_of_mem_lineAt hmem) rfl) (by decide)

end Lox.Source

import Lox.Proofs.Quoting.Visible

/-!
# Carets

Below a quoted line there is a caret for each character of the place on the line on which it begins, and one
for the end of the source. The line is quoted behind its number, which is padded to three digits, and the
carets begin behind a margin of the width that this makes. So each caret is below its character, but for a
number with more than three digits: then it stands as many columns further left as there are more digits.
-/

namespace Lox

/-! ### Lines and places -/

namespace Source

/-- The offset at which the line around an offset begins. -/
def lineStart (source : List Char) (offset : Nat) : Nat :=
  offset - ((source.take offset).reverse.takeWhile (· != '\n')).length

variable {source : List Char} {offset : Nat} {p q : Position}

theorem lineStart_add_column (hp : p.IsIn source) :
    lineStart source p.offset + p.column = p.offset + 1 := by
  have hle := (List.takeWhile_sublist (· != '\n') (l := (source.take p.offset).reverse)).length_le
  rw [List.length_reverse, List.length_take_of_le hp.inside] at hle
  rw [lineStart, hp.column]
  omega

theorem length_lineAt (h : offset ≤ source.length) :
    lineStart source offset + (lineAt source offset).length = lineEnd source offset := by
  have hle := (List.takeWhile_sublist (· != '\n') (l := (source.take offset).reverse)).length_le
  rw [List.length_reverse, List.length_take_of_le h] at hle
  rw [lineStart, lineAt, lineEnd, List.length_append, List.length_reverse]
  omega

theorem lineAt_eq_slice (h : offset ≤ source.length) :
    lineAt source offset = Lexer.slice source (lineStart source offset) (lineEnd source offset) := by
  let front := (source.take offset).reverse.takeWhile (· != '\n')
  let earlier := (source.take offset).reverse.dropWhile (· != '\n')
  let back := (source.drop offset).takeWhile (· != '\n')
  let later := (source.drop offset).dropWhile (· != '\n')
  have htake : earlier.reverse ++ front.reverse = source.take offset := by
    rw [← List.reverse_append, List.takeWhile_append_dropWhile, List.reverse_reverse]
  have hdrop : back ++ later = source.drop offset := List.takeWhile_append_dropWhile
  have hsource : earlier.reverse ++ (lineAt source offset ++ later) = source := by
    calc earlier.reverse ++ (lineAt source offset ++ later)
        = (earlier.reverse ++ front.reverse) ++ (back ++ later) := by
          rw [lineAt, List.append_assoc, List.append_assoc]
      _ = source := by rw [htake, hdrop, List.take_append_drop]
  have hstart : earlier.reverse.length = lineStart source offset := by
    have hlength : earlier.reverse.length + front.reverse.length = offset := by
      rw [← List.length_append, htake, List.length_take_of_le h]
    have hfront : front.reverse.length = front.length := List.length_reverse
    exact Nat.eq_sub_of_add_eq (hfront ▸ hlength)
  have hend : (earlier.reverse ++ lineAt source offset).length = lineEnd source offset := by
    rw [List.length_append, hstart, length_lineAt h]
  have hslice := Lexer.slice_append earlier.reverse (lineAt source offset) later
  rw [hsource, hstart, hend] at hslice
  exact hslice.symm

theorem getElem?_lineAt (h : offset ≤ source.length) {o : Nat} (hfirst : lineStart source offset ≤ o)
    (hlast : o < lineEnd source offset) :
    (lineAt source offset)[o - lineStart source offset]? = source[o]? := by
  rw [lineAt_eq_slice h, Lexer.slice, List.getElem?_take_of_lt (Nat.sub_lt_sub_right hfirst hlast),
    List.getElem?_drop, Nat.add_sub_cancel' hfirst]

theorem exists_between (hq : q.IsIn source) (hle : p.offset ≤ q.offset) :
    ∃ between behind, source.drop p.offset = between ++ behind ∧
      source.take q.offset = source.take p.offset ++ between ∧
        between.length = q.offset - p.offset := by
  refine ⟨(source.drop p.offset).take (q.offset - p.offset),
    (source.drop p.offset).drop (q.offset - p.offset), (List.take_append_drop _ _).symm, ?_, ?_⟩
  · rw [← List.take_add, Nat.add_sub_cancel' hle]
  · rw [List.length_take, List.length_drop]
    have := hq.inside
    omega

section

variable (hp : p.IsIn source) (hq : q.IsIn source) (hle : p.offset ≤ q.offset)

include hp hq hle

theorem column_of_same_line (hline : p.line = q.line) :
    q.column = p.column + (q.offset - p.offset) ∧ q.offset ≤ lineEnd source p.offset := by
  obtain ⟨between, behind, hdrop, htake, hlength⟩ := exists_between hq hle
  have hfeed : '\n' ∉ between := by
    rw [hp.line, hq.line, htake, List.count_append] at hline
    exact List.count_eq_zero.mp (by omega)
  constructor
  · have hreverse : '\n' ∉ between.reverse := fun h => hfeed (List.mem_reverse.mp h)
    rw [hq.column, htake, List.reverse_append, List.takeWhile_append_of_pos (ne_feed_of_mem hreverse),
      List.length_append, List.length_reverse, hlength, hp.column]
    omega
  · rw [lineEnd, hdrop, List.takeWhile_append_of_pos (ne_feed_of_mem hfeed), List.length_append]
    omega

theorem lineEnd_lt_of_later_line (hline : p.line ≠ q.line) : lineEnd source p.offset < q.offset := by
  obtain ⟨between, behind, hdrop, htake, hlength⟩ := exists_between hq hle
  have hfeed : '\n' ∈ between := by
    by_contra hno
    rw [hp.line, hq.line, htake, List.count_append, List.count_eq_zero.mpr hno] at hline
    exact hline rfl
  obtain ⟨line, rest, rfl, hno⟩ := List.eq_append_cons_of_mem hfeed
  rw [lineEnd, hdrop, List.append_assoc, List.cons_append, takeWhile_feed_behind hno rfl]
  rw [List.length_append, List.length_cons] at hlength
  omega

end

end Source

/-- There are as many carets as there are characters of the place on the line on which it begins, and at
least one. -/
theorem Diagnostic.caretCount_eq {file source : String} {span : Span} (h : span.IsIn file source)
    (hle : span.first.offset ≤ span.last.offset) {line : String}
    (hline : line.toList = Source.lineAt source.toList span.first.offset) :
    caretCount span line =
      max 1 (min span.last.offset (Source.lineEnd source.toList span.first.offset) - span.first.offset) := by
  have hlength : Source.lineStart source.toList span.first.offset + line.length =
      Source.lineEnd source.toList span.first.offset := by
    rw [← String.length_toList, hline, Source.length_lineAt h.first.inside]
  have hcolumn := Source.lineStart_add_column h.first
  unfold caretCount
  dsimp only
  split
  · rename_i hsame
    obtain ⟨hlast, hwithin⟩ := Source.column_of_same_line h.first h.last hle hsame
    omega
  · rename_i hother
    have hbeyond := Source.lineEnd_lt_of_later_line h.first h.last hle hother
    omega

/-! ### Rows -/

namespace Diagnostic

theorem getElem?_carets {margin : List Char} (h : '^' ∉ margin) (n column : Nat) :
    (margin ++ List.replicate n '^')[column]? = some '^' ↔
      margin.length ≤ column ∧ column < margin.length + n := by
  by_cases hin : column < margin.length
  · rw [List.getElem?_append_left hin]
    refine iff_of_false (fun hcaret => h (List.mem_of_getElem? hcaret)) (by omega)
  · rw [List.getElem?_append_right (Nat.le_of_not_lt hin), List.getElem?_replicate]
    split <;> simp <;> omega

theorem length_lineNumberText (n : Nat) :
    (lineNumberText n).length = 3 + ((toString n).length - 3) := by
  rw [← String.length_toList, lineNumberText]
  simp only [String.toList_append, String.toList_ofList, List.length_append, List.length_replicate,
    String.length_toList]
  omega

/-- How many columns the quoted line stands further right than the carets are made for: as many as its
number has digits more than three. -/
def overhang (n : Nat) : Nat := (toString n).length - 3

theorem overhang_eq_zero_iff (n : Nat) : overhang n = 0 ↔ n < 1000 := by
  rw [overhang, Nat.sub_eq_zero_iff_le]
  exact Nat.length_repr_le_iff (by decide)

/-- The column of a row at which the character at an offset is quoted, on the line on which a place
begins. -/
def quotedColumn (source : String) (span : Span) (offset : Nat) : Nat :=
  6 + overhang span.first.line + (offset - Source.lineStart source.toList span.first.offset)

end Diagnostic

/-- What is to be marked of a place: its characters on the line on which it begins, or the end of the
source. -/
def Span.Marks (source : String) (s : Span) (offset : Nat) : Prop :=
  s.first.offset ≤ offset ∧
    (offset < min s.last.offset (Source.lineEnd source.toList s.first.offset) ∨
      s.last = s.first ∧ offset = source.toList.length)

namespace Diagnostic

variable {file source : String} {span : Span} {line : String}

theorem quotedColumn_of_line (hline : line.toList = Source.lineAt source.toList span.first.offset)
    (hin : span.first.offset ≤ source.toList.length) {offset : Nat}
    (hfirst : Source.lineStart source.toList span.first.offset ≤ offset)
    (hlast : offset < Source.lineEnd source.toList span.first.offset) :
    (lineNumberText span.first.line ++ " | " ++ line).toList[quotedColumn source span offset]? =
      source.toList[offset]? := by
  have hmargin : (lineNumberText span.first.line ++ " | ").toList.length =
      6 + overhang span.first.line := by
    rw [String.length_toList, String.length_append, length_lineNumberText, overhang]
    exact Nat.add_right_comm 3 _ 3
  rw [String.toList_append, quotedColumn, ← hmargin, List.getElem?_append_right (Nat.le_add_right ..),
    Nat.add_sub_cancel_left, hline, Source.getElem?_lineAt hin hfirst hlast]

theorem carets_of_visible (h : span.Visible file source)
    (hline : line.toList = Source.lineAt source.toList span.first.offset) (column : Nat) :
    ("    | " ++ String.ofList (List.replicate (span.first.column - 1) ' ' ++
        List.replicate (caretCount span line) '^')).toList[column]? = some '^' ↔
      ∃ offset, span.Marks source offset ∧
        column + overhang span.first.line = quotedColumn source span offset := by
  have hcolumn := Source.lineStart_add_column h.isIn.first
  have hcolumn' := h.isIn.first.column
  have hmargin : '^' ∉ "    | ".toList ++ List.replicate (span.first.column - 1) ' ' := by
    simp [List.mem_replicate]
  have hrow : ("    | " ++ String.ofList (List.replicate (span.first.column - 1) ' ' ++
      List.replicate (caretCount span line) '^')).toList = ("    | ".toList ++
        List.replicate (span.first.column - 1) ' ') ++ List.replicate (caretCount span line) '^' := by
    simp only [String.toList_append, String.toList_ofList, List.append_assoc]
  have hlength : ("    | ".toList ++ List.replicate (span.first.column - 1) ' ').length =
      6 + (span.first.column - 1) := by
    rw [List.length_append, List.length_replicate]
    rfl
  rw [hrow, getElem?_carets hmargin, hlength, caretCount_eq h.isIn h.le hline]
  unfold Span.Marks quotedColumn
  have hmarked := h.marked
  constructor
  · rintro ⟨hlow, hhigh⟩
    refine ⟨column + span.first.offset - (6 + (span.first.column - 1)), ?_, by omega⟩
    rcases hmarked with hproper | ⟨hempty, hend⟩
    · exact ⟨by omega, Or.inl (by omega)⟩
    · rw [hempty] at hhigh
      exact ⟨by omega, Or.inr ⟨hempty, by omega⟩⟩
  · rintro ⟨offset, ⟨hlow, hinside | ⟨hempty, hend⟩⟩, heq⟩
    · omega
    · rw [hempty] at hmarked ⊢
      omega

end Diagnostic

/-! ### Sources -/

/-- A diagnostic with a line is rendered as a header, the excerpt of its place, and what is behind it. -/
theorem Diagnostic.render_of_quoted {d : Diagnostic} {line : String} (h : d.sourceLine = some line) :
    ∃ header rest, d.render = "\n".intercalate (header :: (excerpt d.span line ++ rest)) := by
  simp only [render, h, List.append_assoc]
  exact ⟨_, _, rfl⟩

namespace Session

variable {s : Session} {file source : String} {report : Report}
  {config : Config} {natives : Registry} {clock : Nat → Float} {machine : Machine}

/-- Where line feeds are the only line breaks, what is reported with a line has carets for the characters of
its place on this line, or one for the end of the source. Each is in the column of its character if the
number of the line has at most three digits, and otherwise as many columns further left as it has more. -/
theorem carets_of_source (hn : natives.ReturnsGiven) (hs : create config natives clock machine = .ok s)
    (hfeeds : ∀ c ∈ source.toList, Source.isLineBreak c = true → c = '\n')
    (h : (s.runSource file source).result = .ok report) {d : Diagnostic} (hd : d ∈ report.diagnostics)
    {line : String} (hline : d.sourceLine = some line) :
    (d.span.first.offset < min d.span.last.offset (Source.lineEnd source.toList d.span.first.offset) ∨
        d.span.last = d.span.first ∧ d.span.first.offset = source.toList.length) ∧
      (Diagnostic.overhang d.span.first.line = 0 ↔ d.span.first.line < 1000) ∧
      ∃ header quoted carets rest,
        d.render = "\n".intercalate (header :: "  |" :: quoted :: carets :: rest) ∧
        Diagnostic.excerpt d.span line = ["  |", quoted, carets] ∧
        (∀ offset, Source.lineStart source.toList d.span.first.offset ≤ offset →
          offset < Source.lineEnd source.toList d.span.first.offset →
          quoted.toList[Diagnostic.quotedColumn source d.span offset]? = source.toList[offset]?) ∧
        ∀ column, carets.toList[column]? = some '^' ↔ ∃ offset, d.span.Marks source offset ∧
          column + Diagnostic.overhang d.span.first.line =
            Diagnostic.quotedColumn source d.span offset := by
  have hvisible := visible_of_runSource hn hs h d hd
  have hquoted := (reported_of_runSource h).quotesByNumber d hd line hline
  have hat := Source.toList_of_line? hvisible.isIn.first hfeeds hquoted
  obtain ⟨header, rest, hrender⟩ := Diagnostic.render_of_quoted hline
  refine ⟨hvisible.marked, Diagnostic.overhang_eq_zero_iff _, header, _, _, rest, hrender, rfl, ?_, ?_⟩
  · exact fun offset => Diagnostic.quotedColumn_of_line hat hvisible.isIn.first.inside
  · exact Diagnostic.carets_of_visible hvisible hat

/-- The place goes on to the second line, and the carets go up to the end of the first. -/
theorem carets_of_source_broken :
    let source := "print nil\n - 1;"
    ∃ report d, (bare.runSource "" source).result = .ok report ∧ d ∈ report.diagnostics ∧
      d.sourceLine = some "print nil" ∧ d.span = ⟨"", ⟨1, 7, 6⟩, ⟨2, 5, 14⟩⟩ ∧
      ∃ header quoted carets rest,
        d.render = "\n".intercalate (header :: "  |" :: quoted :: carets :: rest) ∧
        ∀ column, carets.toList[column]? = some '^' ↔ ∃ offset, d.span.Marks source offset ∧
          column + Diagnostic.overhang 1 = Diagnostic.quotedColumn source d.span offset := by
  intro source
  let span : Span := ⟨"", ⟨1, 7, 6⟩, ⟨2, 5, 14⟩⟩
  have hrun : (bare.runSource "" source).quotes "print nil" span = true := by decide +kernel
  obtain ⟨report, d, hok, hd, hquoted, hplace⟩ := Outcome.exists_of_quotes hrun
  have hcreate : create bare.config .standard bare.clock .standard = .ok bare := rfl
  have hplain : (source.toList.all fun c => !Source.isLineBreak c || c == '\n') = true := by decide
  have hfeeds : ∀ c ∈ source.toList, Source.isLineBreak c = true → c = '\n' := by
    intro c hc hbreak
    have heither := List.all_eq_true.mp hplain c hc
    rw [hbreak] at heither
    exact eq_of_beq heither
  obtain ⟨-, -, header, quoted, carets, rest, hrender, -, -, hmarks⟩ :=
    carets_of_source Registry.returnsGiven_standard hcreate hfeeds hok hd hquoted
  refine ⟨report, d, hok, hd, hquoted, hplace, header, quoted, carets, rest, hrender, ?_⟩
  rw [hplace] at hmarks ⊢
  exact hmarks

-- The first character of the thousandth line stands in the eighth column, its caret in the seventh.
example : Diagnostic.excerpt ⟨"", ⟨1000, 1, 999⟩, ⟨1000, 2, 1000⟩⟩ "@" =
    ["  |", "1000 | @", "    | ^"] := by decide

end Session

end Lox

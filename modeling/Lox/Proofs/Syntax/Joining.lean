import Lox.Proofs.Syntax.Tiling
import Mathlib.Data.List.Forall2

/-!
# Texts on top of each other

Texts that stand on top of each other are read one by one: the tokens of each, and a fault, are those that
it has alone, further down. The tokens of all of them form one program, which has the statements of all of
them, one text after the other.
-/

namespace Lox

open Grammar

/-! ### Tokens -/

namespace Lexer

theorem tokenize_of_fault {file source : String} {error : LexError} {span : Span}
    (h : (scan file source).fault = some (error, span)) :
    tokenize file source = .error (error.diagnostic span source) := by
  unfold tokenize
  simp only [h]

/-- The places of a text that stands below another one. -/
def below (file s : String) : Span → Span := Span.moved file (1 + s.toList.count '\n') (s.length + 1)

theorem scan_below (file s t : String) :
    scan file (s ++ "\n" ++ t) = (scan file s).followedBy ((scan file t).relocate (below file s)) := by
  rw [scan_lines file file, Position.after_origin, String.length_toList, below]

/-- Two texts on top of each other are read one after the other. A fault in the first is the fault of the
whole. Behind a first text without one, a fault in the second is the fault of the whole, further down, and
else there are the tokens of the first without the end, and then those of the second, further down. Only the
line that a fault quotes is looked up in the whole. -/
theorem tokenize_lines (file s t : String) :
    match tokenize file s, tokenize file t with
    | .error d, _ =>
      tokenize file (s ++ "\n" ++ t) =
        .error { d with sourceLine := Source.line? (s ++ "\n" ++ t) d.span.first.line }
    | .ok _, .error d =>
      tokenize file (s ++ "\n" ++ t) = .error
        { d with
          span := below file s d.span
          sourceLine := Source.line? (s ++ "\n" ++ t) (below file s d.span).first.line }
    | .ok front, .ok back =>
      ∃ body last, front = body ++ [last] ∧ last.isEnd = true ∧
        tokenize file (s ++ "\n" ++ t) = .ok (body ++ back.map (Token.relocate (below file s))) := by
  have hscan := scan_below file s t
  -- A fault in the first text hides the second one; without it both decide.
  cases hs : (scan file s).fault with
  | some fault =>
    obtain ⟨error, span⟩ := fault
    have hwhole : (scan file (s ++ "\n" ++ t)).fault = some (error, span) := by
      rw [hscan, Scan.followedBy, hs]
      exact hs
    rw [tokenize_of_fault hs, tokenize_of_fault hwhole]
    rfl
  | none =>
    rw [Scan.followedBy, hs] at hscan
    cases ht : (scan file t).fault with
    | some fault =>
      obtain ⟨error, span⟩ := fault
      have hwhole : (scan file (s ++ "\n" ++ t)).fault = some (error, below file s span) := by
        rw [hscan]
        exact congrArg (Option.map fun f => (f.1, below file s f.2)) ht
      rw [tokenize_of_no_fault hs, tokenize_of_fault ht, tokenize_of_fault hwhole]
      rfl
    | none =>
      have hwhole : (scan file (s ++ "\n" ++ t)).fault = none := by
        rw [hscan]
        exact congrArg (Option.map fun f => (f.1, below file s f.2)) ht
      obtain ⟨body, last, hbody, hlast, -⟩ := ended_scanFrom file .origin s.toList hs
      have hfront : (scan file s).tokens = body ++ [last] := hbody
      rw [tokenize_of_no_fault hs, tokenize_of_no_fault ht, tokenize_of_no_fault hwhole, hscan, hfront,
        List.dropLast_concat]
      exact ⟨body, last, rfl, hlast, rfl⟩

-- The slashes of two lines do not make a comment, and a string does not go on behind its line.
example : (scan "" "a /\n/ \"b\nc\"").tokens.map Token.lexeme = ["a", "/", "/"] ∧
    (scan "" "a /\n/ \"b\nc\"").fault = some (.unterminatedString, ⟨"", ⟨2, 3, 6⟩, ⟨2, 5, 8⟩⟩) := by
  decide +kernel

end Lexer

/-! ### Programs -/

theorem Grammar.IsProgram.append {ts us : List Token} {p q : Program Unit} (hp : IsProgram ts p)
    (hq : IsProgram us q) :
    ∃ r, IsProgram (ts.dropLast ++ us) r ∧ r.statements = p.statements ++ q.statements := by
  obtain ⟨hi, -⟩ := hp
  rename_i items last
  obtain ⟨hj, hlast⟩ := hq
  rename_i more last'
  have hboth : ∀ i ∈ items ++ more, IsStmt .item i.1 i.2 := List.forall_mem_append.mpr ⟨hi, hj⟩
  have h := IsProgram.intro hboth hlast
  rw [List.map_append, List.flatten_append, List.append_assoc] at h
  rw [List.dropLast_concat]
  exact ⟨_, h, by simp⟩

/-- The text is read without a fault, and its tokens form the program. -/
structure Spells (file source : String) (p : Program Unit) : Prop where
  read : (Lexer.scan file source).fault = none
  formed : IsProgram (Lexer.scan file source).tokens p

namespace Spells

variable {limit : Nat} {file file' s t : String} {p q : Program Unit}

theorem of_parse {tokens : List Token} (ht : Lexer.tokenize file s = .ok tokens)
    (hp : Parser.parse limit tokens = .ok p) : Spells file s p := by
  have hended := Lexer.ended_tokenize ht
  unfold Lexer.tokenize at ht
  dsimp only at ht
  split at ht
  · rename_i hfault
    obtain rfl := Except.ok.inj ht
    exact ⟨hfault, Parser.isProgram_of_parse hended hp⟩
  · cases ht

theorem empty (file : String) : ∃ p, Spells file "" p ∧ p.statements = [] := by
  have hscan : Lexer.scan file "" = ⟨[⟨.endOfInput, "", ⟨file, .origin, .origin⟩⟩], none⟩ :=
    Lexer.scanFrom_eq file .origin []
  have hformed : IsProgram (Lexer.scan file "").tokens ⟨⟨file, .origin, .origin⟩, []⟩ := by
    rw [hscan]
    exact @IsProgram.intro [] ⟨.endOfInput, "", ⟨file, .origin, .origin⟩⟩ nofun rfl
  exact ⟨_, ⟨by rw [hscan], hformed⟩, rfl⟩

theorem inFile (h : Spells file s p) (file' : String) : Spells file' s (p.mapSpan (Span.moved file' 0 0)) := by
  have hscan : Lexer.scan file' s = (Lexer.scan file s).relocate (Span.moved file' 0 0) :=
    Lexer.scanFrom_moved file file' 0 0 .origin s.toList
  constructor
  · rw [hscan, Lexer.Scan.relocate, h.read]
    rfl
  · rw [hscan]
    exact h.formed.relocate (Span.joins_moved file' 0 0)

theorem lines (h : Spells file s p) (h' : Spells file' t q) :
    ∃ r, Spells file (s ++ "\n" ++ t) r ∧
      r.unplaced.statements = p.unplaced.statements ++ q.unplaced.statements := by
  let below : Span → Span :=
    Span.moved file (Position.origin.after s.toList).line (s.toList.length + 1)
  have hq : IsProgram ((Lexer.scan file' t).tokens.map (Token.relocate below)) (q.mapSpan below) :=
    h'.formed.relocate (Span.joins_moved file _ _)
  obtain ⟨r, hr, hstatements⟩ := h.formed.append hq
  have hscan : Lexer.scan file (s ++ "\n" ++ t) =
      ⟨(Lexer.scan file s).tokens.dropLast ++ (Lexer.scan file' t).tokens.map (Token.relocate below),
        none⟩ := by
    rw [Lexer.scan_lines file file', Lexer.Scan.followedBy, h.read, Lexer.Scan.relocate, h'.read]
    rfl
  refine ⟨r, ⟨?_, ?_⟩, ?_⟩
  · rw [hscan]
  · rw [hscan]
    exact hr
  · have hmoved := congrArg Program.statements (Program.unplaced_mapSpan below q)
    rw [← hmoved]
    show Stmt.mapSpanAll _ r.statements = _
    rw [hstatements, Stmt.mapSpanAll_append]
    rfl

/-- Texts on top of each other spell the statements of all of them. -/
theorem joined {sources : List (String × String)} {ps : List (Program Unit)}
    (h : List.Forall₂ (fun source p => Spells source.1 source.2 p) sources ps) (file : String) :
    ∃ r, Spells file ("\n".intercalate (sources.map Prod.snd)) r ∧
      r.unplaced.statements = ps.flatMap fun p => p.unplaced.statements := by
  induction h with
  | nil =>
    obtain ⟨p, hp, hnone⟩ := empty file
    exact ⟨p, hp, congrArg (Stmt.mapSpanAll _) hnone⟩
  | @cons source p sources ps hp hrest ih =>
    cases hrest with
    | nil =>
      refine ⟨_, hp.inFile file, ?_⟩
      rw [Program.unplaced_mapSpan]
      simp
    | cons hp' hrest' =>
      obtain ⟨q, hq, hstatements⟩ := ih
      obtain ⟨r, hr, hr'⟩ := (hp.inFile file).lines hq
      rw [Program.unplaced_mapSpan, hstatements] at hr'
      exact ⟨r, by simpa using hr, hr'⟩

end Spells

end Lox

import Lox.Proofs.Execution.Sessions
import Lox.Proofs.Scope.FindingPlaces
import Lox.Proofs.Syntax.Regions
import Lox.Proofs.Syntax.TokenOrder

/-!
# Places in a source

Whatever is found in a source without running it has a place in that source: faults of reading and parsing,
the nodes of the tree, and what is wrong with names.
-/

namespace Lox

/-! ### Places -/

/-- A stretch of a source: both ends have the line and the column of their offsets. -/
structure Span.IsIn (s : Span) (file source : String) : Prop where
  file : s.file = file
  first : s.first.IsIn source.toList
  last : s.last.IsIn source.toList

/-- A place that is read from a source: from the beginning of one of its tokens to the end of one, or the
place of the fault at which reading stops. -/
inductive Span.ReadFrom (file source : String) : Span → Prop where
  | tokens {t u : Token} : t ∈ (Lexer.scan file source).tokens → u ∈ (Lexer.scan file source).tokens →
    ReadFrom file source (t.span.join u.span)
  | fault {error : LexError} {span : Span} : (Lexer.scan file source).fault = some (error, span) →
    ReadFrom file source span

/-- The places from one token of a list to another. -/
def Region.ofTokens (tokens : List Token) : Region where
  contains s := ∃ t ∈ tokens, ∃ u ∈ tokens, s = t.span.join u.span
  join := by
    rintro _ _ ⟨t, ht, _, _, rfl⟩ ⟨_, _, u, hu, rfl⟩
    exact ⟨t, ht, u, hu, rfl⟩

theorem Region.contains_ofTokens {tokens : List Token} :
    ∀ t ∈ tokens, (ofTokens tokens).contains t.span := fun t ht => ⟨t, ht, t, ht, rfl⟩

variable {file source : String}

/-! ### Reading -/

namespace Lexer

theorem isIn_of_tiles {first last : Nat} {ts : List Token} (h : Tiles file source.toList first ts last) :
    ∀ t ∈ ts, t.span.IsIn file source := by
  induction h with
  | nil => exact fun _ h => absurd h List.not_mem_nil
  | cons _ ht _ ih => exact List.forall_mem_cons.mpr ⟨⟨ht.file, ht.first, ht.last⟩, ih⟩

theorem isIn_of_mem_scan : ∀ t ∈ (scan file source).tokens, t.span.IsIn file source := by
  have htiles := scan_tiles file source
  unfold Scan.Tiles at htiles
  split at htiles
  · obtain ⟨body, reached, t, htokens, hbody, hend⟩ := htiles
    rw [htokens]
    refine List.forall_mem_append.mpr ⟨isIn_of_tiles hbody, List.forall_mem_singleton.mpr ?_⟩
    rw [hend.span]
    exact ⟨rfl, hend.place, hend.place⟩
  · obtain ⟨reached, htokens, -⟩ := htiles
    exact isIn_of_tiles htokens

theorem isIn_of_fault {error : LexError} {span : Span} (h : (scan file source).fault = some (error, span)) :
    span.IsIn file source := by
  have htiles := scan_tiles file source
  unfold Scan.Tiles at htiles
  rw [h] at htiles
  obtain ⟨reached, -, hfails⟩ := htiles
  exact ⟨hfails.file, hfails.first, hfails.last⟩

end Lexer

theorem Span.ReadFrom.isIn {s : Span} (h : s.ReadFrom file source) : s.IsIn file source := by
  cases h with
  | tokens ht hu =>
    have hfirst := Lexer.isIn_of_mem_scan _ ht
    exact ⟨hfirst.file, hfirst.first, (Lexer.isIn_of_mem_scan _ hu).last⟩
  | fault h => exact Lexer.isIn_of_fault h

theorem Lexer.readFrom_of_error {d : Diagnostic} (h : tokenize file source = .error d) :
    d.span.ReadFrom file source := by
  unfold tokenize at h
  dsimp only at h
  split at h
  · cases h
  · rename_i hfault
    obtain rfl := Except.error.inj h
    exact .fault hfault

/-! ### Parsing and resolving -/

section

variable {limit : Nat} {tokens : List Token} (ht : Lexer.tokenize file source = .ok tokens)

include ht

theorem Lexer.readFrom_of_contains {s : Span} (h : (Region.ofTokens tokens).contains s) :
    s.ReadFrom file source := by
  obtain ⟨t, hmem, u, hmem', rfl⟩ := h
  rw [tokens_of_tokenize ht] at hmem hmem'
  exact .tokens hmem hmem'

theorem Parser.readFrom_of_parse {p : Program Unit} (hp : parse limit tokens = .ok p) :
    ∀ s ∈ p.places, s.ReadFrom file source := by
  obtain ⟨-, rfl⟩ := parse_eq_ok_iff_faults.mp hp
  exact fun s hs => Lexer.readFrom_of_contains ht
    ((Region.covers_parseProgram Region.contains_ofTokens).1 s hs)

theorem Parser.readFrom_of_faults {faults : List SyntaxFault} (hp : parse limit tokens = .error faults) :
    ∀ f ∈ faults, f.span.ReadFrom file source := by
  unfold parse at hp
  dsimp only at hp
  split at hp
  · cases hp
  · obtain rfl := Except.error.inj hp
    exact fun f hf => Lexer.readFrom_of_contains ht
      ((Region.covers_parseProgram Region.contains_ofTokens).2 f hf)

/-- What is wrong with the names of a program, or may be, is at one of its tokens or nodes. -/
theorem Resolution.readFrom_of_mem_diagnostics {p : Program Unit} (hp : Parser.parse limit tokens = .ok p)
    {config : Config} {natives : List String} {d : Diagnostic}
    (hd : d ∈ (ofProgram config natives p).diagnostics config) : d.span.ReadFrom file source := by
  obtain ⟨-, rfl⟩ := Parser.parse_eq_ok_iff_faults.mp hp
  exact Lexer.readFrom_of_contains ht
    (forall_of_mem_diagnostics (Region.covers_parseProgram Region.contains_ofTokens).1 hd)

end

theorem Config.Accepts.readFrom {config : Config} {limit : Nat} {p : Program Unit}
    (h : config.Accepts limit file source p) : ∀ s ∈ p.places, s.ReadFrom file source := by
  obtain ⟨tokens, ht, hp, -⟩ := accepts_iff.mp h
  exact Parser.readFrom_of_parse ht hp

end Lox

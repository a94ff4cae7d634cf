import Lox.Proofs.Quoting.Sessions
import Lox.Proofs.Syntax.FaultOrder
import Lox.Proofs.Syntax.NodeTexts

/-!
# Places that can be seen

A place that is reported for a source begins with a character that is no layout, or it is the end of the
source: then it is empty. Faults of reading have the characters they cover, those of a parse the place of the
token at which they are noted, and all else is found at nodes of the tree, on tokens that stand side by side.
-/

namespace Lox

/-- A place that can be pointed at: it begins with a character that is no layout, or it is the end of the
source. -/
structure Span.Visible (file source : String) (s : Span) : Prop where
  isIn : s.IsIn file source
  shown : (s.first.offset < s.last.offset ∧ ¬ Lexer.BeginsLayout (source.toList.drop s.first.offset)) ∨
    s.last = s.first ∧ s.first.offset = source.toList.length

variable {file source : String}

theorem Span.Visible.marked {s : Span} (h : s.Visible file source) :
    s.first.offset < min s.last.offset (Source.lineEnd source.toList s.first.offset) ∨
      s.last = s.first ∧ s.first.offset = source.toList.length := by
  refine h.shown.imp_left fun ⟨hproper, hlayout⟩ => lt_min hproper ?_
  have hinside : s.first.offset < source.toList.length := Nat.lt_of_lt_of_le hproper h.isIn.last.inside
  rw [List.drop_eq_getElem_cons hinside] at hlayout
  have hfeed : (source.toList[s.first.offset] != '\n') = true := bne_iff_ne.mpr fun heq =>
    hlayout (Or.inl ⟨_, _, rfl, by rw [heq]; rfl⟩)
  rw [Source.lineEnd, List.drop_eq_getElem_cons hinside, List.takeWhile_cons, if_pos hfeed,
    List.length_cons]
  omega

theorem Span.Visible.le {s : Span} (h : s.Visible file source) : s.first.offset ≤ s.last.offset := by
  rcases h.shown with ⟨hproper, -⟩ | ⟨heq, -⟩
  · exact Nat.le_of_lt hproper
  · exact Nat.le_of_eq (by rw [heq])

/-! ### Reading -/

namespace Lexer

theorem Tiles.visible {first last : Nat} {ts : List Token}
    (h : Tiles file source.toList first ts last) : ∀ t ∈ ts, t.span.Visible file source := by
  induction h with
  | nil => exact nofun
  | cons hgap hread _ ih =>
    exact List.forall_mem_cons.mpr
      ⟨⟨⟨hread.file, hread.first, hread.last⟩, Or.inl ⟨hread.ordered, hgap.ends⟩⟩, ih⟩

theorem EndsAt.visible {reached : Nat} {t : Token} (h : EndsAt file source.toList reached t) :
    t.span.Visible file source := by
  rw [h.span]
  exact ⟨⟨rfl, h.place, h.place⟩, Or.inr ⟨rfl, h.offset⟩⟩

theorem visible_of_tokenize {tokens : List Token} (h : tokenize file source = .ok tokens) :
    ∀ t ∈ tokens, t.span.Visible file source := by
  obtain ⟨body, reached, t, rfl, hbody, hend⟩ := tiles_of_tokenize h
  exact List.forall_mem_append.mpr ⟨hbody.visible, List.forall_mem_singleton.mpr hend.visible⟩

theorem fault_ne_nil {c : Char} {cs text : List Char} {error : LexError}
    (h : lexeme c cs = .fault error text) : text ≠ [] := by
  unfold lexeme at h
  dsimp only at h
  repeat' split at h
  all_goals
    cases h
    try exact List.cons_ne_nil _ _

theorem scanFrom_fault_proper {p : Position} {cs : List Char} {error : LexError} {span : Span}
    (h : (scanFrom file p cs).fault = some (error, span)) : span.first.offset < span.last.offset := by
  fun_induction scanFrom file p cs with
  | case1 => cases h
  | case2 p cs q d ds hs kind text hl r tail ih => exact ih h
  | case3 p cs q d ds hs error' text hl =>
    obtain ⟨-, rfl⟩ := Prod.mk.inj (Option.some.inj h)
    have hpos := List.length_pos_iff.mpr (fault_ne_nil hl)
    dsimp only
    rw [Position.offset_after]
    omega

theorem visible_of_fault {error : LexError} {span : Span}
    (h : (scan file source).fault = some (error, span)) : span.Visible file source := by
  have htiles := scan_tiles file source
  unfold Scan.Tiles at htiles
  rw [h] at htiles
  obtain ⟨reached, -, hfails⟩ := htiles
  exact ⟨⟨hfails.file, hfails.first, hfails.last⟩, Or.inl ⟨scanFrom_fault_proper h, hfails.gap.ends⟩⟩

theorem visible_of_error {d : Diagnostic} (h : tokenize file source = .error d) :
    d.span.Visible file source := by
  unfold tokenize at h
  dsimp only at h
  split at h
  · cases h
  · rename_i hfault
    obtain rfl := Except.error.inj h
    exact visible_of_fault hfault

end Lexer

/-! ### Faults of a parse -/

namespace Parser

/-- A state in the middle of a parse: all faults are at tokens. -/
structure FaultsAtTokens (tokens : List Token) (s : State) : Prop where
  suffix : s.tokens <:+ tokens
  faults : ∀ f ∈ s.faults, ∃ t ∈ tokens, f.span = t.span

variable {limit : Nat} {tokens : List Token} {m : State}

theorem FaultsAtTokens.step (h : FaultsAtTokens tokens m) : FaultsAtTokens tokens m.step where
  suffix := (onward_step m).tokens.trans h.suffix
  faults := by
    rw [m.faults_step]
    exact h.faults

theorem FaultsAtTokens.note (h : FaultsAtTokens tokens m) (error : SyntaxError) {t : Token}
    (ht : t ∈ tokens) : FaultsAtTokens tokens (m.noting ⟨error, t.span⟩) :=
  ⟨h.suffix, List.forall_mem_cons.mpr ⟨⟨t, ht, rfl⟩, h.faults⟩⟩

theorem FaultsAtTokens.current (h : FaultsAtTokens tokens m) : m.current ∈ tokens :=
  h.suffix.subset List.mem_cons_self

theorem FaultsAtTokens.roam {m' : State} (h : FaultsAtTokens tokens m) (hroam : Roams m m') :
    FaultsAtTokens tokens m' := by
  induction hroam with
  | stay => exact h
  | take _ _ ih => exact (ih h).step
  | count _ ih => exact (ih h).note _ (ih h).current
  | target _ _ _ ih ih' =>
    have hm := ih h
    exact (ih' hm.step).note _ hm.current

theorem strides_faultsAtTokens (tokens : List Token) :
    Strides fun s s' => FaultsAtTokens tokens s → FaultsAtTokens tokens s' where
  refl _ h := h
  trans h h' hs := h' (h hs)
  step _ h := h.step
  note _ error h := h.note error h.current
  roam hroam h := h.roam hroam

theorem faults_at_tokens (tokens : List Token) :
    ∀ f ∈ (parseProgram limit tokens).faults, ∃ t ∈ tokens, f.span = t.span := by
  cases tokens with
  | nil => exact nofun
  | cons t ts =>
    have hstart : FaultsAtTokens (t :: ts) ⟨t, t, ts, []⟩ := ⟨List.suffix_rfl, nofun⟩
    have := strides_faultsAtTokens (t :: ts)
    have hstep : ∀ n s, FaultsAtTokens (t :: ts) s → FaultsAtTokens (t :: ts) (declarations limit n s).2 :=
      Strides.declarations (Q := fun s s' => FaultsAtTokens (t :: ts) s → FaultsAtTokens (t :: ts) s')
    have hlast := hstep (State.remaining ⟨t, t, ts, []⟩) ⟨t, t, ts, []⟩ hstart
    exact fun f hf => hlast.faults f (List.mem_reverse.mp hf)

theorem visible_of_faults {faults : List SyntaxFault} (ht : Lexer.tokenize file source = .ok tokens)
    (hp : parse limit tokens = .error faults) : ∀ f ∈ faults, f.span.Visible file source := by
  unfold parse at hp
  dsimp only at hp
  split at hp
  · cases hp
  · obtain rfl := Except.error.inj hp
    intro f hf
    obtain ⟨t, hmem, hspan⟩ := faults_at_tokens tokens f hf
    exact hspan ▸ Lexer.visible_of_tokenize ht t hmem

/-! ### Programs -/

open Grammar in
theorem visible_of_parse {p : Program Unit} (ht : Lexer.tokenize file source = .ok tokens)
    (hp : parse limit tokens = .ok p) : ∀ s ∈ p.places, s.Visible file source := by
  obtain ⟨items, last, reached, -, hstatements, hi, htiles⟩ := items_of_parse ht hp
  intro s hs
  rw [Program.places, hstatements] at hs
  obtain ⟨stmt, hstmt, hs⟩ := Stmt.mem_placesAll.mp hs
  obtain ⟨i, hmem, rfl⟩ := List.mem_map.mp hstmt
  obtain ⟨us, hne, hus, rfl⟩ := (hi i hmem).placed s hs
  have hpart : us <:+: (items.map Prod.fst).flatten :=
    hus.trans (List.infix_of_mem_flatten (List.mem_map_of_mem hmem))
  have hvisible : ∀ t ∈ us, t.span.Visible file source := fun t h => htiles.visible t (hpart.subset h)
  have hproper := (htiles.increasing.of_infix hpart).proper_spanOf hne
  have hlast := hvisible _ (List.getLast_mem hne)
  obtain ⟨t, us, rfl⟩ := List.exists_cons_of_ne_nil hne
  have hfirst := hvisible t List.mem_cons_self
  refine ⟨⟨hfirst.isIn.file, hfirst.isIn.first, ?_⟩, Or.inl ⟨hproper, ?_⟩⟩
  · rw [Increasing.last_spanOf hne]
    exact hlast.isIn.last
  · have hinner := htiles.increasing.proper t (hpart.subset List.mem_cons_self)
    exact (hfirst.shown.resolve_right fun h => absurd hinner (by rw [h.1]; exact Nat.lt_irrefl _)).2

end Parser

/-! ### Reports -/

namespace Session

variable {s : Session} {file source : String} {report : Report}

/-- What is reported can be seen in the source, if this holds of the places of errors of a running
program. -/
theorem Reported.visible (h : s.Reported file source report)
    (herror : ∀ p e span, s.config.Accepts s.machine.nesting file source p →
      (s.execute (s.resolve p)).1 = some (.error e span) → span ∈ p.places) :
    ∀ d ∈ report.diagnostics, d.span.Visible file source := by
  have hspan {d : Diagnostic} (hd : d.span.Visible file source) :
      (d.withSource source).span.Visible file source := by rwa [d.span_withSource]
  have hresolved {tokens : List Token} {p : Program Unit} (ht : Lexer.tokenize file source = .ok tokens)
      (hp : Parser.parse s.machine.nesting tokens = .ok p) :
      ∀ d ∈ (s.resolve p).diagnostics s.config, (d.withSource source).span.Visible file source :=
    fun d hd => hspan (Resolution.forall_of_mem_diagnostics (Parser.visible_of_parse ht hp) hd)
  cases h with
  | lex ht =>
    exact forall_mem_reportOn (List.forall_mem_singleton.mpr (hspan (Lexer.visible_of_error ht)))
  | parse ht hp =>
    have hfaults := Parser.visible_of_faults ht hp
    exact forall_mem_reportOn (List.forall_mem_map.mpr fun f hf => hspan (hfaults f hf))
  | resolve ht hp => exact forall_mem_reportOn (hresolved ht hp)
  | done hp =>
    obtain ⟨tokens, ht, hp, -⟩ := Config.accepts_iff.mp hp
    exact forall_mem_reportOn (hresolved ht hp)
  | @runtime p e span haccepts hstop =>
    obtain ⟨tokens, ht, hp, -⟩ := Config.accepts_iff.mp haccepts
    refine forall_mem_reportOn (List.forall_mem_append.mpr ⟨hresolved ht hp, ?_⟩)
    exact List.forall_mem_singleton.mpr
      (hspan (Parser.visible_of_parse ht hp span (herror p e span haccepts hstop)))

variable {config : Config} {natives : Registry} {clock : Nat → Float} {machine : Machine}

theorem visible_of_runSource (hn : natives.ReturnsGiven) (hs : create config natives clock machine = .ok s)
    (h : (s.runSource file source).result = .ok report) :
    ∀ d ∈ report.diagnostics, d.span.Visible file source := by
  refine (reported_of_runSource h).visible fun p e span hp hstop => ?_
  refine (place_of_error hn hs hp (show ((s.after []).execute _).1 = _ from hstop)).resolve_right ?_
  rintro ⟨d, ⟨before, file, source, later, p, hruns, -⟩, -⟩
  cases before <;> cases hruns

end Session

end Lox

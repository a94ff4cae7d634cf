import Lox.Proofs.Syntax.BadSegments

/-!
# Recovery

A program in which segments at fault stand between declarations, at top level and in blocks and bodies of
functions. As long as the parse is not stopped, by the depth of the program or by too many faults, exactly
the segments are left out, and each of them is told about at its own tokens.
-/

namespace Lox.Parser

open Grammar

variable {limit : Nat} {place : Place} {ts : List Token} {stmt : RawStmt} {p : Piece}

/-! ### Pieces -/

/-- Tokens are accepted as a program of one declaration. -/
def AcceptedAlone (limit : Nat) (ts : List Token) (stmt : RawStmt) : Prop :=
  (∀ t ∈ ts, t.isEnd = false) ∧ ∃ last program, last.isEnd = true ∧
    parse limit (ts ++ [last]) = .ok program ∧ program.statements = [stmt]

/-- The pieces that a program is made of, declarations accepted on their own and segments at fault, also
as the content of blocks and bodies of functions. -/
inductive IsPiece (limit : Nat) : Place → Piece → Prop where
  | accepted {ts : List Token} {stmt : RawStmt} :
    AcceptedAlone limit ts stmt → IsPiece limit .item ⟨ts, some stmt, []⟩
  | bad {ts : List Token} : IsBad limit ts → IsPiece limit .item ⟨ts, none, [ts]⟩
  | plain {ts : List Token} {stmt : RawStmt} {takesElse : Bool} :
    IsStmt (.branch takesElse) ts stmt → IsPiece limit (.branch takesElse) ⟨ts, some stmt, []⟩
  | block {left right : Token} {pieces : List Piece} :
    left.kind = .leftBrace → (∀ p ∈ pieces, IsPiece limit .item p) → right.kind = .rightBrace →
      IsPiece limit (.branch false) ⟨left :: (pieces.flatMap Piece.tokens ++ [right]),
        some (.block (spanOf (left :: (pieces.flatMap Piece.tokens ++ [right])))
          (pieces.filterMap Piece.kept)), pieces.flatMap Piece.bads⟩
  | ifThen {keyword left right : Token} {cs ts : List Token} {c : RawExpr} {t : RawStmt}
    {bads : List (List Token)} {takesElse : Bool} :
    keyword.kind = .kwIf → left.kind = .leftParen → IsExpr cs c → right.kind = .rightParen →
      IsPiece limit (.branch takesElse) ⟨ts, some t, bads⟩ →
      IsPiece limit (.branch true) ⟨keyword :: left :: (cs ++ right :: ts),
        some (.conditional (spanOf (keyword :: left :: (cs ++ right :: ts))) c t none), bads⟩
  | ifElse {keyword left right kwElse : Token} {cs ts es : List Token} {c : RawExpr} {t e : RawStmt}
    {bads bads' : List (List Token)} {takesElse : Bool} :
    keyword.kind = .kwIf → left.kind = .leftParen → IsExpr cs c → right.kind = .rightParen →
      IsPiece limit (.branch false) ⟨ts, some t, bads⟩ → kwElse.kind = .kwElse →
      IsPiece limit (.branch takesElse) ⟨es, some e, bads'⟩ →
      IsPiece limit (.branch takesElse) ⟨keyword :: left :: (cs ++ right :: (ts ++ kwElse :: es)),
        some (.conditional (spanOf (keyword :: left :: (cs ++ right :: (ts ++ kwElse :: es)))) c t
          (some e)), bads ++ bads'⟩
  | loop {keyword left right : Token} {cs ts : List Token} {c : RawExpr} {t : RawStmt}
    {bads : List (List Token)} {takesElse : Bool} :
    keyword.kind = .kwWhile → left.kind = .leftParen → IsExpr cs c → right.kind = .rightParen →
      IsPiece limit (.branch takesElse) ⟨ts, some t, bads⟩ →
      IsPiece limit (.branch takesElse) ⟨keyword :: left :: (cs ++ right :: ts),
        some (.loop (spanOf (keyword :: left :: (cs ++ right :: ts))) c t), bads⟩
  | forLoop {keyword left semicolon right : Token} {is cs ns ts : List Token} {i : Option RawStmt}
    {c n : Option RawExpr} {t : RawStmt} {bads : List (List Token)} {takesElse : Bool} :
    keyword.kind = .kwFor → left.kind = .leftParen → IsInitializer is i → IsOptional cs c →
      semicolon.kind = .semicolon → IsOptional ns n → right.kind = .rightParen →
      IsPiece limit (.branch takesElse) ⟨ts, some t, bads⟩ →
      IsPiece limit (.branch takesElse)
        ⟨keyword :: left :: (is ++ (cs ++ semicolon :: (ns ++ right :: ts))),
          some (Parser.forLoop keyword.span
            (spanOf (keyword :: left :: (is ++ (cs ++ semicolon :: (ns ++ right :: ts))))) i c n t),
          bads⟩
  | branch {ts : List Token} {t : RawStmt} {bads : List (List Token)} {takesElse : Bool} :
    IsPiece limit (.branch takesElse) ⟨ts, some t, bads⟩ → IsPiece limit .item ⟨ts, some t, bads⟩
  | funDecl {keyword name left right leftBrace rightBrace : Token} {params ps : List Token}
    {pieces : List Piece} :
    keyword.kind = .kwFun → name.kind = .identifier → left.kind = .leftParen →
      Separated .comma (params.map fun t => [t]) ps → (∀ t ∈ params, t.kind = .identifier) →
      params.length ≤ listLimit → right.kind = .rightParen → leftBrace.kind = .leftBrace →
      (∀ p ∈ pieces, IsPiece limit .item p) → rightBrace.kind = .rightBrace →
      IsPiece limit .item ⟨keyword :: name :: left :: (ps ++ right :: leftBrace ::
          (pieces.flatMap Piece.tokens ++ [rightBrace])),
        some (.funDecl
          (spanOf (keyword :: name :: left :: (ps ++ right :: leftBrace ::
            (pieces.flatMap Piece.tokens ++ [rightBrace]))))
          name.lexeme (params.map fun t => ⟨t.span, t.lexeme⟩) (pieces.filterMap Piece.kept)),
        pieces.flatMap Piece.bads⟩

theorem isStmt_of_acceptedAlone (h : AcceptedAlone limit ts stmt) : IsStmt .item ts stmt := by
  obtain ⟨hbody, last, program, hlast, hparse, hstatements⟩ := h
  have hprogram := isProgram_of_parse ⟨ts, last, rfl, hlast, hbody⟩ hparse
  generalize htokens : ts ++ [last] = tokens at hprogram
  obtain ⟨hi, -⟩ := hprogram
  rename_i items last'
  obtain ⟨i, rfl, rfl⟩ := List.map_eq_singleton_iff.mp hstatements
  obtain ⟨rfl, -⟩ := List.append_inj' htokens rfl
  simpa using hi i (List.mem_singleton_self i)

/-! ### How pieces begin -/

theorem IsPiece.begins_branch {takesElse : Bool} (h : IsPiece limit (.branch takesElse) p) :
    BeginsWith (fun k => beginsStmt k = true) p.tokens := by
  cases h with
  | plain hs => exact hs.begins
  | block hk | ifThen hk | ifElse hk | loop hk | forLoop hk => exact ⟨_, _, rfl, by rw [hk]; rfl⟩

theorem opens_of_isBad (h : IsBad limit ts) : BeginsWith Opens ts := by
  obtain ⟨hplain, hsemi, ⟨t, rest, heq, hne⟩, -, -⟩ := h
  rename_i us semicolon _ _
  refine ⟨t, rest, heq, hne, ?_⟩
  have hmem : t ∈ us ++ [semicolon] := heq ▸ List.mem_cons_self
  rcases List.mem_append.mp hmem with hmem | hmem
  · have hp := hplain t hmem
    rintro (hk | hk) <;> rw [hk] at hp <;> cases hp
  · rw [List.mem_singleton.mp hmem, hsemi]
    decide

theorem IsPiece.opens (h : IsPiece limit .item p) : BeginsWith Opens p.tokens := by
  cases h with
  | accepted ha =>
    obtain ⟨t, rest, heq, hk⟩ := (isStmt_of_acceptedAlone ha).begins
    exact ⟨t, rest, heq, opens_of_begins hk⟩
  | bad hb => exact opens_of_isBad hb
  | branch hb =>
    obtain ⟨t, rest, heq, hk⟩ := hb.begins_branch
    exact ⟨t, rest, heq, opens_of_begins (begins_item hk)⟩
  | funDecl hk => exact ⟨_, _, rfl, by rw [hk]; exact ⟨by decide, by decide⟩⟩

/-! ### Programs -/

/-- A token on the first line of a source. -/
def tokenAt (kind : TokenKind) (lexeme : String) (offset : Nat) : Token :=
  ⟨kind, lexeme,
    ⟨"", ⟨1, offset + 1, offset⟩, ⟨1, offset + lexeme.length + 1, offset + lexeme.length⟩⟩⟩

theorem mended_of_isPiece (h : IsPiece limit place p) : Mended limit place p := by
  induction h with
  | accepted ha => exact mended_of_isStmt (isStmt_of_acceptedAlone ha)
  | bad hb => exact mended_of_isBad hb
  | plain hs => exact mended_of_isStmt hs
  | block hl hp hr ih => exact mended_block hl (fun p hmem => (hp p hmem).opens) ih hr
  | ifThen hk hl hc hr _ ih => exact mended_ifThen hk hl hc hr ih
  | ifElse hk hl hc hr _ hkw _ iht ihe => exact mended_ifElse hk hl hc hr iht hkw ihe
  | loop hk hl hc hr _ ih => exact mended_loop hk hl hc hr ih
  | forLoop hk hl hi hc hsemi hn hr _ ih => exact mended_forLoop hk hl hi hc hsemi hn hr ih
  | branch hb ih => exact mended_item_of_branch hb.begins_branch ih
  | funDecl hk hname hl hsep hparams hcount hr hlb hp hrb ih =>
    exact mended_funDecl hk hname hl hsep hparams hcount hr hlb (fun p hmem => (hp p hmem).opens) ih hrb

/-- Of a program with segments at fault exactly the segments are left out, and the faults are theirs, unless
the parse is cut off or there are too many faults. -/
theorem parse_recovers {pieces : List Piece} {last : Token} {tokens : List Token}
    (hp : ∀ p ∈ pieces, IsPiece limit .item p) (hlast : last.kind = .endOfInput)
    (htokens : tokens = pieces.flatMap Piece.tokens ++ [last])
    (hfew : (parseProgram limit tokens).faults.length < errorLimit)
    (hdeep : ¬ CutOff (parseProgram limit tokens).faults) :
    (parseProgram limit tokens).program.statements = pieces.filterMap Piece.kept ∧
      Blames (pieces.flatMap Piece.bads) (parseProgram limit tokens).faults := by
  obtain ⟨t, ts, ht⟩ : ∃ t ts, tokens = t :: ts :=
    List.exists_cons_of_ne_nil (htokens ▸ append_singleton_ne_nil _ _)
  let s' : State := ⟨(pieces.flatMap Piece.tokens).getLastD t, last, [], []⟩
  have hm : Moves (initialState t ts) (pieces.flatMap Piece.tokens) s' :=
    ⟨ht.symm.trans htokens, rfl, rfl⟩
  have hroom : (initialState t ts).faults.length < errorLimit := Nat.zero_lt_succ 19
  rw [ht, parseProgram_cons] at hfew hdeep ⊢
  rcases declarations_mended (fun p hmem => (hp p hmem).opens)
    (fun p hmem => mended_of_isPiece (hp p hmem)) (Nat.le_refl _) hm hroom hlast with
    ⟨fs, hfs, hd⟩ | ⟨f, hf, he⟩ | ⟨hfull, -⟩
  · rw [hd]
    refine ⟨rfl, ?_⟩
    show Blames _ (fs ++ []).reverse
    rwa [List.append_nil]
  · exact absurd ⟨f, List.mem_reverse.mpr hf, he⟩ hdeep
  · rw [List.length_reverse] at hfew
    omega

/-- Two segments at fault, one of them in a block: `a; b +; { c; d e; }`. -/
theorem parse_recovers_in_block :
    let first := [tokenAt .identifier "b" 3, tokenAt .plus "+" 5, tokenAt .semicolon ";" 6]
    let second := [tokenAt .identifier "d" 13, tokenAt .identifier "e" 15, tokenAt .semicolon ";" 16]
    ∃ (pieces : List Piece) (last : Token) (tokens : List Token),
      (∀ p ∈ pieces, IsPiece 500 .item p) ∧ last.kind = .endOfInput ∧
      tokens = pieces.flatMap Piece.tokens ++ [last] ∧
      (parseProgram 500 tokens).faults.length < errorLimit ∧ ¬ CutOff (parseProgram 500 tokens).faults ∧
      (parseProgram 500 tokens).program.statements = pieces.filterMap Piece.kept ∧
      Blames [first, second] (parseProgram 500 tokens).faults := by
  intro first second
  let semicolon (offset : Nat) := tokenAt .semicolon ";" offset
  let last := tokenAt .endOfInput "" 19
  let statement (name : String) (offset : Nat) : Piece :=
    let tokens := [tokenAt .identifier name offset, semicolon (offset + 1)]
    ⟨tokens, some (.expression (spanOf tokens)
      (.varRef (tokenAt .identifier name offset).span name ())), []⟩
  have ha : IsPiece 500 .item (statement "a" 0) :=
    .accepted ⟨by decide, last, _, rfl, parse_eq_ok_iff_faults.mpr ⟨by decide +kernel, rfl⟩, rfl⟩
  have hc : IsPiece 500 .item (statement "c" 10) :=
    .accepted ⟨by decide, last, _, rfl, parse_eq_ok_iff_faults.mpr ⟨by decide +kernel, rfl⟩, rfl⟩
  have hfirst : IsBad 500 first := by
    have hplain : ∀ t ∈ [tokenAt .identifier "b" 3, tokenAt .plus "+" 5], t.kind.isPlain = true := by
      decide
    have hrejected : ∃ s, declaration 500 (stateBefore first last) = .ok none s := ⟨_, rfl⟩
    obtain ⟨s, hs⟩ := hrejected
    exact .intro hplain rfl ⟨_, _, rfl, by decide⟩ rfl hs
  have hsecond : IsBad 500 second := by
    have hplain : ∀ t ∈ [tokenAt .identifier "d" 13, tokenAt .identifier "e" 15],
        t.kind.isPlain = true := by decide
    have hrejected : ∃ s, declaration 500 (stateBefore second last) = .ok none s := ⟨_, rfl⟩
    obtain ⟨s, hs⟩ := hrejected
    exact .intro hplain rfl ⟨_, _, rfl, by decide⟩ rfl hs
  let inner : List Piece := [statement "c" 10, ⟨second, none, [second]⟩]
  have hinner : ∀ p ∈ inner, IsPiece 500 .item p :=
    List.forall_mem_cons.mpr ⟨hc, List.forall_mem_singleton.mpr (.bad hsecond)⟩
  let left := tokenAt .leftBrace "\x7b" 8
  let right := tokenAt .rightBrace "\x7d" 18
  let block : Piece := ⟨left :: (inner.flatMap Piece.tokens ++ [right]),
    some (.block (spanOf (left :: (inner.flatMap Piece.tokens ++ [right])))
      (inner.filterMap Piece.kept)), inner.flatMap Piece.bads⟩
  have hblock : IsPiece 500 .item block := .branch (.block rfl hinner rfl)
  let pieces : List Piece := [statement "a" 0, ⟨first, none, [first]⟩, block]
  have hpieces : ∀ p ∈ pieces, IsPiece 500 .item p :=
    List.forall_mem_cons.mpr ⟨ha, List.forall_mem_cons.mpr ⟨.bad hfirst,
      List.forall_mem_singleton.mpr hblock⟩⟩
  let tokens := pieces.flatMap Piece.tokens ++ [last]
  have hfaults : (parseProgram 500 tokens).faults.map SyntaxFault.error =
      [.unexpectedToken "expression" (Text.quoted ";"),
        .unexpectedToken "';' after expression" (Text.quoted "e")] := by decide +kernel
  have hfew : (parseProgram 500 tokens).faults.length < errorLimit := by
    rw [← List.length_map, hfaults]
    decide
  have hdeep : ¬ CutOff (parseProgram 500 tokens).faults := by
    rintro ⟨f, hf, he⟩
    have hmem := List.mem_map_of_mem (f := SyntaxFault.error) hf
    rw [hfaults, he] at hmem
    simp at hmem
  exact ⟨pieces, last, tokens, hpieces, rfl, rfl, hfew, hdeep, parse_recovers hpieces rfl rfl hfew hdeep⟩

/-! ### Too many blocks -/

theorem declaration_of_leftBrace {s : State} (hk : s.current.kind = .leftBrace) (depth : Nat) :
    declaration (depth + 2) s =
      recovering (do
        let _ ← advance
        let body ← blockBody (declaration depth)
        return .block (← spanFrom s.current) body) s := by
  rw [declaration, statement]
  refine recovering_congr ?_
  obtain ⟨previous, ⟨kind, lexeme, span⟩, ahead, faults⟩ := s
  obtain rfl : kind = .leftBrace := hk
  rfl

theorem tooDeep_block {depth : Nat} {s s' : State} (hk : s.current.kind = .leftBrace)
    (hopens : Opens s.step.current.kind) (h : declaration depth s.step = .error .tooDeep s') :
    declaration (depth + 2) s = .error .tooDeep s' := by
  have hitems (n : Nat) : blockItems (declaration depth) (n + 1) s.step = .error .tooDeep s' := by
    have hpeek : peek s.step = .ok s.step.current.kind s.step := rfl
    rw [blockItems, bind_of_ok hpeek, if_neg hopens.2, bind_of_error h]
  have hbody : blockBody (declaration depth) s.step = .error .tooDeep s' := by
    have hremaining : remaining s.step = .ok (s.step.ahead.length + 1) s.step := rfl
    rw [blockBody, bind_of_ok hremaining, bind_of_error (hitems _)]
  have hadvance : advance s = .ok s.current s.step := rfl
  rw [declaration_of_leftBrace hk, recovering, bind_of_ok hadvance, bind_of_error hbody]

theorem parseProgram_of_tooDeep {t : Token} {ts : List Token} {s : State} (ht : t.isEnd = false)
    (h : declaration limit (initialState t ts) = .error .tooDeep s) (hs : s.faults = []) :
    (parseProgram limit (t :: ts)).program.statements = [] ∧
      (parseProgram limit (t :: ts)).faults.length = 1 := by
  have hone : declarations limit (initialState t ts).remaining (initialState t ts) =
      ([], { s with faults := ⟨.nestingTooDeep, s.current.span⟩ :: s.faults }) := by
    show declarations limit (ts.length + 1) _ = _
    rw [declarations, h]
    simp [initialState, ht]
  rw [parseProgram_cons, hone]
  exact ⟨rfl, by rw [hs]; rfl⟩

/-- The statement `1;` in the middle of a source, within as many of 2000 blocks as said. -/
def nestedBlocks : Nat → Piece
  | 0 =>
    let number := tokenAt .number "1" 2000
    let semicolon := tokenAt .semicolon ";" 2001
    ⟨[number, semicolon], some (.expression (spanOf [number, semicolon])
      (.literal number.span (.number number.numberValue))), []⟩
  | depth + 1 =>
    let left := tokenAt .leftBrace "\x7b" (1999 - depth)
    let right := tokenAt .rightBrace "\x7d" (2002 + depth)
    let inner := [nestedBlocks depth]
    ⟨left :: (inner.flatMap Piece.tokens ++ [right]),
      some (.block (spanOf (left :: (inner.flatMap Piece.tokens ++ [right])))
        (inner.filterMap Piece.kept)), inner.flatMap Piece.bads⟩

theorem isPiece_nestedBlocks (blocks : Nat) : IsPiece 500 .item (nestedBlocks blocks) := by
  induction blocks with
  | zero =>
    refine .accepted ⟨by decide, tokenAt .endOfInput "" 2002, _, rfl,
      parse_eq_ok_iff_faults.mpr ⟨?_, rfl⟩, ?_⟩
    · decide +kernel
    · rfl
  | succ blocks ih => exact .branch (.block rfl (List.forall_mem_singleton.mpr ih) rfl)

theorem bads_nestedBlocks (blocks : Nat) : (nestedBlocks blocks).bads = [] := by
  induction blocks with
  | zero => rfl
  | succ blocks ih =>
    show [nestedBlocks blocks].flatMap Piece.bads = []
    rw [List.flatMap_singleton, ih]

theorem step_of_tokens_eq {s : State} {t u : Token} {us : List Token} (h : s.tokens = t :: u :: us)
    (ht : t.isEnd = false) : s.step = ⟨t, u, us, s.faults⟩ :=
  have hm : Moves s [t] ⟨t, u, us, s.faults⟩ := ⟨h, rfl, rfl⟩
  hm.step_eq ht

theorem tooDeep_nestedBlocks {blocks levels : Nat} (hle : levels ≤ blocks) {s : State}
    {rest : List Token} (hs : s.tokens = (nestedBlocks blocks).tokens ++ rest) :
    ∃ s', declaration (2 * levels) s = .error .tooDeep s' ∧ s'.faults = s.faults := by
  induction levels generalizing blocks s rest with
  | zero => exact ⟨s, rfl, rfl⟩
  | succ levels ih =>
    obtain ⟨blocks, rfl⟩ := Nat.exists_eq_add_of_le' (Nat.one_le_of_lt hle)
    let left := tokenAt .leftBrace "\x7b" (1999 - blocks)
    let right := tokenAt .rightBrace "\x7d" (2002 + blocks)
    obtain ⟨t, us, ht, hopens⟩ := (isPiece_nestedBlocks blocks).opens
    have htokens : s.tokens = left :: t :: (us ++ right :: rest) := by
      rw [hs]
      show left :: ([nestedBlocks blocks].flatMap Piece.tokens ++ [right]) ++ rest = _
      rw [List.flatMap_singleton, ht]
      simp
    have hstep := step_of_tokens_eq htokens rfl
    have hinner : s.step.tokens = (nestedBlocks blocks).tokens ++ right :: rest := by
      rw [hstep, ht]
      rfl
    have hcurrent : s.current = left := (List.cons.inj htokens).1
    obtain ⟨s', hr, hf⟩ := ih (Nat.le_of_succ_le_succ hle) hinner
    refine ⟨s', tooDeep_block ?_ ?_ hr, hf.trans s.faults_step⟩
    · rw [hcurrent]
      rfl
    · rw [hstep]
      exact hopens

theorem kept_nestedBlocks (blocks : Nat) : (nestedBlocks blocks).kept.toList ≠ [] := by
  cases blocks <;> exact List.cons_ne_nil _ _

/-- A statement in 2000 blocks is accepted on its own, yet it is not kept: the parse is cut off, with a
single fault. -/
theorem nestedBlocks_not_kept :
    let block := nestedBlocks 2000
    let outcome := parseProgram 500 (block.tokens ++ [tokenAt .endOfInput "" 4002])
    IsPiece 500 .item block ∧ block.bads = [] ∧ outcome.faults.length < errorLimit ∧
      outcome.program.statements ≠ block.kept.toList := by
  intro block outcome
  obtain ⟨t, us, ht, hopens⟩ := (isPiece_nestedBlocks 2000).opens
  have hend : t.isEnd = false := isEnd_eq_false rfl fun hk => hopens.2 (Or.inr hk)
  have htokens : block.tokens ++ [tokenAt .endOfInput "" 4002] =
      t :: (us ++ [tokenAt .endOfInput "" 4002]) := congrArg (· ++ _) ht
  have hlevels : 250 ≤ 2000 := by decide
  have hstart : (initialState t (us ++ [tokenAt .endOfInput "" 4002])).tokens =
      block.tokens ++ [tokenAt .endOfInput "" 4002] := htokens.symm
  obtain ⟨s, hr, hs⟩ := tooDeep_nestedBlocks hlevels hstart
  obtain ⟨hnone, hone⟩ := parseProgram_of_tooDeep hend hr hs
  have houtcome : outcome = parseProgram 500 (t :: (us ++ [tokenAt .endOfInput "" 4002])) :=
    congrArg (parseProgram 500) htokens
  refine ⟨isPiece_nestedBlocks 2000, bads_nestedBlocks 2000, ?_, ?_⟩
  · rw [houtcome, hone]
    decide
  · rw [houtcome, hnone]
    exact (kept_nestedBlocks 2000).symm

end Lox.Parser

import Lox.Proofs.Syntax.ExpressionCompleteness
import Lox.Proofs.Syntax.Noting
import Lox.Proofs.Syntax.StatementSoundness

/-!
# Every statement is read

Where the grammar derives a statement and no `else` follows that would belong to it, the rule for its
place gives its tree, unless it is cut off by its depth. Behind a declaration of a block stands another
one or the closing brace, never an `else`. The rules for statements with parts are told with the segments
at fault that are in the parts, since blocks leave out what is rejected in them; a statement of the grammar
has none.
-/

namespace Lox.Parser

open Grammar

variable {α : Type} {limit : Nat}

/-! ### Parts that may be left out -/

theorem yields_optionally {rule : Rule α} {kind : TokenKind} (hk : kind ≠ .endOfInput)
    {s m s' : State} {t : Token} {a : α} (ht : t.kind = kind) (hm : Moves s [t] m)
    (h : Yields rule m a s') : Yields (optionally kind rule) s (some a) s' :=
  (yields_accept hm ht hk).bind (h.map some)

theorem yields_optionally_none {rule : Rule α} {kind : TokenKind} {s : State}
    (h : s.current.kind ≠ kind) : Yields (optionally kind rule) s none s :=
  (yields_accept_false h).bind (yields_pure none s)

theorem yields_unlessAt {ts : List Token} {e : Option RawExpr} (he : IsOptional ts e) (depth : Nat)
    {kind : TokenKind} (hc : continues? kind = none) (hb : beginsExpr kind = false) {s s' : State}
    (h : Moves s ts s') (hk : s'.current.kind = kind) :
    Yields (unlessAt kind (expression depth)) s e s' := by
  rw [unlessAt]
  refine (yields_peek s).bind ?_
  cases he with
  | none =>
    obtain rfl := moves_nil_iff.1 h
    rw [if_pos hk]
    exact yields_pure none _
  | some he =>
    obtain ⟨t, rest, rfl, ht, -⟩ := he.begins
    have hne : s.current.kind ≠ kind := by
      rw [h.current_eq]
      intro heq
      obtain rfl := heq
      rw [hb] at ht
      cases ht
    rw [if_neg hne]
    exact (yields_expression he depth h (hk ▸ hc)).map some

/-! ### Simple statements -/

theorem yields_semicolon {short : Prop} {s s' : State} {t : Token} (ht : t.kind = .semicolon)
    (h : Moves s [t] s') (expected : String) :
    YieldsUnless short (expect .semicolon expected) s t s' :=
  yields_expect h ht (by decide) expected

theorem yields_varDeclaration {keyword : Token} {ts : List Token} {stmt : RawStmt}
    (hd : IsVarDecl (keyword :: ts) stmt) (depth : Nat) {s m s' : State} (hm : Moves s [keyword] m)
    (h : Moves m ts s') : Yields (varDeclaration (expression depth) keyword) m stmt s' := by
  have hall : Moves s (keyword :: ts) s' := hm.trans h
  rw [varDeclaration]
  cases hd with
  | plain _ hname hsemi =>
    obtain ⟨m₁, hm₁, hm₂⟩ := moves_cons_iff.1 h
    have hne : m₁.current.kind ≠ .assign := by
      rw [hm₂.current_eq, hsemi]
      decide
    refine (yields_expect hm₁ hname (by decide) _).bind ?_
    refine (yields_optionally_none hne).bind ((yields_semicolon hsemi hm₂ _).bind ?_)
    exact (yields_spanFrom hall).bind (yields_pure _ s')
  | initialized _ hname hequals he hsemi =>
    obtain ⟨m₁, hm₁, h₁⟩ := moves_cons_iff.1 h
    obtain ⟨m₂, hm₂, h₂⟩ := moves_cons_iff.1 h₁
    obtain ⟨m₃, hts, hm₃⟩ := moves_append_iff.1 h₂
    have hstop : continues? m₃.current.kind = none := by
      rw [hm₃.current_eq, hsemi]
      rfl
    have hexpr := yields_expression he depth hts hstop
    refine (yields_expect hm₁ hname (by decide) _).bind ?_
    refine (yields_optionally (by decide) hequals hm₂ hexpr).bind ?_
    refine (yields_semicolon hsemi hm₃ _).bind ?_
    exact (yields_spanFrom hall).bind (yields_pure _ s')

theorem yields_expressionStatement {short : Prop} {t : Token} {ts : List Token} {stmt : RawStmt}
    (hd : IsExprStmt (t :: ts) stmt) (depth : Nat) (expected : String) {s s' : State}
    (hshort : ∀ span e, stmt = .expression span e → depth ≤ e.nesting → short)
    (h : Moves s (t :: ts) s') :
    YieldsUnless short (expressionStatement (expression depth) t expected) s stmt s' := by
  generalize hall : t :: ts = us at hd
  obtain ⟨he, hsemi⟩ := hd
  rw [hall] at h
  obtain ⟨m, hus, hm⟩ := moves_append_iff.1 h
  have hstop : continues? m.current.kind = none := by
    rw [hm.current_eq, hsemi]
    rfl
  have hexpr := (yields_expression_unless he depth hus hstop).weaken (hshort _ _ rfl)
  rw [expressionStatement]
  refine hexpr.bind ((yields_semicolon hsemi hm _).bind ?_)
  rw [← hall] at h ⊢
  exact (yields_spanFrom h).bind (yields_pure _ s')

section

variable {keyword semicolon : Token} {ts : List Token} {s m s' : State} (depth : Nat)

theorem yields_printStatement {e : RawExpr} (he : IsExpr ts e) (hsemi : semicolon.kind = .semicolon)
    (hm : Moves s [keyword] m) (h : Moves m (ts ++ [semicolon]) s') :
    Yields (printStatement (expression depth) keyword) m
      (.print (spanOf (keyword :: (ts ++ [semicolon]))) e) s' := by
  obtain ⟨m₁, hts, hm₁⟩ := moves_append_iff.1 h
  have hstop : continues? m₁.current.kind = none := by
    rw [hm₁.current_eq, hsemi]
    rfl
  rw [printStatement]
  refine (yields_expression he depth hts hstop).bind ((yields_semicolon hsemi hm₁ _).bind ?_)
  exact (yields_spanFrom (hm.trans h)).bind (yields_pure _ s')

theorem yields_returnStatement {e : Option RawExpr} (he : IsOptional ts e)
    (hsemi : semicolon.kind = .semicolon) (hm : Moves s [keyword] m)
    (h : Moves m (ts ++ [semicolon]) s') :
    Yields (returnStatement (expression depth) keyword) m
      (.ret (spanOf (keyword :: (ts ++ [semicolon]))) e) s' := by
  obtain ⟨m₁, hts, hm₁⟩ := moves_append_iff.1 h
  have hk : m₁.current.kind = .semicolon := hm₁.current_eq ▸ hsemi
  rw [returnStatement]
  refine (yields_unlessAt he depth rfl rfl hts hk).bind ((yields_semicolon hsemi hm₁ _).bind ?_)
  exact (yields_spanFrom (hm.trans h)).bind (yields_pure _ s')

end

/-! ### Statements at a place -/

/-- A piece of a program: its tokens, the statement that is kept of them, and the segments in them that are
at fault. -/
structure Piece where
  tokens : List Token
  kept : Option RawStmt
  bads : List (List Token)

/-- The rule for a place gives what is kept of a piece and notes the faults of the segments in it. -/
def Mended (limit : Nat) : Place → Piece → Prop
  | .branch takesElse, p => ∀ stmt, p.kept = some stmt → ∀ depth ≤ limit, ∀ {s s'},
    Moves s p.tokens s' → (takesElse = true → s'.current.kind ≠ .kwElse) →
      Notes p.bads (statement depth) s stmt s'
  | .item, p => ∀ depth ≤ limit, ∀ {s s'}, Moves s p.tokens s' → s'.current.kind ≠ .kwElse →
    Notes p.bads (declaration depth) s p.kept s'

/-- A token of this kind begins something in a block: it does not close the block, and it does not belong to
the statement in front of it. -/
def Opens (k : TokenKind) : Prop := k ≠ .kwElse ∧ ¬ (k = .rightBrace ∨ k = .endOfInput)

theorem opens_of_begins {place : Place} {k : TokenKind} (h : place.begins k = true) : Opens k := by
  refine ⟨?_, ?_⟩
  · rintro rfl
    cases place <;> cases h
  · rintro (rfl | rfl) <;> cases place <;> cases h

section

variable {pieces : List Piece}

theorem next_not_else (hb : ∀ p ∈ pieces, BeginsWith Opens p.tokens) {s s' : State}
    (h : Moves s (pieces.flatMap Piece.tokens) s') (hs : s'.current.kind ≠ .kwElse) :
    s.current.kind ≠ .kwElse := by
  cases pieces with
  | nil =>
    obtain rfl := moves_nil_iff.1 h
    exact hs
  | cons p pieces =>
    obtain ⟨t, rest, ht, hk⟩ := hb p (List.mem_cons_self ..)
    rw [List.flatMap_cons, ht] at h
    rw [h.current_eq]
    exact hk.1

theorem notes_blockItems (hb : ∀ p ∈ pieces, BeginsWith Opens p.tokens)
    (hc : ∀ p ∈ pieces, Mended limit .item p) {depth n : Nat} (hd : depth ≤ limit) {s s' : State}
    (hn : s.remaining ≤ n)
    (h : Moves s (pieces.flatMap Piece.tokens) s') (hs : s'.current.kind = .rightBrace) :
    Notes (pieces.flatMap Piece.bads) (blockItems (declaration depth) n) s
      (pieces.filterMap Piece.kept) s' := by
  -- On the pieces: each begins with a token, so the bound on the turns goes on being enough.
  induction pieces generalizing n s s' with
  | nil =>
    obtain ⟨k, rfl⟩ := State.exists_succ_of_remaining_le hn
    obtain rfl := moves_nil_iff.1 h
    rw [blockItems]
    refine ((yields_peek _).bind ?_).notes
    rw [if_pos (Or.inl hs)]
    exact yields_pure _ _
  | cons p pieces ih =>
    obtain ⟨k, rfl⟩ := State.exists_succ_of_remaining_le hn
    rw [List.flatMap_cons] at h
    obtain ⟨m, hm, hrest⟩ := moves_append_iff.1 h
    rw [List.forall_mem_cons] at hb hc
    obtain ⟨t, us, ht, hk⟩ := hb.1
    have hlen := hm.remaining
    rw [ht, List.length_cons] at hlen
    have hnext : m.current.kind ≠ .kwElse := by
      refine next_not_else hb.2 hrest ?_
      rw [hs]
      decide
    have hopens : Opens s.current.kind := by
      rw [ht] at hm
      rwa [hm.current_eq]
    rw [blockItems]
    refine (yields_peek s).bindNotes ?_
    rw [if_neg hopens.2]
    refine (hc.1 depth hd hm hnext).bind fun fs => ?_
    have hbound : (m.plus fs).remaining ≤ k := Nat.le_of_lt_succ (by
      show m.remaining < k + 1
      omega)
    refine (ih hb.2 hc.2 hbound (hrest.plus fs) hs).bindYields fun gs => ?_
    have hkept : p.kept.toList ++ pieces.filterMap Piece.kept = (p :: pieces).filterMap Piece.kept := by
      rw [List.filterMap_cons]
      cases p.kept <;> rfl
    rw [hkept]
    exact yields_pure _ _

theorem notes_blockBody (hb : ∀ p ∈ pieces, BeginsWith Opens p.tokens)
    (hc : ∀ p ∈ pieces, Mended limit .item p) {depth : Nat} (hd : depth ≤ limit) {right : Token}
    (hr : right.kind = .rightBrace) {s s' : State}
    (h : Moves s (pieces.flatMap Piece.tokens ++ [right]) s') :
    Notes (pieces.flatMap Piece.bads) (blockBody (declaration depth)) s
      (pieces.filterMap Piece.kept) s' := by
  obtain ⟨m, hitems, hm⟩ := moves_append_iff.1 h
  have hk : m.current.kind = .rightBrace := hm.current_eq ▸ hr
  rw [blockBody]
  refine (yields_remaining s).bindNotes ?_
  refine (notes_blockItems hb hc hd (Nat.le_refl _) hitems hk).bindYields fun fs => ?_
  exact (yields_expect (hm.plus fs) hr (by decide) _).bind (yields_pure _ _)

end

/-! ### Statements with parts -/

section

variable {keyword left right : Token} {cs : List Token} {s m s' : State} {depth : Nat}
  {bads bads' : List (List Token)}

/-- A condition in parentheses is read in front of what follows it. -/
theorem notes_condition {c : RawExpr} {ts : List Token} {f : RawExpr → Rule α} {a : α}
    {opening closing : String} (hl : left.kind = .leftParen) (hc : IsExpr cs c)
    (hr : right.kind = .rightParen) (h : Moves m (left :: (cs ++ right :: ts)) s')
    (hf : ∀ {m' : State}, Moves m' ts s' → Notes bads (f c) m' a s') :
    Notes bads (expect .leftParen opening >>= fun _ => expression depth >>= fun c =>
      expect .rightParen closing >>= fun _ => f c) m a s' := by
  obtain ⟨m₁, hleft, h₁⟩ := moves_cons_iff.1 h
  obtain ⟨m₂, hcs, h₂⟩ := moves_append_iff.1 h₁
  obtain ⟨m₃, hright, hts⟩ := moves_cons_iff.1 h₂
  have hstops : continues? m₂.current.kind = none := by
    rw [h₂.current_eq, hr]
    rfl
  refine (yields_expect hleft hl (by decide) _).bindNotes ?_
  refine (yields_expression hc depth hcs hstops).bindNotes ?_
  exact (yields_expect hright hr (by decide) _).bindNotes (hf hts)

theorem notes_optionally {rule : Rule α} {kind : TokenKind} (hk : kind ≠ .endOfInput) {t : Token} {a : α}
    (ht : t.kind = kind) (hm : Moves s [t] m) (h : Notes bads rule m a s') :
    Notes bads (optionally kind rule) s (some a) s' :=
  (yields_accept hm ht hk).bindNotes (h.map some)

theorem notes_ifThen {c : RawExpr} {t : RawStmt} {ts : List Token} {takesElse : Bool}
    (hl : left.kind = .leftParen) (hc : IsExpr cs c) (hr : right.kind = .rightParen)
    (ht : Mended limit (.branch takesElse) ⟨ts, some t, bads⟩) (hd : depth ≤ limit)
    (hm : Moves s [keyword] m) (h : Moves m (left :: (cs ++ right :: ts)) s')
    (helse : s'.current.kind ≠ .kwElse) :
    Notes bads (ifStatement (expression depth) (statement depth) keyword) m
      (.conditional (spanOf (keyword :: left :: (cs ++ right :: ts))) c t none) s' := by
  refine notes_condition hl hc hr h fun hts => ?_
  refine (ht t rfl depth hd hts fun _ => helse).bindYields fun fs => ?_
  have hnone : Yields (optionally .kwElse (statement depth)) (s'.plus fs) none (s'.plus fs) :=
    yields_optionally_none helse
  exact hnone.bind ((yields_spanFrom ((hm.trans h).plus fs)).bind (yields_pure _ _))

theorem notes_ifElse {kwElse : Token} {c : RawExpr} {t e : RawStmt} {ts es : List Token}
    {takesElse : Bool} (hl : left.kind = .leftParen) (hc : IsExpr cs c)
    (hr : right.kind = .rightParen) (ht : Mended limit (.branch false) ⟨ts, some t, bads⟩)
    (hk : kwElse.kind = .kwElse) (he : Mended limit (.branch takesElse) ⟨es, some e, bads'⟩)
    (hd : depth ≤ limit) (hm : Moves s [keyword] m)
    (h : Moves m (left :: (cs ++ right :: (ts ++ kwElse :: es))) s')
    (helse : takesElse = true → s'.current.kind ≠ .kwElse) :
    Notes (bads ++ bads') (ifStatement (expression depth) (statement depth) keyword) m
      (.conditional (spanOf (keyword :: left :: (cs ++ right :: (ts ++ kwElse :: es)))) c t
        (some e)) s' := by
  refine notes_condition hl hc hr h fun hbranches => ?_
  obtain ⟨m₁, hts, helses⟩ := moves_append_iff.1 hbranches
  obtain ⟨m₂, hm₂, hes⟩ := moves_cons_iff.1 helses
  refine (ht t rfl depth hd hts fun hf => by cases hf).bind fun fs => ?_
  have hbranch := he e rfl depth hd (hes.plus fs) helse
  refine (notes_optionally (by decide) hk (hm₂.plus fs) hbranch).bindYields fun gs => ?_
  exact (yields_spanFrom (((hm.trans h).plus fs).plus gs)).bind (yields_pure _ _)

theorem notes_whileStatement {c : RawExpr} {b : RawStmt} {bs : List Token} {takesElse : Bool}
    (hl : left.kind = .leftParen) (hc : IsExpr cs c) (hr : right.kind = .rightParen)
    (hb : Mended limit (.branch takesElse) ⟨bs, some b, bads⟩) (hd : depth ≤ limit)
    (hm : Moves s [keyword] m) (h : Moves m (left :: (cs ++ right :: bs)) s')
    (helse : takesElse = true → s'.current.kind ≠ .kwElse) :
    Notes bads (whileStatement (expression depth) (statement depth) keyword) m
      (.loop (spanOf (keyword :: left :: (cs ++ right :: bs))) c b) s' := by
  refine notes_condition hl hc hr h fun hbs => ?_
  refine (hb b rfl depth hd hbs helse).bindYields fun fs => ?_
  exact (yields_spanFrom ((hm.trans h).plus fs)).bind (yields_pure _ _)

end

theorem yields_forInitializer {ts : List Token} {i : Option RawStmt} (hi : IsInitializer ts i)
    (depth : Nat) {s s' : State} (h : Moves s ts s') :
    Yields (forInitializer (expression depth)) s i s' := by
  rw [forInitializer]
  cases hi with
  | none hsemi =>
    refine (yields_current h).bind ?_
    exact (yields_accept h hsemi (by decide)).bind (yields_pure none s')
  | declaration hd =>
    obtain ⟨keyword, rest, rfl, hk⟩ := hd.begins
    obtain ⟨m, hm, hrest⟩ := moves_cons_iff.1 h
    have hne : s.current.kind ≠ .semicolon := by
      rw [h.current_eq, hk]
      decide
    refine (yields_current h).bind ((yields_accept_false hne).bind ?_)
    refine (yields_accept hm hk (by decide)).bind ?_
    exact (yields_varDeclaration hd depth hm hrest).map some
  | expression hd =>
    obtain ⟨t, rest, rfl, hk⟩ := hd.begins
    have hne {kind : TokenKind} (hkind : beginsExpr kind = false) : s.current.kind ≠ kind := by
      rw [h.current_eq]
      intro heq
      obtain rfl := heq
      rw [hkind] at hk
      cases hk
    refine (yields_current h).bind ((yields_accept_false (hne rfl)).bind ?_)
    refine (yields_accept_false (hne rfl)).bind ?_
    exact (yields_expressionStatement hd depth _ (fun _ _ _ _ => trivial) h).map some

theorem notes_forStatement {keyword left semicolon right : Token} {is cs ns bs : List Token}
    {i : Option RawStmt} {c n : Option RawExpr} {b : RawStmt} {takesElse : Bool}
    {bads : List (List Token)} {depth : Nat} (hd : depth ≤ limit) {s m s' : State}
    (hl : left.kind = .leftParen) (hi : IsInitializer is i) (hc : IsOptional cs c)
    (hsemi : semicolon.kind = .semicolon) (hn : IsOptional ns n) (hr : right.kind = .rightParen)
    (hb : Mended limit (.branch takesElse) ⟨bs, some b, bads⟩) (hm : Moves s [keyword] m)
    (h : Moves m (left :: (is ++ (cs ++ semicolon :: (ns ++ right :: bs)))) s')
    (helse : takesElse = true → s'.current.kind ≠ .kwElse) :
    Notes bads (forStatement (expression depth) (statement depth) keyword) m
      (forLoop keyword.span
        (spanOf (keyword :: left :: (is ++ (cs ++ semicolon :: (ns ++ right :: bs))))) i c n b) s' := by
  obtain ⟨m₁, hm₁, h₁⟩ := moves_cons_iff.1 h
  obtain ⟨m₂, his, h₂⟩ := moves_append_iff.1 h₁
  obtain ⟨m₃, hcs, h₃⟩ := moves_append_iff.1 h₂
  obtain ⟨m₄, hm₄, h₄⟩ := moves_cons_iff.1 h₃
  obtain ⟨m₅, hns, h₅⟩ := moves_append_iff.1 h₄
  obtain ⟨m₆, hm₆, hbs⟩ := moves_cons_iff.1 h₅
  have hk₃ : m₃.current.kind = .semicolon := h₃.current_eq ▸ hsemi
  have hk₅ : m₅.current.kind = .rightParen := h₅.current_eq ▸ hr
  rw [forStatement]
  refine (yields_expect hm₁ hl (by decide) _).bindNotes ?_
  refine (yields_forInitializer hi depth his).bindNotes ?_
  refine (yields_unlessAt hc depth rfl rfl hcs hk₃).bindNotes ?_
  refine (yields_semicolon hsemi hm₄ _).bindNotes ?_
  refine (yields_unlessAt hn depth rfl rfl hns hk₅).bindNotes ?_
  refine (yields_expect hm₆ hr (by decide) _).bindNotes ?_
  refine (hb b rfl depth hd hbs helse).bindYields fun fs => ?_
  exact (yields_spanFrom ((hm.trans h).plus fs)).bind (yields_pure _ _)

/-! ### Declarations -/

theorem yields_parameter {t : Token} (ht : t.kind = .identifier) :
    ItemComplete True parameter [t] ⟨t.span, t.lexeme⟩ := by
  intro s s' h _
  exact (yields_expect h ht (by decide) _).bind (yields_pure _ s')

theorem notes_funDeclaration {keyword name left right leftBrace rightBrace : Token}
    {params ps : List Token} {pieces : List Piece} {depth : Nat} (hd : depth ≤ limit)
    {s m s' : State}
    (hname : name.kind = .identifier) (hl : left.kind = .leftParen)
    (hsep : Separated .comma (params.map fun t => [t]) ps)
    (hparams : ∀ t ∈ params, t.kind = .identifier) (hcount : params.length ≤ listLimit)
    (hr : right.kind = .rightParen) (hlb : leftBrace.kind = .leftBrace)
    (hb : ∀ p ∈ pieces, BeginsWith Opens p.tokens) (hc : ∀ p ∈ pieces, Mended limit .item p)
    (hrb : rightBrace.kind = .rightBrace) (hm : Moves s [keyword] m)
    (h : Moves m (name :: left :: (ps ++ right :: leftBrace ::
      (pieces.flatMap Piece.tokens ++ [rightBrace]))) s') :
    Notes (pieces.flatMap Piece.bads) (funDeclaration (declaration depth) keyword) m
      (.funDecl
        (spanOf (keyword :: name :: left :: (ps ++ right :: leftBrace ::
          (pieces.flatMap Piece.tokens ++ [rightBrace]))))
        name.lexeme (params.map fun t => ⟨t.span, t.lexeme⟩) (pieces.filterMap Piece.kept)) s' := by
  obtain ⟨m₁, hm₁, h₁⟩ := moves_cons_iff.1 h
  obtain ⟨m₂, hm₂, h₂⟩ := moves_cons_iff.1 h₁
  obtain ⟨m₃, hps, h₃⟩ := moves_append_iff.1 h₂
  obtain ⟨m₄, hm₄, h₄⟩ := moves_cons_iff.1 h₃
  obtain ⟨m₅, hm₅, hbody⟩ := moves_cons_iff.1 h₄
  have hk₃ : m₃.current.kind = .rightParen := h₃.current_eq ▸ hr
  let parts : List (List Token × Parameter) := params.map fun t => ([t], ⟨t.span, t.lexeme⟩)
  have hparts : Yields (listed "parameters" parameter) m₂ (parts.map Prod.snd) m₃ := by
    refine yields_listed "parameters" ?_ ?_ ?_ ?_ hps hk₃
    · intro p hp
      obtain ⟨t, ht, rfl⟩ := List.mem_map.1 hp
      exact yields_parameter (hparams t ht)
    · intro p hp
      obtain ⟨t, ht, rfl⟩ := List.mem_map.1 hp
      refine ⟨t, [], rfl, ?_⟩
      rw [hparams t ht]
      decide
    · rwa [List.length_map]
    · rwa [List.map_map]
  have hsnd : parts.map Prod.snd = params.map fun t => ⟨t.span, t.lexeme⟩ := List.map_map
  rw [hsnd] at hparts
  rw [funDeclaration]
  refine (yields_expect hm₁ hname (by decide) _).bindNotes ?_
  refine (yields_expect hm₂ hl (by decide) _).bindNotes (hparts.bindNotes ?_)
  refine (yields_expect hm₄ hr (by decide) _).bindNotes ?_
  refine (yields_expect hm₅ hlb (by decide) _).bindNotes ?_
  refine (notes_blockBody hb hc hd hrb hbody).bindYields fun fs => ?_
  exact (yields_spanFrom ((hm.trans h).plus fs)).bind (yields_pure _ _)

/-! ### Statements and declarations -/

theorem not_reserved_of_begins {k : TokenKind} (h : beginsExpr k = true) : k.isReserved = false := by
  cases k <;> first | rfl | cases h

theorem yields_statement_expression {short : Prop} {ts : List Token} {stmt : RawStmt}
    (hd : IsExprStmt ts stmt) (depth : Nat) {s s' : State}
    (hshort : ∀ span e, stmt = .expression span e → depth ≤ e.nesting → short) (h : Moves s ts s') :
    YieldsUnless short (statement (depth + 1)) s stmt s' := by
  obtain ⟨t, rest, rfl, hk⟩ := hd.begins
  rw [statement]
  refine (yields_current h).bind ?_
  split
  case h_7 =>
    rw [not_reserved_of_begins hk, if_neg Bool.false_ne_true]
    exact yields_expressionStatement hd depth _ hshort h
  all_goals
    rename_i hkind
    rw [hkind] at hk
    cases hk

theorem mended_branch {takesElse : Bool} {ts : List Token} {stmt : RawStmt} {bads : List (List Token)}
    (h : ∀ depth ≤ limit, ∀ {s s'}, Moves s ts s' →
      (takesElse = true → s'.current.kind ≠ .kwElse) → Notes bads (statement (depth + 1)) s stmt s') :
    Mended limit (.branch takesElse) ⟨ts, some stmt, bads⟩ := by
  intro stmt' heq depth hd s s' hm helse
  obtain rfl := Option.some.inj heq
  cases depth with
  | zero => exact notes_tooDeep s s' stmt
  | succ depth => exact h depth (Nat.le_of_succ_le hd) hm helse

theorem mended_item {p : Piece}
    (h : ∀ depth ≤ limit, ∀ {s s'}, Moves s p.tokens s' → s'.current.kind ≠ .kwElse →
      Notes p.bads (declaration (depth + 1)) s p.kept s') : Mended limit .item p := by
  intro depth hd s s' hm helse
  cases depth with
  | zero => exact notes_tooDeep s s' p.kept
  | succ depth => exact h depth (Nat.le_of_succ_le hd) hm helse

theorem notes_keyword {keyword : Token} {ts : List Token} {s s' : State} {stmt : RawStmt}
    {bads : List (List Token)} {rest : Rule RawStmt} (hk : keyword.isEnd = false)
    (h : Moves s (keyword :: ts) s')
    (hr : ∀ {m}, Moves s [keyword] m → Moves m ts s' → Notes bads rest m stmt s') :
    Notes bads (advance >>= fun _ => rest) s stmt s' := by
  obtain ⟨m, hm, hts⟩ := moves_cons_iff.1 h
  exact (yields_advance hm hk).bindNotes (hr hm hts)

section

variable {keyword left right : Token} {cs ts : List Token} {c : RawExpr} {t : RawStmt}
  {takesElse : Bool} {bads bads' : List (List Token)} {pieces : List Piece}

theorem mended_block (hl : left.kind = .leftBrace) (hb : ∀ p ∈ pieces, BeginsWith Opens p.tokens)
    (hc : ∀ p ∈ pieces, Mended limit .item p) (hr : right.kind = .rightBrace) :
    Mended limit (.branch false) ⟨left :: (pieces.flatMap Piece.tokens ++ [right]),
      some (.block (spanOf (left :: (pieces.flatMap Piece.tokens ++ [right])))
        (pieces.filterMap Piece.kept)), pieces.flatMap Piece.bads⟩ := by
  refine mended_branch fun depth hd s s' h _ => ?_
  rw [statement]
  refine (yields_current h).bindNotes ?_
  rw [hl]
  refine notes_keyword (isEnd_eq_false hl (by decide)) h fun hm hbody => ?_
  refine (notes_blockBody hb hc hd hr hbody).bindYields fun fs => ?_
  exact (yields_spanFrom (h.plus fs)).bind (yields_pure _ _)

theorem mended_ifThen (hk : keyword.kind = .kwIf) (hl : left.kind = .leftParen) (hc : IsExpr cs c)
    (hr : right.kind = .rightParen) (ht : Mended limit (.branch takesElse) ⟨ts, some t, bads⟩) :
    Mended limit (.branch true) ⟨keyword :: left :: (cs ++ right :: ts),
      some (.conditional (spanOf (keyword :: left :: (cs ++ right :: ts))) c t none), bads⟩ := by
  refine mended_branch fun depth hd s s' h helse => ?_
  rw [statement]
  refine (yields_current h).bindNotes ?_
  rw [hk]
  exact notes_keyword (isEnd_eq_false hk (by decide)) h fun hm hts =>
    notes_ifThen hl hc hr ht hd hm hts (helse rfl)

theorem mended_ifElse {kwElse : Token} {es : List Token} {e : RawStmt} (hk : keyword.kind = .kwIf)
    (hl : left.kind = .leftParen) (hc : IsExpr cs c) (hr : right.kind = .rightParen)
    (ht : Mended limit (.branch false) ⟨ts, some t, bads⟩) (hkw : kwElse.kind = .kwElse)
    (he : Mended limit (.branch takesElse) ⟨es, some e, bads'⟩) :
    Mended limit (.branch takesElse) ⟨keyword :: left :: (cs ++ right :: (ts ++ kwElse :: es)),
      some (.conditional (spanOf (keyword :: left :: (cs ++ right :: (ts ++ kwElse :: es)))) c t (some e)),
      bads ++ bads'⟩ := by
  refine mended_branch fun depth hd s s' h helse => ?_
  rw [statement]
  refine (yields_current h).bindNotes ?_
  rw [hk]
  exact notes_keyword (isEnd_eq_false hk (by decide)) h fun hm hts =>
    notes_ifElse hl hc hr ht hkw he hd hm hts helse

theorem mended_loop (hk : keyword.kind = .kwWhile) (hl : left.kind = .leftParen) (hc : IsExpr cs c)
    (hr : right.kind = .rightParen) (hb : Mended limit (.branch takesElse) ⟨ts, some t, bads⟩) :
    Mended limit (.branch takesElse) ⟨keyword :: left :: (cs ++ right :: ts),
      some (.loop (spanOf (keyword :: left :: (cs ++ right :: ts))) c t), bads⟩ := by
  refine mended_branch fun depth hd s s' h helse => ?_
  rw [statement]
  refine (yields_current h).bindNotes ?_
  rw [hk]
  exact notes_keyword (isEnd_eq_false hk (by decide)) h fun hm hts =>
    notes_whileStatement hl hc hr hb hd hm hts helse

theorem mended_forLoop {semicolon : Token} {is ns : List Token} {i : Option RawStmt}
    {c n : Option RawExpr} (hk : keyword.kind = .kwFor) (hl : left.kind = .leftParen)
    (hi : IsInitializer is i) (hc : IsOptional cs c) (hsemi : semicolon.kind = .semicolon)
    (hn : IsOptional ns n) (hr : right.kind = .rightParen)
    (hb : Mended limit (.branch takesElse) ⟨ts, some t, bads⟩) :
    Mended limit (.branch takesElse) ⟨keyword :: left :: (is ++ (cs ++ semicolon :: (ns ++ right :: ts))),
      some (forLoop keyword.span
        (spanOf (keyword :: left :: (is ++ (cs ++ semicolon :: (ns ++ right :: ts))))) i c n t), bads⟩ := by
  refine mended_branch fun depth hd s s' h helse => ?_
  rw [statement]
  refine (yields_current h).bindNotes ?_
  rw [hk]
  exact notes_keyword (isEnd_eq_false hk (by decide)) h fun hm hts =>
    notes_forStatement hd hl hi hc hsemi hn hr hb hm hts helse

/-- A statement is a declaration, too: it begins with none of their keywords. -/
theorem mended_item_of_branch (hb : BeginsWith (fun k => beginsStmt k = true) ts)
    (hc : Mended limit (.branch takesElse) ⟨ts, some t, bads⟩) : Mended limit .item ⟨ts, some t, bads⟩ := by
  refine mended_item fun depth hd s s' h helse => ?_
  obtain ⟨first, rest, rfl, hk⟩ := hb
  rw [declaration]
  refine Notes.recovering ((yields_current h).bindNotes ?_)
  split
  case h_3 => exact hc t rfl depth hd h fun _ => helse
  all_goals
    rename_i hkind
    rw [hkind] at hk
    cases hk

theorem mended_funDecl {name leftBrace rightBrace : Token} {params ps : List Token}
    (hk : keyword.kind = .kwFun) (hname : name.kind = .identifier) (hl : left.kind = .leftParen)
    (hsep : Separated .comma (params.map fun t => [t]) ps)
    (hparams : ∀ t ∈ params, t.kind = .identifier) (hcount : params.length ≤ listLimit)
    (hr : right.kind = .rightParen) (hlb : leftBrace.kind = .leftBrace)
    (hb : ∀ p ∈ pieces, BeginsWith Opens p.tokens) (hc : ∀ p ∈ pieces, Mended limit .item p)
    (hrb : rightBrace.kind = .rightBrace) :
    Mended limit .item ⟨keyword :: name :: left :: (ps ++ right :: leftBrace ::
        (pieces.flatMap Piece.tokens ++ [rightBrace])),
      some (.funDecl
        (spanOf (keyword :: name :: left :: (ps ++ right :: leftBrace ::
          (pieces.flatMap Piece.tokens ++ [rightBrace]))))
        name.lexeme (params.map fun t => ⟨t.span, t.lexeme⟩) (pieces.filterMap Piece.kept)),
      pieces.flatMap Piece.bads⟩ := by
  refine mended_item fun depth hd s s' h _ => ?_
  rw [declaration]
  refine Notes.recovering ((yields_current h).bindNotes ?_)
  rw [hk]
  exact notes_keyword (isEnd_eq_false hk (by decide)) h fun hm hts =>
    notes_funDeclaration hd hname hl hsep hparams hcount hr hlb hb hc hrb hm hts

end

/-! ### Statements of the grammar -/

def Piece.clean (i : List Token × RawStmt) : Piece := ⟨i.1, some i.2, []⟩

section

variable (items : List (List Token × RawStmt))

theorem flatMap_tokens_clean :
    (items.map Piece.clean).flatMap Piece.tokens = (items.map Prod.fst).flatten := by
  rw [List.flatMap_map]
  rfl

theorem filterMap_kept_clean :
    (items.map Piece.clean).filterMap Piece.kept = items.map Prod.snd := by
  rw [List.filterMap_map]
  exact congrFun List.filterMap_eq_map items

theorem flatMap_bads_clean : (items.map Piece.clean).flatMap Piece.bads = [] := by
  rw [List.flatMap_map]
  exact List.flatMap_eq_nil_iff.mpr fun _ _ => rfl

end

theorem begins_clean {items : List (List Token × RawStmt)} (hi : ∀ i ∈ items, IsStmt .item i.1 i.2) :
    ∀ p ∈ items.map Piece.clean, BeginsWith Opens p.tokens :=
  List.forall_mem_map.mpr fun i hmem =>
    have ⟨t, rest, heq, hk⟩ := (hi i hmem).begins
    ⟨t, rest, heq, opens_of_begins hk⟩

theorem mended_of_isStmt {place : Place} {ts : List Token} {stmt : RawStmt}
    (h : IsStmt place ts stmt) : Mended limit place ⟨ts, some stmt, []⟩ := by
  induction h with
  | expression he =>
    exact mended_branch fun depth _ _ _ h _ =>
      (yields_statement_expression he depth (fun _ _ _ _ => trivial) h).notes
  | print hk he hsemi =>
    refine mended_branch fun depth hd s s' h _ => ?_
    rw [statement]
    refine (yields_current h).bindNotes ?_
    rw [hk]
    exact notes_keyword (isEnd_eq_false hk (by decide)) h fun hm hts =>
      (yields_printStatement depth he hsemi hm hts).notes
  | ret hk he hsemi =>
    refine mended_branch fun depth hd s s' h _ => ?_
    rw [statement]
    refine (yields_current h).bindNotes ?_
    rw [hk]
    exact notes_keyword (isEnd_eq_false hk (by decide)) h fun hm hts =>
      (yields_returnStatement depth he hsemi hm hts).notes
  | block hl hi hr ih =>
    have hblock := mended_block hl (begins_clean hi) (List.forall_mem_map.mpr ih) hr
    rwa [flatMap_tokens_clean, filterMap_kept_clean, flatMap_bads_clean] at hblock
  | ifThen hk hl hc hr _ ih => exact mended_ifThen hk hl hc hr ih
  | ifElse hk hl hc hr _ hkw _ iht ihe => exact mended_ifElse hk hl hc hr iht hkw ihe
  | loop hk hl hc hr _ ih => exact mended_loop hk hl hc hr ih
  | forLoop hk hl hi hc hsemi hn hr _ ih => exact mended_forLoop hk hl hi hc hsemi hn hr ih
  | branch hd ih => exact mended_item_of_branch hd.begins ih
  | varDecl hv =>
    refine mended_item fun depth hd s s' h _ => ?_
    obtain ⟨keyword, rest, rfl, hk⟩ := hv.begins
    rw [declaration]
    refine Notes.recovering ((yields_current h).bindNotes ?_)
    rw [hk]
    exact notes_keyword (isEnd_eq_false hk (by decide)) h fun hm hts =>
      (yields_varDeclaration hv (depth - 1) hm hts).notes
  | funDecl hk hname hl hsep hparams hcount hr hlb hi hrb ih =>
    have hfun := mended_funDecl hk hname hl hsep hparams hcount hr hlb (begins_clean hi)
      (List.forall_mem_map.mpr ih) hrb
    rwa [flatMap_tokens_clean, filterMap_kept_clean, flatMap_bads_clean] at hfun

end Lox.Parser

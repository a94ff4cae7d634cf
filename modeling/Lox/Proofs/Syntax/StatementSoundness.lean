import Lox.Proofs.Syntax.ExpressionSoundness

/-!
# What is read as a statement

Each rule for statements reads tokens that the grammar derives for its place. A rejected declaration
costs a fault, so a run without faults has left nothing out. The rules that nest are joined by induction
on how deep they may go.
-/

namespace Lox.Parser

open Grammar

variable {α β : Type}

/-! ### Parts that may be left out -/

theorem Moves.join_previous_of_ne_nil {m s' : State} {ts : List Token} (h : Moves m ts s')
    (hne : ts ≠ []) (start : Token) : start.span.join s'.previous.span = spanOf (start :: ts) := by
  obtain ⟨t, ts, rfl⟩ := List.exists_cons_of_ne_nil hne
  rw [spanOf_cons hne, ← h.join_previous]
  rfl

theorem reads_unlessAt {expr : Rule RawExpr} (he : Reads expr (Takes IsExpr)) (kind : TokenKind) :
    Reads (unlessAt kind expr) (Takes IsOptional) := by
  refine (reads_peek.bind fun k => Reads.ite (fun _ => Reads.pure none) fun _ =>
    he.map some).weaken ?_
  intro s e s' _ hread
  obtain ⟨k, m, ⟨-, rfl⟩, ⟨-, rfl, rfl⟩ | ⟨-, e, ⟨ts, hts, hd⟩, rfl⟩⟩ := hread
  · exact ⟨[], .refl _, .none⟩
  · exact ⟨ts, hts, .some hd⟩

theorem reads_optionally {kind : TokenKind} (hk : kind ≠ .endOfInput) {rule : Rule α}
    {P : State → α → State → Prop} (h : Reads rule P) :
    Reads (optionally kind rule) fun s o s' =>
      (∃ t m a, t.kind = kind ∧ Moves s [t] m ∧ P m a s' ∧ o = some a) ∨
        (o = none ∧ s.current.kind ≠ kind ∧ s' = s) := by
  refine ((reads_accept hk).bind fun b => Reads.ite (fun _ => h.map some) fun _ =>
    Reads.pure none).weaken ?_
  intro s o s' _ hread
  obtain ⟨b, m, ⟨rfl, t, ht, hm⟩ | ⟨rfl, hne, rfl⟩, ⟨hb, hrest⟩ | ⟨hb, hrest⟩⟩ := hread
  · obtain ⟨a, hp, rfl⟩ := hrest
    exact Or.inl ⟨t, m, a, ht, hm, hp, rfl⟩
  · exact absurd rfl hb
  · cases hb
  · obtain ⟨rfl, rfl⟩ := hrest
    exact Or.inr ⟨rfl, hne, rfl⟩

/-! ### Simple statements -/

def TakesBehind (start : Token) (D : List Token → α → Prop) : State → α → State → Prop :=
  Takes fun ts a => D (start :: ts) a

theorem reads_varDeclaration {expr : Rule RawExpr} (he : Reads expr (Takes IsExpr))
    (start : Token) :
    Reads (varDeclaration expr start) fun s stmt s' =>
      start.kind = .kwVar → TakesBehind start IsVarDecl s stmt s' := by
  refine ((reads_expect (by decide) _).bind fun name =>
    (reads_optionally (by decide) he).bind fun initializer =>
      (reads_expect (by decide) _).bind fun _ => (reads_spanFrom start).bind fun span =>
        Reads.pure _).weaken ?_
  intro s stmt s' _ hread hk
  obtain ⟨name, m, ⟨hname, hm⟩, initializer, m₁, hinit, semicolon, m₂, ⟨hsemi, hm₂⟩, span, m₃, ⟨rfl,
    rfl⟩, rfl, rfl⟩ := hread
  rcases hinit with ⟨equals, m', e, hequals, hm', ⟨ts, hts, hd⟩, rfl⟩ | ⟨rfl, -, rfl⟩
  · have hmoves := hm.trans (hm'.trans (hts.trans hm₂))
    refine ⟨_, hmoves, ?_⟩
    rw [hmoves.join_previous_of_ne_nil (List.cons_ne_nil _ _) start]
    exact .initialized hk hname hequals hd hsemi
  · have hmoves := hm.trans hm₂
    refine ⟨_, hmoves, ?_⟩
    rw [hmoves.join_previous_of_ne_nil (List.cons_ne_nil _ _) start]
    exact .plain hk hname hsemi

theorem append_singleton_ne_nil (ts : List Token) (t : Token) : ts ++ [t] ≠ [] := by simp

theorem reads_printStatement {expr : Rule RawExpr} (he : Reads expr (Takes IsExpr)) {start : Token}
    (hk : start.kind = .kwPrint) :
    Reads (printStatement expr start) (TakesBehind start (IsStmt (.branch false))) := by
  refine (he.bind fun e => (reads_expect (by decide) _).bind fun _ =>
    (reads_spanFrom start).bind fun span => Reads.pure _).weaken ?_
  intro s stmt s' _ hread
  obtain ⟨e, m, ⟨ts, hts, hd⟩, semicolon, m₁, ⟨hsemi, hm⟩, span, m₂, ⟨rfl, rfl⟩, rfl, rfl⟩ := hread
  have hmoves := hts.trans hm
  refine ⟨_, hmoves, ?_⟩
  rw [hmoves.join_previous_of_ne_nil (append_singleton_ne_nil _ _) start]
  exact .print hk hd hsemi

theorem reads_returnStatement {expr : Rule RawExpr} (he : Reads expr (Takes IsExpr))
    {start : Token} (hk : start.kind = .kwReturn) :
    Reads (returnStatement expr start) (TakesBehind start (IsStmt (.branch false))) := by
  refine ((reads_unlessAt he _).bind fun value => (reads_expect (by decide) _).bind fun _ =>
    (reads_spanFrom start).bind fun span => Reads.pure _).weaken ?_
  intro s stmt s' _ hread
  obtain ⟨value, m, ⟨ts, hts, hd⟩, semicolon, m₁, ⟨hsemi, hm⟩, span, m₂, ⟨rfl, rfl⟩, rfl, rfl⟩ := hread
  have hmoves := hts.trans hm
  refine ⟨_, hmoves, ?_⟩
  rw [hmoves.join_previous_of_ne_nil (append_singleton_ne_nil _ _) start]
  exact .ret hk hd hsemi

theorem reads_expressionStatement {expr : Rule RawExpr} (he : Reads expr (Takes IsExpr))
    (start : Token) (expected : String) :
    Reads (expressionStatement expr start expected) fun s stmt s' =>
      s.current = start → Takes IsExprStmt s stmt s' := by
  refine (he.bind fun e => (reads_expect (by decide) _).bind fun _ =>
    (reads_spanFrom start).bind fun span => Reads.pure _).weaken ?_
  intro s stmt s' _ hread heq
  obtain ⟨e, m, ⟨ts, hts, hd⟩, semicolon, m₁, ⟨hsemi, hm⟩, span, m₂, ⟨rfl, rfl⟩, rfl, rfl⟩ := hread
  obtain rfl := heq
  have hmoves := hts.trans hm
  refine ⟨_, hmoves, ?_⟩
  obtain ⟨t, ts, rfl⟩ := List.exists_cons_of_ne_nil hd.ne_nil
  rw [hts.current_eq, hmoves.join_previous]
  exact .intro hd hsemi

/-! ### Blocks -/

def IsItems (ts : List Token) (ss : List RawStmt) : Prop :=
  ∃ items : List (List Token × RawStmt), ts = (items.map Prod.fst).flatten ∧
    ss = items.map Prod.snd ∧ ∀ i ∈ items, IsStmt .item i.1 i.2

def IsItem (ts : List Token) (item : Option RawStmt) : Prop :=
  ∃ s, item = some s ∧ IsStmt .item ts s

theorem isItems_nil : IsItems [] [] := ⟨[], rfl, rfl, fun _ h => absurd h List.not_mem_nil⟩

theorem IsItems.cons {ts us : List Token} {s : RawStmt} {ss : List RawStmt}
    (h : IsStmt .item ts s) (hs : IsItems us ss) : IsItems (ts ++ us) (s :: ss) := by
  obtain ⟨items, rfl, rfl, hi⟩ := hs
  exact ⟨(ts, s) :: items, rfl, rfl, List.forall_mem_cons.2 ⟨h, hi⟩⟩

theorem reads_blockItems {item : Rule (Option RawStmt)} (hi : Reads item (Takes IsItem)) (n : Nat) :
    Reads (blockItems item n) (Takes IsItems) := by
  have hstop : Reads (pure [] : Rule (List RawStmt)) (Takes IsItems) := by
    refine (Reads.pure []).weaken ?_
    intro s ss s' _ hread
    obtain ⟨rfl, rfl⟩ := hread
    exact ⟨[], .refl _, isItems_nil⟩
  induction n with
  | zero => exact hstop
  | succ n ih =>
    refine (reads_peek.bind fun k => Reads.ite (fun _ => hstop) fun _ => hi.bind fun first =>
      ih.bind fun rest => Reads.pure _).weaken ?_
    intro s ss s' _ hread
    obtain ⟨k, _, ⟨-, rfl⟩, ⟨-, h⟩ | ⟨-, first, m, ⟨ts, hts, stmt, rfl, hs⟩, rest, m₁, ⟨us, hus, hrest⟩,
      rfl, rfl⟩⟩ := hread
    · exact h
    · exact ⟨ts ++ us, hts.trans hus, hrest.cons hs⟩

def IsBody (ts : List Token) (ss : List RawStmt) : Prop :=
  ∃ us right, ts = us ++ [right] ∧ IsItems us ss ∧ right.kind = .rightBrace

theorem reads_blockBody {item : Rule (Option RawStmt)} (hi : Reads item (Takes IsItem)) :
    Reads (blockBody item) (Takes IsBody) := by
  refine (reads_remaining.bind fun n => (reads_blockItems hi n).bind fun items =>
    (reads_expect (by decide) _).bind fun _ => Reads.pure items).weaken ?_
  intro s ss s' _ hread
  obtain ⟨n, _, ⟨-, rfl⟩, items, m, ⟨us, hus, hitems⟩, right, m₁, ⟨hright, hm⟩, rfl, rfl⟩ := hread
  exact ⟨us ++ [right], hus.trans hm, us, right, rfl, hitems, hright⟩

/-! ### Statements with parts -/

/-- What has been read is a statement, and no `else` follows that would belong to it. -/
def TakesStmt (s : State) (stmt : RawStmt) (s' : State) : Prop :=
  ∃ takesElse, Takes (IsStmt (.branch takesElse)) s stmt s' ∧
    (takesElse = true → s'.current.kind ≠ .kwElse)

/-- What has been read is a statement with the token `start` in front of it, and no `else` follows that
would belong to it. -/
def TakesStmtBehind (start : Token) (s : State) (stmt : RawStmt) (s' : State) : Prop :=
  ∃ takesElse, TakesBehind start (IsStmt (.branch takesElse)) s stmt s' ∧
    (takesElse = true → s'.current.kind ≠ .kwElse)

theorem takesStmtBehind_of_closed {start : Token} {s s' : State} {stmt : RawStmt}
    (h : TakesBehind start (IsStmt (.branch false)) s stmt s') : TakesStmtBehind start s stmt s' :=
  ⟨false, h, fun hf => by cases hf⟩

theorem reads_ifStatement {expr : Rule RawExpr} {statement : Rule RawStmt}
    (he : Reads expr (Takes IsExpr)) (hs : Reads statement TakesStmt) {start : Token}
    (hk : start.kind = .kwIf) :
    Reads (ifStatement expr statement start) (TakesStmtBehind start) := by
  refine ((reads_expect (by decide) _).bind fun _ => he.bind fun c =>
    (reads_expect (by decide) _).bind fun _ => hs.bind fun t =>
      (reads_optionally (by decide) hs).bind fun e => (reads_spanFrom start).bind fun span =>
        Reads.pure _).weaken ?_
  intro s stmt s' _ hread
  obtain ⟨left, m, ⟨hl, hm⟩, c, m₁, ⟨cs, hcs, hc⟩, right, m₂, ⟨hr, hm₂⟩, t, m₃, ⟨takesElse, ⟨ts, hts,
    ht⟩, hopen⟩, e, m₄, helse, span, m₅, ⟨rfl, rfl⟩, rfl, rfl⟩ := hread
  have hthen := hm.trans (hcs.trans (hm₂.trans hts))
  rcases helse with ⟨kw, m', e, hkw, hm', ⟨takesElse', ⟨es, hes, he⟩, hopen'⟩, rfl⟩ | ⟨rfl, hne, rfl⟩
  · have hclosed : takesElse = false := by
      rw [← Bool.not_eq_true]
      intro htrue
      exact hopen htrue (hm'.current_eq ▸ hkw)
    subst hclosed
    have hmoves := hm.trans (hcs.trans (hm₂.trans (hts.trans (hm'.trans hes))))
    refine ⟨takesElse', ⟨_, hmoves, ?_⟩, hopen'⟩
    rw [hmoves.join_previous_of_ne_nil (List.cons_ne_nil _ _) start]
    exact .ifElse hk hl hc hr ht hkw he
  · refine ⟨true, ⟨_, hthen, ?_⟩, fun _ => hne⟩
    rw [hthen.join_previous_of_ne_nil (List.cons_ne_nil _ _) start]
    exact .ifThen hk hl hc hr ht

theorem reads_whileStatement {expr : Rule RawExpr} {statement : Rule RawStmt}
    (he : Reads expr (Takes IsExpr)) (hs : Reads statement TakesStmt) {start : Token}
    (hk : start.kind = .kwWhile) :
    Reads (whileStatement expr statement start) (TakesStmtBehind start) := by
  refine ((reads_expect (by decide) _).bind fun _ => he.bind fun c =>
    (reads_expect (by decide) _).bind fun _ => hs.bind fun b =>
      (reads_spanFrom start).bind fun span => Reads.pure _).weaken ?_
  intro s stmt s' _ hread
  obtain ⟨left, m, ⟨hl, hm⟩, c, m₁, ⟨cs, hcs, hc⟩, right, m₂, ⟨hr, hm₂⟩, b, m₃, ⟨takesElse, ⟨bs, hbs,
    hb⟩, hopen⟩, span, m₄, ⟨rfl, rfl⟩, rfl, rfl⟩ := hread
  have hmoves := hm.trans (hcs.trans (hm₂.trans hbs))
  refine ⟨takesElse, ⟨_, hmoves, ?_⟩, hopen⟩
  rw [hmoves.join_previous_of_ne_nil (List.cons_ne_nil _ _) start]
  exact .loop hk hl hc hr hb

theorem reads_forInitializer {expr : Rule RawExpr} (he : Reads expr (Takes IsExpr)) :
    Reads (forInitializer expr) (Takes IsInitializer) := by
  refine reads_at fun start => ?_
  refine ((reads_accept (by decide)).bind fun b => Reads.ite (fun _ => Reads.pure none) fun _ =>
    (reads_accept (by decide)).bind fun b' => Reads.ite
      (fun _ => (reads_varDeclaration he start).map some)
      fun _ => (reads_expressionStatement he start _).map some).weaken ?_
  intro s i s' _ hread heq
  obtain ⟨b, m, hb, hrest⟩ := hread
  obtain rfl := heq
  rcases hb with ⟨rfl, semicolon, hsemi, hm⟩ | ⟨rfl, -, rfl⟩
  · rcases hrest with ⟨-, rfl, rfl⟩ | ⟨hb, -⟩
    · exact ⟨[semicolon], hm, .none hsemi⟩
    · exact absurd rfl hb
  · rcases hrest with ⟨hb, -⟩ | ⟨-, b', m', hb', hrest⟩
    · cases hb
    rcases hb' with ⟨rfl, keyword, hkw, hm⟩ | ⟨rfl, -, rfl⟩
    · rcases hrest with ⟨-, stmt, hvar, rfl⟩ | ⟨hb, -⟩
      · obtain rfl := hm.current_eq
        obtain ⟨ts, hts, hd⟩ := hvar hkw
        exact ⟨_, hm.trans hts, .declaration hd⟩
      · exact absurd rfl hb
    · rcases hrest with ⟨hb, -⟩ | ⟨-, stmt, hexpr, rfl⟩
      · cases hb
      · obtain ⟨ts, hts, hd⟩ := hexpr rfl
        exact ⟨ts, hts, .expression hd⟩

theorem reads_forStatement {expr : Rule RawExpr} {statement : Rule RawStmt}
    (he : Reads expr (Takes IsExpr)) (hs : Reads statement TakesStmt) {start : Token}
    (hk : start.kind = .kwFor) :
    Reads (forStatement expr statement start) (TakesStmtBehind start) := by
  refine ((reads_expect (by decide) _).bind fun _ => (reads_forInitializer he).bind fun i =>
    (reads_unlessAt he _).bind fun c => (reads_expect (by decide) _).bind fun _ =>
      (reads_unlessAt he _).bind fun n => (reads_expect (by decide) _).bind fun _ =>
        hs.bind fun b => (reads_spanFrom start).bind fun span => Reads.pure _).weaken ?_
  intro s stmt s' _ hread
  obtain ⟨left, m, ⟨hl, hm⟩, i, m₁, ⟨is, his, hi⟩, c, m₂, ⟨cs, hcs, hc⟩, semicolon, m₃, ⟨hsemi, hm₃⟩, n,
    m₄, ⟨ns, hns, hn⟩, right, m₅, ⟨hr, hm₅⟩, b, m₆, ⟨takesElse, ⟨bs, hbs, hb⟩, hopen⟩, span, m₇, ⟨rfl,
    rfl⟩, rfl, rfl⟩ := hread
  have hmoves := hm.trans (his.trans (hcs.trans (hm₃.trans (hns.trans (hm₅.trans hbs)))))
  refine ⟨takesElse, ⟨_, hmoves, ?_⟩, hopen⟩
  rw [hmoves.join_previous_of_ne_nil (List.cons_ne_nil _ _) start]
  exact .forLoop hk hl hi hc hsemi hn hr hb

/-! ### Declarations -/

theorem reads_parameter :
    Reads parameter
      (Takes fun ts p => ∃ t : Token, ts = [t] ∧ t.kind = .identifier ∧ p = ⟨t.span, t.lexeme⟩) := by
  refine ((reads_expect (by decide) _).bind fun t => Reads.pure _).weaken ?_
  intro s p s' _ hread
  obtain ⟨t, m, ⟨ht, hm⟩, rfl, rfl⟩ := hread
  exact ⟨[t], hm, t, rfl, ht, rfl⟩

theorem exists_params {parts : List (List Token × Parameter)}
    (h : ∀ p ∈ parts, ∃ t : Token, p.1 = [t] ∧ t.kind = .identifier ∧ p.2 = ⟨t.span, t.lexeme⟩) :
    ∃ params : List Token, parts.map Prod.fst = params.map (fun t => [t]) ∧
      parts.map Prod.snd = params.map (fun t => ⟨t.span, t.lexeme⟩) ∧
      (∀ t ∈ params, t.kind = .identifier) ∧ params.length = parts.length := by
  induction parts with
  | nil => exact ⟨[], rfl, rfl, fun _ h => absurd h List.not_mem_nil, rfl⟩
  | cons p parts ih =>
    rw [List.forall_mem_cons] at h
    obtain ⟨⟨t, h1, hk, h2⟩, hrest⟩ := h
    obtain ⟨params, hp1, hp2, hpk, hlen⟩ := ih hrest
    refine ⟨t :: params, ?_, ?_, List.forall_mem_cons.2 ⟨hk, hpk⟩, congrArg (· + 1) hlen⟩
    · rw [List.map_cons, List.map_cons, h1, hp1]
    · rw [List.map_cons, List.map_cons, h2, hp2]

theorem reads_funDeclaration {item : Rule (Option RawStmt)} (hi : Reads item (Takes IsItem))
    {start : Token} (hk : start.kind = .kwFun) :
    Reads (funDeclaration item start) (TakesBehind start (IsStmt .item)) := by
  refine ((reads_expect (by decide) _).bind fun name => (reads_expect (by decide) _).bind fun _ =>
    (reads_listed "parameters" reads_parameter).bind fun params =>
      (reads_expect (by decide) _).bind fun _ => (reads_expect (by decide) _).bind fun _ =>
        (reads_blockBody hi).bind fun body => (reads_spanFrom start).bind fun span =>
          Reads.pure _).weaken ?_
  intro s stmt s' _ hread
  obtain ⟨name, m, ⟨hname, hm⟩, left, m₁, ⟨hl, hm₁⟩, params, m₂, ⟨parts, rfl, hparts, hbound, ps, hps,
    hsep⟩, right, m₃, ⟨hr, hm₃⟩, leftBrace, m₄, ⟨hlb, hm₄⟩, body, m₅, ⟨_, hbs, _, rightBrace, rfl,
    ⟨items, rfl, rfl, hitems⟩, hrb⟩, span, m₆, ⟨rfl, rfl⟩, rfl, rfl⟩ := hread
  obtain ⟨tokens, htokens, hparams, hkinds, hlen⟩ := exists_params hparts
  rw [htokens] at hsep
  rw [← hlen] at hbound
  have hmoves := hm.trans (hm₁.trans (hps.trans (hm₃.trans (hm₄.trans hbs))))
  refine ⟨_, hmoves, ?_⟩
  rw [hmoves.join_previous_of_ne_nil (List.cons_ne_nil _ _) start, hparams]
  exact .funDecl hk hname hl hsep hkinds hbound hr hlb hitems hrb

theorem onward_skipToBoundary (n : Nat) (s : State) :
    ∃ s', skipToBoundary n s = .ok () s' ∧ Onward s s' := by
  induction n generalizing s with
  | zero => exact ⟨s, rfl, .refl s⟩
  | succ n ih =>
    rw [skipToBoundary]
    dsimp only
    split
    · exact ⟨s, rfl, .refl s⟩
    · obtain ⟨s', hr, hs⟩ := ih s.step
      exact ⟨s', hr, (onward_step s).trans hs⟩

theorem onward_synchronize (s : State) : ∃ s', synchronize s = .ok () s' ∧ Onward s s' := by
  obtain ⟨s', hr, hs⟩ := onward_skipToBoundary s.remaining s.step
  exact ⟨s', hr, (onward_step s).trans hs⟩

/-- Where nothing is lost without a fault, nothing has been left out. -/
theorem reads_recovering {rule : Rule α} {P : State → α → State → Prop} (h : Reads rule P) :
    Reads (recovering rule) fun s o s' => ∃ a, o = some a ∧ P s a s' where
  onward := fun s => by
    have hs := h.onward s
    unfold recovering
    split
    · rename_i hr
      rwa [hr] at hs
    · rename_i fault m hr
      rw [hr] at hs
      obtain ⟨s', hsync, hon⟩ := onward_synchronize { m with faults := fault :: m.faults }
      rw [hsync]
      exact hs.trans ((onward_fault m fault).trans hon)
    · rename_i hr
      rwa [hr] at hs
  spec := fun {s o s'} hs hr hf => by
    have hon := h.onward s
    unfold recovering at hr
    split at hr
    · rename_i a m hrule
      injection hr with ho hm
      subst ho hm
      exact ⟨a, rfl, h.spec hs hrule hf⟩
    · rename_i fault m hrule
      rw [hrule] at hon
      obtain ⟨m', hsync, hon'⟩ := onward_synchronize { m with faults := fault :: m.faults }
      rw [hsync] at hr
      injection hr with _ hm
      subst hm
      have hlen := hon.faults.length_le
      have hlen' := hon'.faults.length_le
      rw [hf, List.length_cons] at hlen'
      exact absurd (Nat.le_trans hlen' hlen) (Nat.not_succ_le_self _)
    · cases hr

/-! ### Statements and declarations -/

theorem reads_keyword {start : Token} {kind : TokenKind} (hk : start.kind = kind)
    (hne : kind ≠ .endOfInput) {rest : Rule RawStmt} (h : Reads rest (TakesStmtBehind start)) :
    Reads (advance >>= fun _ => rest) fun s stmt s' => s.current = start → TakesStmt s stmt s' := by
  refine (reads_advance.bind fun _ => h).weaken ?_
  intro s stmt s' _ hread heq
  obtain ⟨_, m, ⟨rfl, hadv⟩, takesElse, ⟨ts, hts, hd⟩, hopen⟩ := hread
  obtain rfl := heq
  exact ⟨takesElse, ⟨_, (hadv (isEnd_eq_false hk hne)).trans hts, hd⟩, hopen⟩

theorem reads_block {item : Rule (Option RawStmt)} (hi : Reads item (Takes IsItem)) {start : Token}
    (hk : start.kind = .leftBrace) :
    Reads (do let body ← blockBody item; return .block (← spanFrom start) body)
      (TakesBehind start (IsStmt (.branch false))) := by
  refine ((reads_blockBody hi).bind fun body => (reads_spanFrom start).bind fun span =>
    Reads.pure _).weaken ?_
  intro s stmt s' _ hread
  obtain ⟨body, m, ⟨_, hbs, _, right, rfl, ⟨items, rfl, rfl, hitems⟩, hr⟩, span, m₁, ⟨rfl, rfl⟩, rfl,
    rfl⟩ := hread
  refine ⟨_, hbs, ?_⟩
  rw [hbs.join_previous_of_ne_nil (append_singleton_ne_nil _ _) start]
  exact .block hk hitems hr

theorem reads_statement_succ {depth : Nat} (hs : Reads (statement depth) TakesStmt)
    (hd : Reads (declaration depth) (Takes IsItem)) :
    Reads (statement (depth + 1)) TakesStmt := by
  have he := reads_expression depth
  have closed {start : Token} {rest : Rule RawStmt}
      (h : Reads rest (TakesBehind start (IsStmt (.branch false)))) :
      Reads rest (TakesStmtBehind start) :=
    h.weaken fun _ _ _ _ hp => takesStmtBehind_of_closed hp
  rw [statement]
  refine reads_at fun start => ?_
  split
  case h_1 hk => exact reads_keyword hk (by decide) (closed (reads_printStatement he hk))
  case h_2 hk => exact reads_keyword hk (by decide) (closed (reads_returnStatement he hk))
  case h_3 hk => exact reads_keyword hk (by decide) (reads_ifStatement he hs hk)
  case h_4 hk => exact reads_keyword hk (by decide) (reads_whileStatement he hs hk)
  case h_5 hk => exact reads_keyword hk (by decide) (reads_forStatement he hs hk)
  case h_6 hk => exact reads_keyword hk (by decide) (closed (reads_block hd hk))
  case h_7 =>
    refine (Reads.ite (fun _ => reads_reject _ _)
      fun _ => reads_expressionStatement he start _).weaken ?_
    intro s stmt s' _ hread hcur
    rcases hread with ⟨-, h⟩ | ⟨-, h⟩
    · exact h.elim
    · obtain ⟨ts, hts, hd⟩ := h hcur
      exact ⟨false, ⟨ts, hts, .expression hd⟩, fun hf => by cases hf⟩

theorem reads_declaration_succ {depth : Nat} (hs : Reads (statement depth) TakesStmt)
    (hd : Reads (declaration depth) (Takes IsItem)) :
    Reads (declaration (depth + 1)) (Takes IsItem) := by
  have he := reads_expression (depth - 1)
  have keyword {start : Token} {kind : TokenKind} (hk : start.kind = kind)
      (hne : kind ≠ .endOfInput) {rest : Rule RawStmt}
      (h : Reads rest (TakesBehind start (IsStmt .item))) :
      Reads (advance >>= fun _ => rest) fun s stmt s' =>
        s.current = start → Takes (IsStmt .item) s stmt s' := by
    refine (reads_advance.bind fun _ => h).weaken ?_
    intro s stmt s' _ hread heq
    obtain ⟨_, m, ⟨rfl, hadv⟩, ts, hts, hd⟩ := hread
    obtain rfl := heq
    exact ⟨_, (hadv (isEnd_eq_false hk hne)).trans hts, hd⟩
  rw [declaration]
  refine (reads_recovering (P := Takes (IsStmt .item)) (reads_at fun start => ?_)).weaken ?_
  · split
    case h_1 hk => exact keyword hk (by decide) (reads_funDeclaration hd hk)
    case h_2 hk =>
      refine keyword hk (by decide) ((reads_varDeclaration he start).weaken ?_)
      intro s stmt s' _ hvar
      obtain ⟨ts, hts, hv⟩ := hvar hk
      exact ⟨ts, hts, .varDecl hv⟩
    case h_3 =>
      refine hs.weaken ?_
      intro s stmt s' _ hread _
      obtain ⟨takesElse, ⟨ts, hts, hd⟩, -⟩ := hread
      exact ⟨ts, hts, .branch hd⟩
  · intro s o s' _ hread
    obtain ⟨stmt, rfl, ts, hts, hd⟩ := hread
    exact ⟨ts, hts, stmt, rfl, hd⟩

theorem reads_statement_declaration (depth : Nat) :
    Reads (statement depth) TakesStmt ∧ Reads (declaration depth) (Takes IsItem) := by
  induction depth with
  | zero =>
    exact ⟨reads_tooDeep.weaken fun _ _ _ _ h => h.elim,
      reads_tooDeep.weaken fun _ _ _ _ h => h.elim⟩
  | succ depth ih =>
    exact ⟨reads_statement_succ ih.1 ih.2, reads_declaration_succ ih.1 ih.2⟩

end Lox.Parser

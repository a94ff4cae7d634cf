import Lox.Proofs.Syntax.Steps

/-!
# What is read as an expression

Each rule for expressions reads tokens that the grammar derives at its level, whatever rule it is given
for nested expressions, as long as that one does. The rules that nest are joined by induction on how
deep they may go.
-/

namespace Lox.Parser

open Grammar

variable {α : Type}

/-! ### Chains of operators -/

/-- The table of a chain holds the operators of a level. -/
structure ChainOf (op? : TokenKind → Option α) (build : Span → α → RawExpr → RawExpr → RawExpr)
    (operator : α → Operator) (level inner : Level) : Prop where
  tighter : level.tighter? = some inner
  operator? : ∀ k, level.operator? k = (op? k).map operator
  build : ∀ span op l r, build span op l r = (operator op).apply span l r
  proper : ∃ k op, op? k = some op

theorem chainOf_or : ChainOf orOp? .logical .logical .or .and :=
  ⟨rfl, fun k => by cases k <;> rfl, fun _ _ _ _ => rfl, .kwOr, .or, rfl⟩

theorem chainOf_and : ChainOf andOp? .logical .logical .and .equality :=
  ⟨rfl, fun k => by cases k <;> rfl, fun _ _ _ _ => rfl, .kwAnd, .and, rfl⟩

theorem chainOf_equality : ChainOf equalityOp? .binary .binary .equality .comparison :=
  ⟨rfl, fun k => by cases k <;> rfl, fun _ _ _ _ => rfl, .equal, .equal, rfl⟩

theorem chainOf_comparison : ChainOf comparisonOp? .binary .binary .comparison .term :=
  ⟨rfl, fun k => by cases k <;> rfl, fun _ _ _ _ => rfl, .less, .less, rfl⟩

theorem chainOf_term : ChainOf termOp? .binary .binary .term .factor :=
  ⟨rfl, fun k => by cases k <;> rfl, fun _ _ _ _ => rfl, .plus, .add, rfl⟩

theorem chainOf_factor : ChainOf factorOp? .binary .binary .factor .unary :=
  ⟨rfl, fun k => by cases k <;> rfl, fun _ _ _ _ => rfl, .star, .multiply, rfl⟩

theorem unaryOp?_eq (k : TokenKind) : unaryOp? k = sign? k := by
  cases k <;> rfl

theorem isEnd_of_operator? {t : Token} {level : Level} {op : Operator}
    (h : level.operator? t.kind = some op) : t.isEnd = false := by
  refine isEnd_eq_false rfl fun hk => ?_
  rw [hk] at h
  cases level <;> cases h

theorem isEnd_of_sign? {t : Token} {op : UnaryOp} (h : sign? t.kind = some op) :
    t.isEnd = false := by
  refine isEnd_eq_false rfl fun hk => ?_
  rw [hk] at h
  cases h

section

variable {op? : TokenKind → Option α} {build : Span → α → RawExpr → RawExpr → RawExpr}
  {operator : α → Operator} {level inner : Level} {operand : Rule RawExpr}

theorem ChainOf.derives (h : ChainOf op? build operator level inner) {ls rs : List Token}
    {l r : RawExpr} {t : Token} {op : α} (hl : Derives level ls l) (ht : op? t.kind = some op)
    (hr : Derives inner rs r) :
    Derives level (ls ++ t :: rs) (build (l.span.join r.span) op l r) := by
  have hspan : l.span.join r.span = spanOf (ls ++ t :: rs) := by
    rw [hl.span, hr.span, spanOf_append hl.ne_nil (List.cons_ne_nil t rs), spanOf_cons hr.ne_nil]
    rfl
  have hop : level.operator? t.kind = some (operator op) := by
    rw [h.operator?, ht]
    rfl
  rw [hspan, h.build]
  exact .binary hl hop h.tighter hr

theorem reads_chainFrom (h : ChainOf op? build operator level inner)
    (ho : Reads operand (Takes (Derives inner))) (n : Nat) (left : RawExpr) :
    Reads (chainFrom op? build operand n left) fun s e s' =>
      ∀ ls, Derives level ls left → ∃ ts, Moves s ts s' ∧ Derives level (ls ++ ts) e := by
  have hstop (left : RawExpr) : Reads (pure left : Rule RawExpr) fun s e s' =>
      ∀ ls, Derives level ls left → ∃ ts, Moves s ts s' ∧ Derives level (ls ++ ts) e := by
    refine (Reads.pure left).weaken ?_
    intro s e s' _ hread ls hl
    obtain ⟨rfl, rfl⟩ := hread
    exact ⟨[], .refl s', by rwa [List.append_nil]⟩
  -- On the turns; the left operand grows by what each of them reads.
  induction n generalizing left with
  | zero => exact hstop left
  | succ n ih =>
    rw [chainFrom]
    refine (reads_peek.bind (Q := fun k s e s' => s.current.kind = k →
      ∀ ls, Derives level ls left → ∃ ts, Moves s ts s' ∧ Derives level (ls ++ ts) e)
      fun k => ?_).weaken ?_
    · cases hop : op? k with
      | none => exact (hstop left).weaken fun _ _ _ _ hp _ => hp
      | some op =>
        refine (reads_advance.bind fun _ => ho.bind fun right => ih _).weaken ?_
        intro s e s' _ hread heq ls hl
        obtain ⟨t, m, ⟨rfl, hadv⟩, right, m', ⟨rs, hrs, hr⟩, hrest⟩ := hread
        obtain rfl := heq
        have hlevel : level.operator? s.current.kind = some (operator op) := by
          rw [h.operator?, hop]
          rfl
        have hend := isEnd_of_operator? hlevel
        obtain ⟨ts, hts, he⟩ := hrest _ (h.derives hl hop hr)
        refine ⟨[s.current] ++ (rs ++ ts), (hadv hend).trans (hrs.trans hts), ?_⟩
        simpa using he
    · intro s e s' _ hread
      obtain ⟨k, m, ⟨rfl, rfl⟩, hq⟩ := hread
      exact hq rfl

theorem reads_chain (h : ChainOf op? build operator level inner)
    (ho : Reads operand (Takes (Derives inner))) :
    Reads (chain op? build operand) (Takes (Derives level)) := by
  refine (ho.bind fun first => reads_remaining.bind fun n => reads_chainFrom h ho n first).weaken ?_
  intro s e s' _ hread
  obtain ⟨first, m, ⟨fs, hfs, hf⟩, n, m', ⟨rfl, rfl⟩, hrest⟩ := hread
  obtain ⟨ts, hts, he⟩ := hrest fs (.tighter h.tighter hf)
  exact ⟨fs ++ ts, hfs.trans hts, he⟩

end

theorem reads_disjunction {unary : Rule RawExpr} (h : Reads unary (Takes (Derives .unary))) :
    Reads (disjunction unary) (Takes (Derives .or)) :=
  reads_chain chainOf_or <| reads_chain chainOf_and <| reads_chain chainOf_equality <|
    reads_chain chainOf_comparison <| reads_chain chainOf_term <| reads_chain chainOf_factor h

/-! ### Primary expressions and calls -/

theorem reads_at {rule : Token → Rule α} {P : State → α → State → Prop}
    (h : ∀ t, Reads (rule t) fun s a s' => s.current = t → P s a s') :
    Reads (current >>= rule) P := by
  refine (reads_current.bind h).weaken ?_
  intro s a s' _ hread
  obtain ⟨t, m, ⟨rfl, rfl⟩, hp⟩ := hread
  exact hp rfl

theorem reads_single {t : Token} {e : RawExpr} (ht : t.isEnd = false) (h : Derives .primary [t] e) :
    Reads (advance >>= fun _ => pure e) fun s a s' =>
      s.current = t → Takes (Derives .primary) s a s' := by
  refine (reads_advance.bind fun _ => Reads.pure e).weaken ?_
  intro s a s' _ hread heq
  obtain ⟨_, m, ⟨rfl, hadv⟩, rfl, rfl⟩ := hread
  obtain rfl := heq
  exact ⟨_, hadv ht, h⟩

theorem reads_primary {nested : Rule RawExpr} (hn : Reads nested (Takes IsExpr)) :
    Reads (primary nested) (Takes (Derives .primary)) := by
  refine reads_at fun t => ?_
  have hlit {v : Literal} (ht : t.isEnd = false) (h : literal? t = some v) :=
    reads_single ht (.literal h)
  split
  case h_1 hk | h_2 hk | h_3 hk | h_4 hk | h_5 hk =>
    exact hlit (isEnd_eq_false hk (by decide)) (by rw [literal?, hk])
  case h_6 hk => exact reads_single (isEnd_eq_false hk (by decide)) (.varRef hk)
  case h_7 hk =>
    refine (reads_advance.bind fun _ => hn.bind fun inner =>
      (reads_expect (by decide) _).bind fun _ => (reads_spanFrom t).bind fun span =>
        Reads.pure _).weaken ?_
    intro s e s' _ hread heq
    obtain ⟨_, m, ⟨rfl, hadv⟩, inner, m₁, ⟨ts, hts, hi⟩, right, m₂, ⟨hr, hmr⟩, span, m₃, ⟨rfl, rfl⟩,
      rfl, rfl⟩ := hread
    obtain rfl := heq
    have hmoves := (hadv (isEnd_eq_false hk (by decide))).trans (hts.trans hmr)
    refine ⟨_, hmoves, ?_⟩
    rw [hmoves.join_previous]
    exact .group hk hi hr
  case h_8 =>
    refine (Reads.ite (fun _ => reads_reject _ _) fun _ => reads_unexpected _).weaken ?_
    intro s e s' _ hread
    rcases hread with ⟨-, h⟩ | ⟨-, h⟩
    · exact h.elim
    · exact h.elim

theorem reads_checkCount (count : Nat) (what : String) :
    Reads (checkCount count what) fun s _ s' => count < listLimit ∧ s' = s := by
  have hreport : Reads (do report (.tooMany what maxArguments) (← current).span)
      fun _ _ _ => False := by
    refine (reads_current.bind fun _ => reads_report _ _).weaken ?_
    intro s a s' _ hread
    obtain ⟨_, _, -, h⟩ := hread
    exact h
  refine (Reads.ite (fun _ => hreport) fun _ => Reads.pure ()).weaken ?_
  intro s a s' _ hread
  rcases hread with ⟨-, h⟩ | ⟨h, -, rfl⟩
  · exact h.elim
  · exact ⟨Nat.lt_of_not_le h, rfl⟩

def TakesList (D : List Token → α → Prop) (s : State) (as : List α) (s' : State) : Prop :=
  ∃ parts : List (List Token × α), as = parts.map Prod.snd ∧ (∀ p ∈ parts, D p.1 p.2) ∧
    parts.length ≤ listLimit ∧ ∃ ts, Moves s ts s' ∧ Separated .comma (parts.map Prod.fst) ts

/-- As many items are tried as there are tokens, so the list ends where no comma follows. -/
theorem reads_separated {D : List Token → α → Prop} (what : String) {item : Rule α}
    (hi : Reads item (Takes D)) (n taken : Nat) :
    Reads (separated what item n taken) fun s as s' => s.remaining ≤ n →
      ∃ (first : List Token × α) (rest : List (List Token × α)),
        as = (first :: rest).map Prod.snd ∧ (∀ p ∈ first :: rest, D p.1 p.2) ∧
          taken + (first :: rest).length ≤ listLimit ∧
          ∃ ts, Moves s ts s' ∧ Separated .comma ((first :: rest).map Prod.fst) ts := by
  induction n generalizing taken with
  | zero =>
    refine (Reads.pure []).weaken ?_
    intro s as s' _ _ hn
    exact absurd hn (Nat.not_succ_le_zero _)
  | succ n ih =>
    refine ((reads_checkCount taken what).bind fun _ => hi.bind fun first =>
      (reads_accept (by decide)).bind fun b => Reads.ite
        (fun _ => (ih (taken + 1)).bind fun rest => Reads.pure (first :: rest))
        fun _ => Reads.pure [first]).weaken ?_
    intro s as s' _ hread hn
    obtain ⟨_, _, ⟨hcount, rfl⟩, first, m, ⟨ts, hts, hd⟩, b, m', hb, hrest⟩ := hread
    have hlen := hts.remaining
    rcases hb with ⟨rfl, comma, hcomma, hmove⟩ | ⟨rfl, -, rfl⟩
    · rcases hrest with ⟨-, as', m'', hq, rfl, rfl⟩ | ⟨hb, -⟩
      · have hlen' := hmove.remaining
        rw [List.length_singleton] at hlen'
        obtain ⟨next, rest, rfl, hds, hbound, us, hus, hsep⟩ := hq (by omega)
        refine ⟨(ts, first), next :: rest, rfl, List.forall_mem_cons.2 ⟨hd, hds⟩, ?_,
          ts ++ (comma :: us), hts.trans (hmove.trans hus), .more hcomma hsep⟩
        rw [List.length_cons] at hbound ⊢
        rw [List.length_cons]
        omega
      · exact absurd rfl hb
    · rcases hrest with ⟨hb, -⟩ | ⟨-, rfl, rfl⟩
      · cases hb
      · exact ⟨(ts, first), [], rfl, List.forall_mem_cons.2 ⟨hd, fun _ h => absurd h List.not_mem_nil⟩,
          hcount, ts, hts, .one ts⟩

theorem reads_listed {D : List Token → α → Prop} (what : String) {item : Rule α}
    (hi : Reads item (Takes D)) : Reads (listed what item) (TakesList D) := by
  refine (reads_peek.bind fun k => Reads.ite (fun _ => Reads.pure [])
    fun _ => reads_remaining.bind fun n => reads_separated what hi n 0).weaken ?_
  intro s as s' _ hread
  obtain ⟨k, m, ⟨rfl, rfl⟩, ⟨-, rfl, rfl⟩ | ⟨-, n, m', ⟨rfl, rfl⟩, h⟩⟩ := hread
  · exact ⟨[], rfl, fun _ h => absurd h List.not_mem_nil, Nat.zero_le _, [], .refl _, .none⟩
  · obtain ⟨first, rest, has, hd, hbound, hts⟩ := h (Nat.le_refl _)
    rw [Nat.zero_add] at hbound
    exact ⟨first :: rest, has, hd, hbound, hts⟩

theorem reads_callsFrom {nested : Rule RawExpr} (hn : Reads nested (Takes IsExpr)) (n : Nat)
    (callee : RawExpr) :
    Reads (callsFrom nested n callee) fun s e s' =>
      ∀ fs, Derives .call fs callee → ∃ ts, Moves s ts s' ∧ Derives .call (fs ++ ts) e := by
  have hstop (callee : RawExpr) : Reads (pure callee : Rule RawExpr) fun s e s' =>
      ∀ fs, Derives .call fs callee → ∃ ts, Moves s ts s' ∧ Derives .call (fs ++ ts) e := by
    refine (Reads.pure callee).weaken ?_
    intro s e s' _ hread fs hf
    obtain ⟨rfl, rfl⟩ := hread
    exact ⟨[], .refl s', by rwa [List.append_nil]⟩
  -- On the turns, as for chains: the callee grows by one call.
  induction n generalizing callee with
  | zero => exact hstop callee
  | succ n ih =>
    refine ((reads_accept (by decide)).bind fun b => Reads.ite
      (fun _ => (reads_listed "arguments" hn).bind fun arguments =>
        (reads_expect (by decide) _).bind fun paren => ih _)
      fun _ => hstop callee).weaken ?_
    intro s e s' _ hread fs hf
    obtain ⟨b, m, hb, hrest⟩ := hread
    rcases hb with ⟨rfl, left, hleft, hm⟩ | ⟨rfl, -, rfl⟩
    · rcases hrest with ⟨-, arguments, m₁, ⟨parts, rfl, hd, hbound, as, has, hsep⟩, right, m₂,
        ⟨hright, hm₂⟩, hrest⟩ | ⟨hb, -⟩
      · have hcall := Derives.call hf hleft hsep hd hbound hright
        have hspan : callee.span.join right.span = spanOf (fs ++ left :: (as ++ [right])) := by
          rw [hf.span, spanOf_append hf.ne_nil (List.cons_ne_nil _ _), spanOf_concat]
          rfl
        rw [hspan] at hrest
        obtain ⟨ts, hts, he⟩ := hrest _ hcall
        refine ⟨[left] ++ (as ++ ([right] ++ ts)), hm.trans (has.trans (hm₂.trans hts)), ?_⟩
        simpa using he
      · exact absurd rfl hb
    · rcases hrest with ⟨hb, -⟩ | ⟨-, hq⟩
      · cases hb
      · exact hq fs hf

theorem reads_call {nested : Rule RawExpr} (hn : Reads nested (Takes IsExpr)) :
    Reads (call nested) (Takes (Derives .call)) := by
  refine ((reads_primary hn).bind fun callee => reads_remaining.bind fun n =>
    reads_callsFrom hn n callee).weaken ?_
  intro s e s' _ hread
  obtain ⟨callee, m, ⟨fs, hfs, hf⟩, n, m', ⟨rfl, rfl⟩, hrest⟩ := hread
  obtain ⟨ts, hts, he⟩ := hrest fs (.tighter rfl hf)
  exact ⟨fs ++ ts, hfs.trans hts, he⟩

/-! ### Levels that nest -/

theorem reads_assignTo (target : RawExpr) (equals : Token) (value : RawExpr) :
    Reads (assignTo target equals value) fun s e s' =>
      ∃ span name, target = .varRef span name () ∧ e = .assign (span.join value.span) name () value ∧
        s' = s := by
  have hreport : Reads (do report .invalidAssignmentTarget equals.span; return target)
      fun _ _ _ => False := by
    refine ((reads_report _ _).bind fun _ => Reads.pure target).weaken ?_
    intro s a s' _ hread
    obtain ⟨_, _, h, -⟩ := hread
    exact h
  unfold assignTo
  split
  · refine (Reads.pure _).weaken ?_
    intro s e s' _ hread
    obtain ⟨rfl, rfl⟩ := hread
    exact ⟨_, _, rfl, rfl, rfl⟩
  · exact hreport.weaken fun _ _ _ _ h => h.elim

theorem reads_unary_expression (depth : Nat) :
    Reads (unary depth) (Takes (Derives .unary)) ∧ Reads (expression depth) (Takes IsExpr) := by
  -- Both at once: each reads its parts by the two rules for one level less.
  induction depth with
  | zero =>
    exact ⟨reads_tooDeep.weaken fun _ _ _ _ h => h.elim,
      reads_tooDeep.weaken fun _ _ _ _ h => h.elim⟩
  | succ depth ih =>
    obtain ⟨hu, he⟩ := ih
    constructor
    · rw [unary]
      refine reads_at fun t => ?_
      split
      · rename_i op hop
        refine (reads_advance.bind fun _ => hu.bind fun operand => (reads_spanFrom t).bind
          fun span => Reads.pure _).weaken ?_
        intro s e s' _ hread heq
        obtain ⟨_, m, ⟨rfl, hadv⟩, operand, m₁, ⟨ts, hts, ho⟩, span, m₂, ⟨rfl, rfl⟩, rfl, rfl⟩ := hread
        obtain rfl := heq
        rw [unaryOp?_eq] at hop
        have hmoves := (hadv (isEnd_of_sign? hop)).trans hts
        refine ⟨_, hmoves, ?_⟩
        rw [hmoves.join_previous]
        exact .unary hop ho
      · refine (reads_call he).weaken ?_
        intro s e s' _ hread _
        obtain ⟨ts, hts, hd⟩ := hread
        exact ⟨ts, hts, .tighter rfl hd⟩
    · rw [expression]
      refine ((reads_disjunction hu).bind fun target => reads_current.bind fun equals =>
        (reads_accept (by decide)).bind fun b => Reads.ite
          (fun _ => he.bind fun value => reads_assignTo target equals value)
          fun _ => Reads.pure target).weaken ?_
      intro s e s' _ hread
      obtain ⟨target, m, ⟨ts, hts, hd⟩, _, _, ⟨-, rfl⟩, b, m₁, hb, hrest⟩ := hread
      rcases hb with ⟨rfl, equals, hequals, hm⟩ | ⟨rfl, -, rfl⟩
      · rcases hrest with ⟨-, value, m₂, ⟨vs, hvs, hv⟩, span, name, rfl, rfl, rfl⟩ | ⟨hb, -⟩
        · obtain ⟨t, rfl, hk, rfl, rfl⟩ := hd.eq_of_varRef
          refine ⟨[t] ++ ([equals] ++ vs), hts.trans (hm.trans hvs), ?_⟩
          have hspan : t.span.join value.span = spanOf (t :: equals :: vs) := by
            rw [hv.span, spanOf_cons (List.cons_ne_nil _ _), spanOf_cons hv.ne_nil]
            rfl
          rw [hspan]
          exact .assign hk hequals hv
        · exact absurd rfl hb
      · rcases hrest with ⟨hb, -⟩ | ⟨-, rfl, rfl⟩
        · cases hb
        · exact ⟨ts, hts, .tighter rfl hd⟩

theorem reads_expression (depth : Nat) : Reads (expression depth) (Takes IsExpr) :=
  (reads_unary_expression depth).2

end Lox.Parser

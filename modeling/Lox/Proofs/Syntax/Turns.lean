import Lox.Proofs.Syntax.Recognition

/-!
# Loops over tokens

The loops of a parse are given a bound on their turns, the number of the tokens that are left. It is
never the bound that ends them: a turn that goes on to another one has taken a token. So there is one
function alone that does what the turns say without any bound, and this is what the loop does.
-/

namespace Lox.Parser

open Grammar

variable {σ α β : Type}

/-! ### Turns -/

/-- What a loop does in one turn, where `again` stands for all turns that follow. -/
abbrev Turn (σ β : Type) : Type := (again : σ → Rule β) → σ → Rule β

/-- At most so many turns, and then `rest`. -/
def Turn.bounded (turn : Turn σ β) (rest : σ → Rule β) : Nat → σ → Rule β
  | 0 => rest
  | n + 1 => turn (turn.bounded rest n)

/-- A loop does what its turns say, and there is no other way to do this. -/
def Turn.IsLoop (turn : Turn σ β) (loop : σ → Rule β) : Prop :=
  ∀ other : σ → Rule β, (∀ x s, Ended s.tokens → other x s = turn other x s) ↔
    ∀ x s, Ended s.tokens → other x s = loop x s

/-- A turn goes on only when fewer tokens are left. -/
def Turn.Descends (turn : Turn σ β) : Prop :=
  ∀ (again again' : σ → Rule β) (x : σ) (s : State), Ended s.tokens →
    (∀ y m, Ended m.tokens → m.remaining < s.remaining → again y m = again' y m) →
    turn again x s = turn again' x s

namespace Turn.Descends

variable {turn : Turn σ β}

/-- No bound is used up that allows for as many turns as there are tokens left. -/
theorem bounded_eq (h : turn.Descends) {rest rest' : σ → Rule β} {n n' : Nat} {x : σ} {s : State}
    (hs : Ended s.tokens) (hn : s.remaining ≤ n) (hn' : s.remaining ≤ n') :
    turn.bounded rest n x s = turn.bounded rest' n' x s := by
  induction n generalizing n' x s with
  | zero => exact absurd hn (Nat.not_succ_le_zero _)
  | succ n ih =>
    obtain ⟨n', rfl⟩ := State.exists_succ_of_remaining_le hn'
    refine h _ _ x s hs fun y m hm hlt => ?_
    exact ih hm (by omega) (by omega)

theorem isLoop (h : turn.Descends) (rest : σ → Rule β) :
    turn.IsLoop fun x s => turn.bounded rest s.remaining x s := by
  -- A turn behind which the bound is right for whatever is left.
  have hunfold (other : σ → Rule β) {x : σ} {s : State} (hs : Ended s.tokens)
      (hother : ∀ y m, Ended m.tokens → m.remaining < s.remaining →
        other y m = turn.bounded rest m.remaining y m) :
      turn other x s = turn.bounded rest s.remaining x s := by
    refine h _ _ x s hs fun y m hm hlt => ?_
    rw [hother y m hm hlt]
    exact h.bounded_eq hm (Nat.le_refl _) (Nat.le_of_lt_succ hlt)
  intro other
  constructor
  · intro heq x s hs
    induction hk : s.remaining using Nat.strongRecOn generalizing x s with
    | ind k ih =>
      subst hk
      rw [heq x s hs]
      exact hunfold other hs fun y m hm hlt => ih m.remaining hlt y m hm rfl
  · intro heq x s hs
    rw [heq x s hs]
    exact (hunfold other hs fun y m hm _ => heq y m hm).symm

end Turn.Descends

/-! ### Sequences -/

theorem bind_congr_of_ok {rule : Rule α} {next next' : α → Rule β} {s : State}
    (h : ∀ a m, rule s = .ok a m → next a m = next' a m) : (rule >>= next) s = (rule >>= next') s := by
  cases hr : rule s with
  | ok a m => rw [bind_of_ok hr, bind_of_ok hr, h a m hr]
  | error e m => rw [bind_of_error hr, bind_of_error hr]

theorem bind_congr_left {rule rule' : Rule α} {next : α → Rule β} {s : State} (h : rule s = rule' s) :
    (rule >>= next) s = (rule' >>= next) s := by
  cases hr : rule s with
  | ok a m => rw [bind_of_ok hr, bind_of_ok (h ▸ hr)]
  | error e m => rw [bind_of_error hr, bind_of_error (h ▸ hr)]

theorem Onward.remaining_le {s s' : State} (h : Onward s s') : s'.remaining ≤ s.remaining :=
  h.tokens.length_le

theorem remaining_step_lt {s : State} (hs : Ended s.tokens) (hend : s.current.isEnd = false) :
    s.step.remaining < s.remaining := by
  have hlen := (moves_step hs hend).remaining
  rw [List.length_singleton] at hlen
  omega

/-- A rule never puts tokens back. -/
def GoesOnward (rule : Rule α) : Prop := ∀ s, Onward s (finalState (rule s))

theorem GoesOnward.of_ok {rule : Rule α} (h : GoesOnward rule) {s m : State} {a : α}
    (hr : rule s = .ok a m) : Onward s m := by
  have hon := h s
  rwa [hr] at hon

theorem onward_expect (kind : TokenKind) (expected : String) : GoesOnward (expect kind expected) := by
  intro s
  unfold expect
  split
  · exact onward_step s
  · exact .refl s

theorem onward_accept (kind : TokenKind) : GoesOnward (accept kind) := by
  intro s
  unfold accept
  split
  · exact onward_step s
  · exact .refl s

theorem remaining_lt_of_accept {kind : TokenKind} (hk : kind ≠ .endOfInput) {s m : State}
    (hs : Ended s.tokens) (h : accept kind s = .ok true m) : m.remaining < s.remaining := by
  unfold accept at h
  split at h
  · rename_i hkind
    obtain rfl : s.step = m := by cases h; rfl
    exact remaining_step_lt hs (isEnd_eq_false hkind hk)
  · cases h

/-! ### The loops of a parse -/

def skipTurn : Turn Unit Unit := fun again _ s =>
  if s.current.isEnd || s.previous.kind == .semicolon || s.current.kind.beginsStatement then .ok () s
  else again () s.step

theorem skipToBoundary_eq_bounded (n : Nat) :
    (fun _ => skipToBoundary n) = skipTurn.bounded (fun _ => pure ()) n := by
  induction n with
  | zero => rfl
  | succ n ih =>
    rw [Turn.bounded, ← ih]
    rfl

theorem descends_skipTurn : skipTurn.Descends := by
  intro again again' _ s hs hagain
  rw [skipTurn, skipTurn]
  split
  · rfl
  · rename_i hstop
    have hend : s.current.isEnd = false := by
      cases h : s.current.isEnd with
      | false => rfl
      | true => simp [h] at hstop
    exact hagain () s.step ((onward_step s).ended hs) (remaining_step_lt hs hend)

def chainTurn {α : Type} (op? : TokenKind → Option α)
    (build : Span → α → RawExpr → RawExpr → RawExpr) (operand : Rule RawExpr) : Turn RawExpr RawExpr :=
  fun again left => do
    match op? (← peek) with
    | none => return left
    | some op =>
      let _ ← advance
      let right ← operand
      again (build (left.span.join right.span) op left right)

theorem chainFrom_eq_bounded {α : Type} (op? : TokenKind → Option α)
    (build : Span → α → RawExpr → RawExpr → RawExpr) (operand : Rule RawExpr) (n : Nat) :
    chainFrom op? build operand n = (chainTurn op? build operand).bounded pure n := by
  induction n with
  | zero => rfl
  | succ n ih =>
    rw [Turn.bounded, ← ih]
    rfl

theorem descends_chainTurn {α : Type} {op? : TokenKind → Option α}
    {build : Span → α → RawExpr → RawExpr → RawExpr} {operator : α → Operator} {level inner : Level}
    {operand : Rule RawExpr} (h : ChainOf op? build operator level inner) (ho : GoesOnward operand) :
    (chainTurn op? build operand).Descends := by
  intro again again' left s hs hagain
  refine bind_congr_of_ok fun kind m hpeek => ?_
  obtain ⟨rfl, rfl⟩ : kind = s.current.kind ∧ m = s := by cases hpeek; exact ⟨rfl, rfl⟩
  cases hop : op? m.current.kind with
  | none => rfl
  | some op =>
    have hoperator : level.operator? m.current.kind = some (operator op) := by
      rw [h.operator?, hop]
      rfl
    have hend := isEnd_of_operator? hoperator
    refine bind_congr_of_ok fun _ m₁ hadvance => bind_congr_of_ok fun right m₂ hright => ?_
    obtain rfl : m.step = m₁ := by cases hadvance; rfl
    have hon := ho.of_ok hright
    have hlt := remaining_step_lt hs hend
    have hle := hon.remaining_le
    exact hagain _ m₂ (((onward_step m).trans hon).ended hs) (by omega)

def callTurn (nested : Rule RawExpr) : Turn RawExpr RawExpr := fun again callee => do
  if ← accept .leftParen then
    let arguments ← listed "arguments" nested
    let paren ← expect .rightParen "')' after arguments"
    again (.call (callee.span.join paren.span) callee arguments)
  else return callee

theorem callsFrom_eq_bounded (nested : Rule RawExpr) (n : Nat) :
    callsFrom nested n = (callTurn nested).bounded pure n := by
  induction n with
  | zero => rfl
  | succ n ih =>
    rw [Turn.bounded, ← ih]
    rfl

theorem descends_callTurn {nested : Rule RawExpr} (hn : Reads nested (Takes IsExpr)) :
    (callTurn nested).Descends := by
  intro again again' callee s hs hagain
  refine bind_congr_of_ok fun there m haccept => ?_
  cases there with
  | false => rfl
  | true =>
    refine bind_congr_of_ok fun arguments m₁ hlisted => bind_congr_of_ok fun paren m₂ hparen => ?_
    have hon₁ := (onward_accept _).of_ok haccept
    have hon₂ := GoesOnward.of_ok (reads_listed "arguments" hn).onward hlisted
    have hon₃ := (onward_expect _ _).of_ok hparen
    have hon := hon₁.trans (hon₂.trans hon₃)
    have hlt := remaining_lt_of_accept (by decide) hs haccept
    have hle := (hon₂.trans hon₃).remaining_le
    exact hagain _ m₂ (hon.ended hs) (by omega)

def listTurn {α : Type} (what : String) (item : Rule α) : Turn Nat (List α) := fun again taken => do
  checkCount taken what
  let first ← item
  if ← accept .comma then
    let rest ← again (taken + 1)
    return first :: rest
  else return [first]

theorem separated_eq_bounded {α : Type} (what : String) (item : Rule α) (n : Nat) :
    separated what item n = (listTurn what item).bounded (fun _ => pure []) n := by
  induction n with
  | zero => rfl
  | succ n ih =>
    rw [Turn.bounded, ← ih]
    rfl

theorem descends_listTurn {α : Type} (what : String) {item : Rule α} (hi : GoesOnward item) :
    (listTurn what item).Descends := by
  intro again again' taken s hs hagain
  refine bind_congr_of_ok fun _ m₁ hcount => bind_congr_of_ok fun first m₂ hfirst => ?_
  refine bind_congr_of_ok fun more m₃ haccept => ?_
  cases more with
  | false => rfl
  | true =>
    have hon₁ := GoesOnward.of_ok (reads_checkCount taken what).onward hcount
    have hon₂ := hon₁.trans (hi.of_ok hfirst)
    have hon₃ := hon₂.trans ((onward_accept _).of_ok haccept)
    have hlt := remaining_lt_of_accept (by decide) (hon₂.ended hs) haccept
    have hle := hon₂.remaining_le
    have heq : again (taken + 1) m₃ = again' (taken + 1) m₃ :=
      hagain _ m₃ (hon₃.ended hs) (by omega)
    show (again (taken + 1) >>= _) m₃ = (again' (taken + 1) >>= _) m₃
    exact bind_congr_left heq

def itemTurn (item : Rule (Option RawStmt)) : Turn Unit (List RawStmt) := fun again _ => do
  let kind ← peek
  if kind = .rightBrace ∨ kind = .endOfInput then return []
  let first ← item
  let rest ← again ()
  return first.toList ++ rest

theorem descends_itemTurn {item : Rule (Option RawStmt)} (hi : GoesOnward item)
    (hlt : ∀ {s m first}, Ended s.tokens → s.current.isEnd = false → item s = .ok first m →
      m.remaining < s.remaining) : (itemTurn item).Descends := by
  intro again again' _ s hs hagain
  refine bind_congr_of_ok fun kind m hpeek => ?_
  obtain ⟨rfl, rfl⟩ : kind = s.current.kind ∧ m = s := by cases hpeek; exact ⟨rfl, rfl⟩
  split
  · rfl
  · rename_i hstop
    have hend : m.current.isEnd = false := isEnd_eq_false rfl fun hk => hstop (Or.inr hk)
    refine bind_congr_of_ok fun first m₁ hfirst => bind_congr_left ?_
    exact hagain () m₁ ((hi.of_ok hfirst).ended hs) (hlt hs hend hfirst)

theorem blockItems_eq_bounded (item : Rule (Option RawStmt)) (n : Nat) :
    (fun _ => blockItems item n) = (itemTurn item).bounded (fun _ => pure []) n := by
  induction n with
  | zero => rfl
  | succ n ih =>
    rw [Turn.bounded, ← ih]
    rfl

/-! ### All loops -/

def ChainEnds {α : Type} (op? : TokenKind → Option α)
    (build : Span → α → RawExpr → RawExpr → RawExpr) (operand : Rule RawExpr) : Prop :=
  (chainTurn op? build operand).IsLoop fun left s => chainFrom op? build operand s.remaining left s

theorem chainEnds {α : Type} {op? : TokenKind → Option α}
    {build : Span → α → RawExpr → RawExpr → RawExpr} {operator : α → Operator} {level inner : Level}
    {operand : Rule RawExpr} (h : ChainOf op? build operator level inner)
    (ho : Reads operand (Takes (Derives inner))) : ChainEnds op? build operand := by
  simp only [ChainEnds, chainFrom_eq_bounded]
  exact (descends_chainTurn h ho.onward).isLoop pure

/-- Every loop of the rules that nest up to a depth does what its turns say and ends by itself. -/
structure LoopsEnd (depth : Nat) : Prop where
  recovery : skipTurn.IsLoop fun _ s => skipToBoundary s.remaining s
  items : (itemTurn (declaration depth)).IsLoop fun _ s => blockItems (declaration depth) s.remaining s
  parameters : (listTurn "parameters" parameter).IsLoop fun taken s =>
    separated "parameters" parameter s.remaining taken s
  arguments : (listTurn "arguments" (expression depth)).IsLoop fun taken s =>
    separated "arguments" (expression depth) s.remaining taken s
  calls : (callTurn (expression depth)).IsLoop fun callee s =>
    callsFrom (expression depth) s.remaining callee s
  chains :
    let products := chain factorOp? Expr.binary (unary depth)
    let sums := chain termOp? Expr.binary products
    let comparisons := chain comparisonOp? Expr.binary sums
    let equalities := chain equalityOp? Expr.binary comparisons
    let conjunctions := chain andOp? Expr.logical equalities
    disjunction (unary depth) = chain orOp? .logical conjunctions ∧
      ChainEnds factorOp? .binary (unary depth) ∧ ChainEnds termOp? .binary products ∧
      ChainEnds comparisonOp? .binary sums ∧ ChainEnds equalityOp? .binary comparisons ∧
      ChainEnds andOp? .logical equalities ∧ ChainEnds orOp? .logical conjunctions

theorem loopsEnd {depth : Nat}
    (hlt : ∀ {s m first}, Ended s.tokens → s.current.isEnd = false →
      declaration depth s = .ok first m → m.remaining < s.remaining) : LoopsEnd depth := by
  obtain ⟨hunary, hexpression⟩ := reads_unary_expression depth
  have hproducts := reads_chain chainOf_factor hunary
  have hsums := reads_chain chainOf_term hproducts
  have hcomparisons := reads_chain chainOf_comparison hsums
  have hequalities := reads_chain chainOf_equality hcomparisons
  have hconjunctions := reads_chain chainOf_and hequalities
  constructor
  case recovery =>
    have hbounded (n : Nat) (s : State) := congrFun (congrFun (skipToBoundary_eq_bounded n) ()) s
    simp only [hbounded]
    exact descends_skipTurn.isLoop _
  case items =>
    have hbounded (n : Nat) (s : State) :=
      congrFun (congrFun (blockItems_eq_bounded (declaration depth) n) ()) s
    simp only [hbounded]
    exact (descends_itemTurn (reads_statement_declaration depth).2.onward hlt).isLoop _
  case parameters =>
    simp only [separated_eq_bounded]
    exact (descends_listTurn _ reads_parameter.onward).isLoop _
  case arguments =>
    simp only [separated_eq_bounded]
    exact (descends_listTurn _ hexpression.onward).isLoop _
  case calls =>
    simp only [callsFrom_eq_bounded]
    exact (descends_callTurn hexpression).isLoop _
  case chains =>
    exact ⟨rfl, chainEnds chainOf_factor hunary, chainEnds chainOf_term hproducts,
      chainEnds chainOf_comparison hsums, chainEnds chainOf_equality hcomparisons,
      chainEnds chainOf_and hequalities, chainEnds chainOf_or hconjunctions⟩

end Lox.Parser

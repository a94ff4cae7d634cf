import Lox.Proofs.Syntax.Roaming
import Lox.Proofs.Syntax.TokenOrder
import Lox.Syntax.Parser.Program

/-!
# The order of faults

A parse notes its faults at the token it stands at, so from left to right. There is one exception: a
missing target is noted at its `=` when the value behind it has been read, so behind the faults that were
noted within that value without the expression being given up. This is said once of all that a run may do
to the state, and holds of a whole parse.
-/

namespace Lox.Parser

variable {α : Type} {limit : Nat} {Q : State → State → Prop} {s : State}

/-! ### Runs of statements -/

/-- What may happen between two states in the run of any rule. -/
class Strides (Q : State → State → Prop) : Prop extends Composes Q where
  step : ∀ s, Q s s.step
  note : ∀ (s : State) (error : SyntaxError), Q s (s.noting ⟨error, s.current.span⟩)
  roam : ∀ {s s'}, Roams s s' → Q s s'

namespace Strides

variable [Strides Q]

theorem expression (depth : Nat) (s : State) : Arrives Q (Parser.expression depth) s :=
  ⟨roam (arrives_expression depth s).final, (arrives_expression depth s).place⟩

theorem advance {β : Type} {next : Token → Rule β} (h : Arrives Q (next s.current) s.step) :
    Arrives Q (Parser.advance >>= next) s := .advance (step s) h

theorem expect (kind : TokenKind) (expected : String) (s : State) :
    Arrives Q (Parser.expect kind expected) s := .expect expected fun _ => step s

theorem optionally {rule : Rule α} (h : ∀ s, Arrives Q rule s) (kind : TokenKind) (s : State) :
    Arrives Q (Parser.optionally kind rule) s :=
  .accept (fun _ => ⟨step s, (h _).map some⟩) fun _ => .pure none

theorem unlessAt {rule : Rule α} (h : ∀ s, Arrives Q rule s) (kind : TokenKind) (s : State) :
    Arrives Q (Parser.unlessAt kind rule) s :=
  .peek (.ite (fun _ => .pure none) fun _ => (h _).map some)

variable {expr : Rule RawExpr} {statement : Rule RawStmt} {item : Rule (Option RawStmt)}

theorem ending {build : Span → α} (start : Token) (s : State) :
    Arrives Q (Parser.spanFrom start >>= fun span => Pure.pure (build span)) s :=
  (Arrives.spanFrom start).bind fun _ _ _ => .pure _

theorem varDeclaration (he : ∀ s, Arrives Q expr s) (start : Token) (s : State) :
    Arrives Q (Parser.varDeclaration expr start) s := by
  refine (expect _ _ s).bind fun name m _ => (optionally he _ m).bind fun initializer m _ => ?_
  exact (expect _ _ m).bind fun _ m _ => ending start m

theorem printStatement (he : ∀ s, Arrives Q expr s) (start : Token) (s : State) :
    Arrives Q (Parser.printStatement expr start) s :=
  (he s).bind fun _ m _ => (expect _ _ m).bind fun _ m _ => ending start m

theorem returnStatement (he : ∀ s, Arrives Q expr s) (start : Token) (s : State) :
    Arrives Q (Parser.returnStatement expr start) s :=
  (unlessAt he _ s).bind fun _ m _ => (expect _ _ m).bind fun _ m _ => ending start m

theorem expressionStatement (he : ∀ s, Arrives Q expr s) (start : Token) (expected : String)
    (s : State) : Arrives Q (Parser.expressionStatement expr start expected) s :=
  (he s).bind fun _ m _ => (expect _ _ m).bind fun _ m _ => ending start m

theorem blockItems (hi : ∀ s, Arrives Q item s) (n : Nat) (s : State) :
    Arrives Q (Parser.blockItems item n) s := by
  induction n generalizing s with
  | zero => exact .pure []
  | succ n ih =>
    refine .peek (.ite (fun _ => .pure []) fun _ => ?_)
    exact (hi s).bind fun first m _ => (ih m).bind fun rest _ _ => .pure _

theorem blockBody (hi : ∀ s, Arrives Q item s) (s : State) : Arrives Q (Parser.blockBody item) s :=
  .remaining ((blockItems hi _ s).bind fun items m _ => (expect _ _ m).bind fun _ _ _ => .pure items)

theorem ifStatement (he : ∀ s, Arrives Q expr s) (hs : ∀ s, Arrives Q statement s) (start : Token)
    (s : State) : Arrives Q (Parser.ifStatement expr statement start) s := by
  refine (expect _ _ s).bind fun _ m _ => (he m).bind fun condition m _ => ?_
  refine (expect _ _ m).bind fun _ m _ => (hs m).bind fun thenBranch m _ => ?_
  exact (optionally hs _ m).bind fun _ m _ => ending start m

theorem whileStatement (he : ∀ s, Arrives Q expr s) (hs : ∀ s, Arrives Q statement s) (start : Token)
    (s : State) : Arrives Q (Parser.whileStatement expr statement start) s := by
  refine (expect _ _ s).bind fun _ m _ => (he m).bind fun condition m _ => ?_
  exact (expect _ _ m).bind fun _ m _ => (hs m).bind fun body m _ => ending start m

theorem forInitializer (he : ∀ s, Arrives Q expr s) (s : State) :
    Arrives Q (Parser.forInitializer expr) s := by
  refine .current (.accept (fun _ => ⟨step s, .pure none⟩) fun _ => ?_)
  refine .accept (fun _ => ⟨step s, ?_⟩) fun _ => ?_
  · exact (varDeclaration he _ _).map some
  · exact (expressionStatement he _ _ _).map some

theorem forStatement (he : ∀ s, Arrives Q expr s) (hs : ∀ s, Arrives Q statement s) (start : Token)
    (s : State) : Arrives Q (Parser.forStatement expr statement start) s := by
  refine (expect _ _ s).bind fun _ m _ => (forInitializer he m).bind fun initializer m _ => ?_
  refine (unlessAt he _ m).bind fun condition m _ => (expect _ _ m).bind fun _ m _ => ?_
  refine (unlessAt he _ m).bind fun increment m _ => (expect _ _ m).bind fun _ m _ => ?_
  exact (hs m).bind fun body m _ => ending start m

theorem separated {rule : Rule α} (h : ∀ s, Arrives Q rule s) (what : String) (n taken : Nat)
    (s : State) : Arrives Q (Parser.separated what rule n taken) s := by
  induction n generalizing taken s with
  | zero => exact .pure []
  | succ n ih =>
    have hcount : Arrives Q (checkCount taken what) s :=
      .ite (fun _ => .current (.of_ok rfl (note s _))) fun _ => .pure ()
    refine hcount.bind fun _ m _ => (h m).bind fun first m _ => ?_
    refine .accept (fun _ => ⟨step m, ?_⟩) fun _ => .pure _
    exact (ih (taken + 1) _).bind fun rest _ _ => .pure _

theorem funDeclaration (hi : ∀ s, Arrives Q item s) (start : Token) (s : State) :
    Arrives Q (Parser.funDeclaration item start) s := by
  have hparameter (s : State) : Arrives Q Parser.parameter s :=
    (expect _ _ s).bind fun _ _ _ => .pure _
  have hlisted (s : State) : Arrives Q (Parser.listed "parameters" Parser.parameter) s :=
    .peek (.ite (fun _ => .pure []) fun _ => .remaining (separated hparameter _ _ _ s))
  refine (expect _ _ s).bind fun name m _ => (expect _ _ m).bind fun _ m _ => ?_
  refine (hlisted m).bind fun params m _ => (expect _ _ m).bind fun _ m _ => ?_
  exact (expect _ _ m).bind fun _ m _ => (blockBody hi m).bind fun body m _ => ending start m

/-! ### Recovery -/

theorem skipToBoundary (n : Nat) (s : State) : ∃ s', Parser.skipToBoundary n s = .ok () s' ∧ Q s s' := by
  induction n generalizing s with
  | zero => exact ⟨s, rfl, Composes.refl s⟩
  | succ n ih =>
    rw [Parser.skipToBoundary]
    dsimp only
    split
    · exact ⟨s, rfl, Composes.refl s⟩
    · obtain ⟨s', hr, h⟩ := ih s.step
      exact ⟨s', hr, Composes.trans (step s) h⟩

theorem recovering {rule : Rule α} (h : Arrives Q rule s) : Arrives Q (Parser.recovering rule) s := by
  have hfinal := h.final
  cases hr : rule s with
  | ok a m =>
    rw [hr] at hfinal
    have heq : Parser.recovering rule s = .ok (some a) m := by rw [Parser.recovering, hr]
    exact .of_ok heq hfinal
  | error e m =>
    rw [hr] at hfinal
    cases e with
    | rejected f =>
      have hnote : Q m (m.noting f) := by
        obtain ⟨error, span⟩ := f
        obtain rfl := h.place hr
        exact note m error
      obtain ⟨s', hskip, hs'⟩ := skipToBoundary (Q := Q) (m.noting f).remaining (m.noting f).step
      have hsync : Parser.synchronize { m with faults := f :: m.faults } = .ok () s' := hskip
      have heq : Parser.recovering rule s = .ok none s' := by
        rw [Parser.recovering, hr]
        dsimp only
        rw [hsync]
      exact .of_ok heq (Composes.trans hfinal (Composes.trans hnote (Composes.trans (step _) hs')))
    | tooDeep =>
      have heq : Parser.recovering rule s = .error .tooDeep m := by rw [Parser.recovering, hr]
      refine ⟨by rw [heq]; exact hfinal, fun he => ?_⟩
      rw [heq] at he
      cases he

theorem statement_declaration (depth : Nat) :
    (∀ s, Arrives Q (Parser.statement depth) s) ∧ ∀ s, Arrives Q (Parser.declaration depth) s := by
  induction depth with
  | zero => exact ⟨fun _ => .tooDeep, fun _ => .tooDeep⟩
  | succ depth ih =>
    obtain ⟨hs, hd⟩ := ih
    have he : ∀ s, Arrives Q (Parser.expression depth) s := expression depth
    constructor
    · intro s
      refine .current ?_
      split
      case h_1 => exact advance (printStatement he _ _)
      case h_2 => exact advance (returnStatement he _ _)
      case h_3 => exact advance (ifStatement he hs _ _)
      case h_4 => exact advance (whileStatement he hs _ _)
      case h_5 => exact advance (forStatement he hs _ _)
      case h_6 => exact advance ((blockBody hd _).bind fun body m _ => ending _ m)
      case h_7 => exact .ite (fun _ => .reject _) fun _ => expressionStatement he _ _ s
    · intro s
      refine recovering (.current ?_)
      split
      case h_1 => exact advance (funDeclaration hd _ _)
      case h_2 => exact advance (varDeclaration (expression _) _ _)
      case h_3 => exact hs s

theorem declarations (n : Nat) (s : State) : Q s (Parser.declarations limit n s).2 := by
  induction n generalizing s with
  | zero => exact Composes.refl s
  | succ n ih =>
    have hfinal := ((statement_declaration (Q := Q) limit).2 s).final
    rw [Parser.declarations]
    split
    · exact Composes.refl s
    · cases hr : Parser.declaration limit s with
      | error e m =>
        rw [hr] at hfinal
        exact Composes.trans hfinal (note m .nestingTooDeep)
      | ok accepted m =>
        rw [hr] at hfinal
        dsimp only
        split
        · exact hfinal
        · exact Composes.trans hfinal (ih m)

end Strides

/-! ### Order -/

/-- A fault `g` that has been noted behind `f` although it is in front of it: `g` is at the `=` of an
assignment without a target and `f` was noted in passing within the value, so all from the one to the
other stands in one expression. -/
structure Belated (tokens : List Token) (f g : SyntaxFault) : Prop where
  target : g.error = .invalidAssignmentTarget
  passing : InPassing f.error
  inside : ∀ t ∈ tokens, g.span.first.offset ≤ t.span.first.offset →
    t.span.first.offset < f.span.first.offset → t.kind.inExpression = true

/-- How two faults are noted one after the other. -/
def Successive (tokens : List Token) (f g : SyntaxFault) : Prop :=
  f.span.first.offset ≤ g.span.first.offset ∨ Belated tokens f g

/-- A state in the middle of a parse: all faults lie no further than the current token. -/
structure Ordered (tokens : List Token) (s : State) : Prop where
  suffix : s.tokens <:+ tokens
  behind : ∀ f ∈ s.faults, f.span.first.offset ≤ s.current.span.first.offset
  order : s.faults.Pairwise fun g f => Successive tokens f g

variable {tokens : List Token}

theorem le_of_mem_tokens (hsorted : tokens.Pairwise Token.Precedes) {m : State}
    (hm : m.tokens <:+ tokens) {t : Token} (ht : t ∈ m.tokens) :
    m.current.span.first.offset ≤ t.span.first.offset := by
  have hpairs := hsorted.sublist hm.sublist
  rw [State.tokens, List.pairwise_cons] at hpairs
  rcases List.mem_cons.mp ht with rfl | ht
  · exact Nat.le_refl _
  · exact Nat.le_of_lt (hpairs.1 t ht).1

theorem Ordered.step (hsorted : tokens.Pairwise Token.Precedes) {m : State} (h : Ordered tokens m) :
    Ordered tokens m.step := by
  have honward := onward_step m
  refine ⟨honward.tokens.trans h.suffix, fun f hf => ?_, ?_⟩
  · rw [m.faults_step] at hf
    exact Nat.le_trans (h.behind f hf)
      (le_of_mem_tokens hsorted h.suffix (honward.tokens.subset List.mem_cons_self))
  · rw [m.faults_step]
    exact h.order

theorem Ordered.note {m : State} (h : Ordered tokens m) (error : SyntaxError) :
    Ordered tokens (m.noting ⟨error, m.current.span⟩) where
  suffix := h.suffix
  behind := List.forall_mem_cons.mpr ⟨Nat.le_refl _, h.behind⟩
  order := List.pairwise_cons.mpr ⟨fun f hf => Or.inl (h.behind f hf), h.order⟩

/-- The token of a fault noted within a value, and those between it and the `=`, are all taken between the
two. -/
theorem belated_of_passage (hsorted : tokens.Pairwise Token.Precedes) {m m' : State}
    (hm : m.tokens <:+ tokens) {ts : List Token} {fs : List SyntaxFault} (h : Passage m ts fs m')
    {f : SyntaxFault} (hf : f ∈ fs) :
    Belated tokens f ⟨.invalidAssignmentTarget, m.current.span⟩ := by
  obtain ⟨hpassing, u, hu, hspan⟩ := h.noted f hf
  refine ⟨rfl, hpassing, fun t ht hlow hhigh => ?_⟩
  have hsuffix : m'.tokens <:+ tokens := (h.tokens ▸ List.suffix_append ts m'.tokens).trans hm
  obtain ⟨done, hdone⟩ := hm
  have hpairs := hdone ▸ hsorted
  rw [List.pairwise_append] at hpairs
  rw [← hdone, List.mem_append] at ht
  rcases ht with ht | ht
  · have hlt := (hpairs.2.2 t ht m.current List.mem_cons_self).1
    exact absurd hlow (Nat.not_le.mpr hlt)
  · rw [h.tokens, List.mem_append] at ht
    rcases ht with ht | ht
    · exact h.kinds t ht
    · -- Behind the way no token stands in front of the fault.
      have hle := le_of_mem_tokens hsorted hsuffix ht
      have hfault : f.span.first.offset ≤ m'.current.span.first.offset := by
        rw [hspan]
        rcases List.mem_append.mp hu with hu | hu
        · have hin := hpairs.2.1
          rw [h.tokens, List.pairwise_append] at hin
          exact Nat.le_of_lt (hin.2.2 u hu m'.current List.mem_cons_self).1
        · exact Nat.le_of_eq (by rw [List.mem_singleton.mp hu])
      omega

theorem Ordered.roam (hsorted : tokens.Pairwise Token.Precedes) {m m' : State} (h : Ordered tokens m)
    (hroam : Roams m m') : Ordered tokens m' := by
  induction hroam with
  | stay => exact h
  | take _ _ ih => exact (ih h).step hsorted
  | count _ ih => exact (ih h).note _
  | @target m n n' _ hk hvalue ih ih' =>
    have hn := ih h
    have hn' := ih' (hn.step hsorted)
    obtain ⟨us, hus⟩ := passage_step (s := n) (by rw [hk]; rfl)
    obtain ⟨ts, fs, hts⟩ := hvalue.passage
    have hpass := hus.trans hts
    have hin : n'.current ∈ n.tokens := by
      rw [hpass.tokens]
      exact List.mem_append_right _ List.mem_cons_self
    refine ⟨hn'.suffix, List.forall_mem_cons.mpr ⟨le_of_mem_tokens hsorted hn.suffix hin, hn'.behind⟩,
      List.pairwise_cons.mpr ⟨fun f hf => ?_, hn'.order⟩⟩
    rw [hpass.faults, List.mem_append] at hf
    rcases hf with hf | hf
    · exact Or.inr (belated_of_passage hsorted hn.suffix hpass hf)
    · exact Or.inl (hn.behind f hf)

theorem strides_ordered (hsorted : tokens.Pairwise Token.Precedes) :
    Strides fun s s' => Ordered tokens s → Ordered tokens s' where
  refl _ h := h
  trans h h' hs := h' (h hs)
  step _ h := h.step hsorted
  note _ error h := h.note error
  roam hroam h := h.roam hsorted hroam

theorem ordered_parseProgram (hsorted : tokens.Pairwise Token.Precedes) :
    (parseProgram limit tokens).faults.Pairwise (Successive tokens) := by
  cases tokens with
  | nil => exact .nil
  | cons t ts =>
    have hstart : Ordered (t :: ts) ⟨t, t, ts, []⟩ := ⟨List.suffix_rfl, nofun, .nil⟩
    have := strides_ordered hsorted
    have hstep : ∀ n s, Ordered (t :: ts) s → Ordered (t :: ts) (Parser.declarations limit n s).2 :=
      Strides.declarations (Q := fun s s' => Ordered (t :: ts) s → Ordered (t :: ts) s')
    have hlast := hstep (State.remaining ⟨t, t, ts, []⟩) ⟨t, t, ts, []⟩ hstart
    exact List.pairwise_reverse.mpr hlast.order

/-- The faults of a source are noted from left to right, but for the missing target of an assignment: it is
noted behind those within the value that do not give up the expression. -/
theorem faults_in_order {file source : String} {tokens : List Token} {faults : List SyntaxFault}
    (ht : Lexer.tokenize file source = .ok tokens) (hp : parse limit tokens = .error faults) :
    faults.Pairwise (Successive tokens) := by
  have horder : (parseProgram limit tokens).faults.Pairwise (Successive tokens) :=
    ordered_parseProgram (Lexer.sorted_of_tokenize ht)
  rw [parse] at hp
  split at hp
  · cases hp
  · obtain rfl := Except.error.inj hp
    exact horder

/-- Of two assignments without a target, one in the value of the other, the inner one is noted first. -/
theorem faults_in_order_nested :
    let tokens := (Lexer.scan "" "1 = 2 = 3;").tokens
    ∃ f g : SyntaxFault, Lexer.tokenize "" "1 = 2 = 3;" = .ok tokens ∧ parse 500 tokens = .error [f, g] ∧
      [f, g].Pairwise (Successive tokens) ∧ g.span.first.offset < f.span.first.offset := by
  intro tokens
  have htokens : Lexer.tokenize "" "1 = 2 = 3;" = .ok tokens :=
    Lexer.tokenize_of_no_fault (by decide +kernel)
  let fault (offset : Nat) : SyntaxFault :=
    ⟨.invalidAssignmentTarget, ⟨"", ⟨1, offset + 1, offset⟩, ⟨1, offset + 2, offset + 1⟩⟩⟩
  have hfaults : (parseProgram 500 tokens).faults = [fault 6, fault 2] := by decide +kernel
  have hparse : parse 500 tokens = .error [fault 6, fault 2] := by
    rw [parse, hfaults]
    rfl
  exact ⟨fault 6, fault 2, htokens, hparse, faults_in_order htokens hparse, by decide⟩

end Lox.Parser

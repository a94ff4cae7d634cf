import Lox.Proofs.Syntax.LeafTexts
import Lox.Proofs.Syntax.Relocation

/-!
# Trees told apart by their text

The text of the tree of a source tells it apart from those of all others, up to places and up to one
exception: an infinite number is printed like a variable.
-/

namespace Lox

variable {ρ : Type}

open Form (IsWord headed)
open Leaf (AllSpelled)

/-! ### Forms of sources -/

namespace Form

theorem wellFormed_headed {head : String} {parts : List Form} (h : IsWord head.toList)
    (hparts : WellFormedAll parts) : (headed head parts).WellFormed := ⟨h, hparts⟩

theorem wellFormedAll_map {α : Type} {f : α → Form} {xs : List α} (h : ∀ x ∈ xs, (f x).WellFormed) :
    WellFormedAll (xs.map f) := by
  induction xs with
  | nil => trivial
  | cons x xs ih =>
    obtain ⟨hx, hxs⟩ := List.forall_mem_cons.mp h
    exact ⟨hx, ih hxs⟩

end Form

theorem UnaryOp.isWord_symbol (op : UnaryOp) : IsWord op.symbol.toList := by
  cases op <;> exact .plain (by simp [symbol]) (by simp [symbol, Form.closes])

theorem BinaryOp.isWord_symbol (op : BinaryOp) : IsWord op.symbol.toList := by
  cases op <;> exact .plain (by simp [symbol]) (by simp [symbol, Form.closes])

theorem LogicalOp.isWord_symbol (op : LogicalOp) : IsWord op.symbol.toList := by
  cases op <;> exact .plain (by simp [symbol]) (by simp [symbol, Form.closes])

theorem isWord_head {head : String} (h : head ∈ ["=", "call", "group", ";", "print", "var", "block", "if",
    "while", "fun", "return"]) : IsWord head.toList := by
  simp only [List.mem_cons, List.not_mem_nil, or_false] at h
  rcases h with rfl | rfl | rfl | rfl | rfl | rfl | rfl | rfl | rfl | rfl | rfl <;>
    exact .plain (by simp) (by simp [Form.closes])

mutual

theorem Expr.wellFormed_form (e : Expr ρ) (h : AllSpelled e.leaves) : e.form.WellFormed := by
  cases e with
  | literal span v => exact Form.isWord_literal (h _ List.mem_cons_self)
  | varRef span name ref => exact Form.isWord_identifier (h _ List.mem_cons_self)
  | assign span name ref e =>
    obtain ⟨hname, he⟩ := Leaf.allSpelled_cons.mp h
    exact Form.wellFormed_headed (isWord_head (by decide))
      ⟨Form.isWord_identifier hname, Expr.wellFormed_form e he, trivial⟩
  | unary span op e => exact Form.wellFormed_headed op.isWord_symbol ⟨Expr.wellFormed_form e h, trivial⟩
  | binary span op l r | logical span op l r =>
    obtain ⟨hl, hr⟩ := Leaf.allSpelled_append.mp h
    exact Form.wellFormed_headed op.isWord_symbol
      ⟨Expr.wellFormed_form l hl, Expr.wellFormed_form r hr, trivial⟩
  | call span f args =>
    obtain ⟨hf, hargs⟩ := Leaf.allSpelled_append.mp h
    exact Form.wellFormed_headed (isWord_head (by decide))
      ⟨Expr.wellFormed_form f hf, Expr.wellFormedAll_formAll args hargs⟩
  | group span e =>
    exact Form.wellFormed_headed (isWord_head (by decide)) ⟨Expr.wellFormed_form e h, trivial⟩

theorem Expr.wellFormedAll_formAll (es : List (Expr ρ)) (h : AllSpelled (Expr.leavesAll es)) :
    Form.WellFormedAll (Expr.formAll es) := by
  cases es with
  | nil => trivial
  | cons e es =>
    obtain ⟨he, hes⟩ := Leaf.allSpelled_append.mp h
    exact ⟨Expr.wellFormed_form e he, Expr.wellFormedAll_formAll es hes⟩

end

mutual

theorem Stmt.wellFormed_form (s : Stmt ρ) (h : AllSpelled s.leaves) : s.form.WellFormed := by
  cases s with
  | expression span e | print span e =>
    exact Form.wellFormed_headed (isWord_head (by decide)) ⟨e.wellFormed_form h, trivial⟩
  | varDecl span name e =>
    cases e with
    | none =>
      exact Form.wellFormed_headed (isWord_head (by decide))
        ⟨Form.isWord_identifier (h _ List.mem_cons_self), trivial⟩
    | some e =>
      obtain ⟨hname, he⟩ := Leaf.allSpelled_cons.mp h
      exact Form.wellFormed_headed (isWord_head (by decide))
        ⟨Form.isWord_identifier hname, e.wellFormed_form he, trivial⟩
  | block span body =>
    exact Form.wellFormed_headed (isWord_head (by decide)) (Stmt.wellFormedAll_formAll body h)
  | conditional span c t e =>
    cases e with
    | none =>
      obtain ⟨hc, ht⟩ := Leaf.allSpelled_append.mp h
      exact Form.wellFormed_headed (isWord_head (by decide))
        ⟨c.wellFormed_form hc, Stmt.wellFormed_form t ht, trivial⟩
    | some e =>
      obtain ⟨hc, hte⟩ := Leaf.allSpelled_append.mp h
      obtain ⟨ht, he⟩ := Leaf.allSpelled_append.mp hte
      exact Form.wellFormed_headed (isWord_head (by decide))
        ⟨c.wellFormed_form hc, Stmt.wellFormed_form t ht, Stmt.wellFormed_form e he, trivial⟩
  | loop span c b =>
    obtain ⟨hc, hb⟩ := Leaf.allSpelled_append.mp h
    exact Form.wellFormed_headed (isWord_head (by decide))
      ⟨c.wellFormed_form hc, Stmt.wellFormed_form b hb, trivial⟩
  | funDecl span name params body =>
    obtain ⟨hname, hrest⟩ := Leaf.allSpelled_cons.mp h
    obtain ⟨hparams, hbody⟩ := Leaf.allSpelled_append.mp hrest
    refine Form.wellFormed_headed (isWord_head (by decide)) ⟨Form.isWord_identifier hname, ?_,
      Stmt.wellFormedAll_formAll body hbody⟩
    exact Form.wellFormedAll_map fun p hp =>
      Form.isWord_identifier (hparams _ (List.mem_map_of_mem hp))
  | ret span e =>
    cases e with
    | none => exact Form.wellFormed_headed (isWord_head (by decide)) trivial
    | some e => exact Form.wellFormed_headed (isWord_head (by decide)) ⟨e.wellFormed_form h, trivial⟩

theorem Stmt.wellFormedAll_formAll (ss : List (Stmt ρ)) (h : AllSpelled (Stmt.leavesAll ss)) :
    Form.WellFormedAll (Stmt.formAll ss) := by
  cases ss with
  | nil => trivial
  | cons s ss =>
    obtain ⟨hs, hss⟩ := Leaf.allSpelled_append.mp h
    exact ⟨Stmt.wellFormed_form s hs, Stmt.wellFormedAll_formAll ss hss⟩

end

/-! ### Trees of one form -/

/-- The nodes of expressions, with one kind for those that are words. -/
inductive Expr.Kind where
  | leaf
  | assign
  | unary (op : UnaryOp)
  | binary (op : BinaryOp)
  | logical (op : LogicalOp)
  | call
  | group

namespace Expr.Kind

def of : Expr ρ → Kind
  | .literal _ _ | .varRef _ _ _ => leaf
  | .assign _ _ _ _ => assign
  | .unary _ op _ => unary op
  | .binary _ op _ _ => binary op
  | .logical _ op _ _ => logical op
  | .call _ _ _ => call
  | .group _ _ => group

/-- The kind that the head of a form tells, together with the number of parts behind it. -/
def ofHead (head : List Char) (parts : Nat) : Kind :=
  match String.ofList head, parts with
  | "=", _ => assign
  | "call", _ => call
  | "group", _ => group
  | "-", 1 => unary .negate
  | "!", _ => unary .not
  | "and", _ => logical .and
  | "or", _ => logical .or
  | "+", _ => binary .add
  | "-", _ => binary .subtract
  | "*", _ => binary .multiply
  | "/", _ => binary .divide
  | "==", _ => binary .equal
  | "!=", _ => binary .notEqual
  | "<", _ => binary .less
  | "<=", _ => binary .lessEqual
  | ">", _ => binary .greater
  | ">=", _ => binary .greaterEqual
  | _, _ => leaf

def ofForm : Form → Kind
  | .node (.word head :: parts) => ofHead head parts.length
  | _ => leaf

theorem ofForm_form (e : Expr ρ) : ofForm e.form = of e := by
  cases e with
  | literal | varRef | assign | call | group => rfl
  | unary span op e => cases op <;> rfl
  | binary span op l r => cases op <;> rfl
  | logical span op l r => cases op <;> rfl

end Expr.Kind

theorem Form.headed_inj {head : String} {parts parts' : List Form} :
    headed head parts = headed head parts' ↔ parts = parts' := by
  simp only [headed, Form.node.injEq, List.cons.injEq, true_and]

/-- A leaf whose text tells what it is. -/
structure Leaf.Told (leaf : Leaf) : Prop where
  spelled : leaf.Spelled
  finite : ∀ v, leaf = .literal v → v.isInfinite = false

mutual

theorem Expr.unplaced_of_form (e e' : Expr Unit) (h : ∀ leaf ∈ e.leaves, leaf.Told)
    (h' : ∀ leaf ∈ e'.leaves, leaf.Told) (heq : e.form = e'.form) :
    e.mapSpan (fun _ => default) = e'.mapSpan fun _ => default := by
  have hkind : Kind.of e = Kind.of e' := by rw [← Kind.ofForm_form, heq, Kind.ofForm_form]
  -- Trees with the same form are of the same kind, so only pairs of one constructor remain.
  cases e with
  | literal span v =>
    obtain ⟨hv, hfinite⟩ := h _ List.mem_cons_self
    cases e' with
    | literal span' v' =>
      obtain ⟨hv', hfinite'⟩ := h' _ List.mem_cons_self
      have htext := String.toList_inj.mp (Form.word.inj heq)
      rw [Literal.render_injective hv (hfinite v rfl) hv' (hfinite' v' rfl) htext]
      rfl
    | varRef span' name' ref' =>
      have htext := String.toList_inj.mp (Form.word.inj heq)
      exact absurd htext (Literal.render_ne_name hv (hfinite v rfl) (h' _ List.mem_cons_self).spelled)
    | _ => cases hkind
  | varRef span name ref =>
    cases e' with
    | literal span' v' =>
      obtain ⟨hv', hfinite'⟩ := h' _ List.mem_cons_self
      have htext := String.toList_inj.mp (Form.word.inj heq)
      exact absurd htext.symm (Literal.render_ne_name hv' (hfinite' v' rfl) (h _ List.mem_cons_self).spelled)
    | varRef span' name' ref' =>
      rw [String.toList_inj.mp (Form.word.inj heq)]
      rfl
    | _ => cases hkind
  | assign span name ref e =>
    cases e' with
    | assign span' name' ref' e' =>
      simp only [Expr.form, Form.headed_inj, List.cons.injEq, Form.word.injEq, String.toList_inj,
        and_true] at heq
      have he := Expr.unplaced_of_form e e' (List.forall_mem_cons.mp h).2 (List.forall_mem_cons.mp h').2 heq.2
      simp only [Expr.mapSpan, heq.1, he]
    | _ => cases hkind
  | unary span op e =>
    cases e' with
    | unary span' op' e' =>
      obtain rfl := Kind.unary.inj hkind
      simp only [Expr.form, Form.headed_inj, List.cons.injEq, and_true] at heq
      simp only [Expr.mapSpan, Expr.unplaced_of_form e e' h h' heq]
    | _ => cases hkind
  | binary span op l r =>
    cases e' with
    | binary span' op' l' r' =>
      obtain rfl := Kind.binary.inj hkind
      simp only [Expr.form, Form.headed_inj, List.cons.injEq, and_true] at heq
      obtain ⟨hl, hr⟩ := List.forall_mem_append.mp h
      obtain ⟨hl', hr'⟩ := List.forall_mem_append.mp h'
      simp only [Expr.mapSpan, Expr.unplaced_of_form l l' hl hl' heq.1,
        Expr.unplaced_of_form r r' hr hr' heq.2]
    | _ => cases hkind
  | logical span op l r =>
    cases e' with
    | logical span' op' l' r' =>
      obtain rfl := Kind.logical.inj hkind
      simp only [Expr.form, Form.headed_inj, List.cons.injEq, and_true] at heq
      obtain ⟨hl, hr⟩ := List.forall_mem_append.mp h
      obtain ⟨hl', hr'⟩ := List.forall_mem_append.mp h'
      simp only [Expr.mapSpan, Expr.unplaced_of_form l l' hl hl' heq.1,
        Expr.unplaced_of_form r r' hr hr' heq.2]
    | _ => cases hkind
  | call span f args =>
    cases e' with
    | call span' f' args' =>
      simp only [Expr.form, Form.headed_inj, List.cons.injEq] at heq
      obtain ⟨hf, hargs⟩ := List.forall_mem_append.mp h
      obtain ⟨hf', hargs'⟩ := List.forall_mem_append.mp h'
      simp only [Expr.mapSpan, Expr.unplaced_of_form f f' hf hf' heq.1,
        Expr.unplacedAll_of_form args args' hargs hargs' heq.2]
    | _ => cases hkind
  | group span e =>
    cases e' with
    | group span' e' =>
      simp only [Expr.form, Form.headed_inj, List.cons.injEq, and_true] at heq
      simp only [Expr.mapSpan, Expr.unplaced_of_form e e' h h' heq]
    | _ => cases hkind

theorem Expr.unplacedAll_of_form (es es' : List (Expr Unit)) (h : ∀ leaf ∈ Expr.leavesAll es, leaf.Told)
    (h' : ∀ leaf ∈ Expr.leavesAll es', leaf.Told) (heq : Expr.formAll es = Expr.formAll es') :
    Expr.mapSpanAll (fun _ => default) es = Expr.mapSpanAll (fun _ => default) es' := by
  cases es with
  | nil =>
    cases es' with
    | nil => rfl
    | cons => cases heq
  | cons e es =>
    cases es' with
    | nil => cases heq
    | cons e' es' =>
      obtain ⟨he, hes⟩ := List.forall_mem_append.mp h
      obtain ⟨he', hes'⟩ := List.forall_mem_append.mp h'
      obtain ⟨hfirst, hrest⟩ := List.cons.inj heq
      simp only [Expr.mapSpanAll, Expr.unplaced_of_form e e' he he' hfirst,
        Expr.unplacedAll_of_form es es' hes hes' hrest]

end

/-- The nodes of statements, with the optional parts that are there. -/
inductive Stmt.Kind where
  | expression
  | print
  | varDecl (initialized : Bool)
  | block
  | conditional (withElse : Bool)
  | loop
  | funDecl
  | ret (withValue : Bool)

namespace Stmt.Kind

def of : Stmt ρ → Kind
  | .expression _ _ => expression
  | .print _ _ => print
  | .varDecl _ _ initializer => varDecl initializer.isSome
  | .block _ _ => block
  | .conditional _ _ _ elseBranch => conditional elseBranch.isSome
  | .loop _ _ _ => loop
  | .funDecl _ _ _ _ => funDecl
  | .ret _ value => ret value.isSome

def ofHead (head : List Char) (parts : Nat) : Kind :=
  match String.ofList head with
  | "print" => print
  | "var" => varDecl (parts == 2)
  | "block" => block
  | "if" => conditional (parts == 3)
  | "while" => loop
  | "fun" => funDecl
  | "return" => ret (parts == 1)
  | _ => expression

def ofForm : Form → Kind
  | .node (.word head :: parts) => ofHead head parts.length
  | _ => expression

theorem ofForm_form (s : Stmt ρ) : ofForm s.form = of s := by
  cases s with
  | expression | print | block | loop | funDecl => rfl
  | varDecl span name e | conditional span c t e | ret span e => cases e <;> rfl

end Stmt.Kind

theorem Parameter.unplaced_of_form {params params' : List Parameter}
    (h : (params.map fun p => Form.word p.name.toList) = params'.map fun p => .word p.name.toList) :
    params.map (Parameter.mapSpan fun _ => default) = params'.map (Parameter.mapSpan fun _ => default) := by
  induction params generalizing params' with
  | nil =>
    cases params' with
    | nil => rfl
    | cons => cases h
  | cons p params ih =>
    cases params' with
    | nil => cases h
    | cons p' params' =>
      simp only [List.map_cons, List.cons.injEq, Form.word.injEq, String.toList_inj] at h
      rw [List.map_cons, List.map_cons, ih h.2, mapSpan, mapSpan, h.1]

mutual

theorem Stmt.unplaced_of_form (s s' : Stmt Unit) (h : ∀ leaf ∈ s.leaves, leaf.Told)
    (h' : ∀ leaf ∈ s'.leaves, leaf.Told) (heq : s.form = s'.form) :
    s.mapSpan (fun _ => default) = s'.mapSpan fun _ => default := by
  have hkind : Kind.of s = Kind.of s' := by rw [← Kind.ofForm_form, heq, Kind.ofForm_form]
  -- As for expressions, the kind leaves only pairs of one constructor.
  cases s with
  | expression span e =>
    cases s' with
    | expression span' e' =>
      simp only [Stmt.form, Form.headed_inj, List.cons.injEq, and_true] at heq
      simp only [Stmt.mapSpan, Expr.unplaced_of_form e e' h h' heq]
    | _ => cases hkind
  | print span e =>
    cases s' with
    | print span' e' =>
      simp only [Stmt.form, Form.headed_inj, List.cons.injEq, and_true] at heq
      simp only [Stmt.mapSpan, Expr.unplaced_of_form e e' h h' heq]
    | _ => cases hkind
  | varDecl span name e =>
    cases s' with
    | varDecl span' name' e' =>
      cases e <;> cases e' <;> cases hkind
      · simp only [Stmt.form, Form.headed_inj, List.cons.injEq, Form.word.injEq, String.toList_inj,
          and_true] at heq
        simp only [Stmt.mapSpan, heq]
      · simp only [Stmt.form, Form.headed_inj, List.cons.injEq, Form.word.injEq, String.toList_inj,
          and_true] at heq
        have he := Expr.unplaced_of_form _ _ (List.forall_mem_cons.mp h).2 (List.forall_mem_cons.mp h').2 heq.2
        simp only [Stmt.mapSpan, Option.map_some, heq.1, he]
    | _ => cases hkind
  | block span body =>
    cases s' with
    | block span' body' =>
      simp only [Stmt.form, Form.headed_inj] at heq
      simp only [Stmt.mapSpan, Stmt.unplacedAll_of_form body body' h h' heq]
    | _ => cases hkind
  | conditional span c t e =>
    cases s' with
    | conditional span' c' t' e' =>
      cases e <;> cases e' <;> cases hkind
      · simp only [Stmt.form, Form.headed_inj, List.cons.injEq, and_true] at heq
        obtain ⟨hc, ht⟩ := List.forall_mem_append.mp h
        obtain ⟨hc', ht'⟩ := List.forall_mem_append.mp h'
        simp only [Stmt.mapSpan, Expr.unplaced_of_form c c' hc hc' heq.1,
          Stmt.unplaced_of_form t t' ht ht' heq.2]
      · simp only [Stmt.form, Form.headed_inj, List.cons.injEq, and_true] at heq
        obtain ⟨hc, hte⟩ := List.forall_mem_append.mp h
        obtain ⟨ht, he⟩ := List.forall_mem_append.mp hte
        obtain ⟨hc', hte'⟩ := List.forall_mem_append.mp h'
        obtain ⟨ht', he'⟩ := List.forall_mem_append.mp hte'
        simp only [Stmt.mapSpan, Expr.unplaced_of_form c c' hc hc' heq.1,
          Stmt.unplaced_of_form t t' ht ht' heq.2.1, Stmt.unplaced_of_form _ _ he he' heq.2.2]
    | _ => cases hkind
  | loop span c b =>
    cases s' with
    | loop span' c' b' =>
      simp only [Stmt.form, Form.headed_inj, List.cons.injEq, and_true] at heq
      obtain ⟨hc, hb⟩ := List.forall_mem_append.mp h
      obtain ⟨hc', hb'⟩ := List.forall_mem_append.mp h'
      simp only [Stmt.mapSpan, Expr.unplaced_of_form c c' hc hc' heq.1,
        Stmt.unplaced_of_form b b' hb hb' heq.2]
    | _ => cases hkind
  | funDecl span name params body =>
    cases s' with
    | funDecl span' name' params' body' =>
      simp only [Stmt.form, Form.headed_inj, List.cons.injEq, Form.word.injEq, Form.node.injEq,
        String.toList_inj] at heq
      obtain ⟨rfl, hparams, hbody⟩ := heq
      have hleaves := (List.forall_mem_append.mp (List.forall_mem_cons.mp h).2).2
      have hleaves' := (List.forall_mem_append.mp (List.forall_mem_cons.mp h').2).2
      simp only [Stmt.mapSpan, Parameter.unplaced_of_form hparams,
        Stmt.unplacedAll_of_form body body' hleaves hleaves' hbody]
    | _ => cases hkind
  | ret span e =>
    cases s' with
    | ret span' e' =>
      cases e <;> cases e' <;> cases hkind
      · rfl
      · simp only [Stmt.form, Form.headed_inj, List.cons.injEq, and_true] at heq
        simp only [Stmt.mapSpan, Option.map_some, Expr.unplaced_of_form _ _ h h' heq]
    | _ => cases hkind

theorem Stmt.unplacedAll_of_form (ss ss' : List (Stmt Unit)) (h : ∀ leaf ∈ Stmt.leavesAll ss, leaf.Told)
    (h' : ∀ leaf ∈ Stmt.leavesAll ss', leaf.Told) (heq : Stmt.formAll ss = Stmt.formAll ss') :
    Stmt.mapSpanAll (fun _ => default) ss = Stmt.mapSpanAll (fun _ => default) ss' := by
  cases ss with
  | nil =>
    cases ss' with
    | nil => rfl
    | cons => cases heq
  | cons s ss =>
    cases ss' with
    | nil => cases heq
    | cons s' ss' =>
      obtain ⟨hs, hss⟩ := List.forall_mem_append.mp h
      obtain ⟨hs', hss'⟩ := List.forall_mem_append.mp h'
      obtain ⟨hfirst, hrest⟩ := List.cons.inj heq
      simp only [Stmt.mapSpanAll, Stmt.unplaced_of_form s s' hs hs' hfirst,
        Stmt.unplacedAll_of_form ss ss' hss hss' hrest]

end

namespace Program

theorem unplaced_of_render {p q : Program Unit} (h : ∀ leaf ∈ p.leaves, leaf.Told)
    (h' : ∀ leaf ∈ q.leaves, leaf.Told) (heq : p.render = q.render) : p.unplaced = q.unplaced := by
  have hforms : Stmt.formAll p.statements = Stmt.formAll q.statements := by
    refine Form.row_injective (by decide : Form.closes '\n' = true) (Stmt.wellFormedAll_formAll _ ?_)
      (Stmt.wellFormedAll_formAll _ ?_) (by rw [row_form, row_form, heq])
    · exact fun leaf hleaf => (h leaf hleaf).spelled
    · exact fun leaf hleaf => (h' leaf hleaf).spelled
  exact congrArg (Program.mk default) (Stmt.unplacedAll_of_form _ _ h h' hforms)

end Program

end Lox

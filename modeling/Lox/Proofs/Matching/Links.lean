import Lox.Proofs.Matching.Alike
import Lox.Proofs.Matching.Trees

/-!
# Frames and values that match

Two programs run side by side. A link joins a frame of the first run to one of the second, with the names
of the second for those of the first. Environments are aligned if their frames are linked scope by scope,
and functions match if their bodies do in the scopes that their environments are aligned by.
-/

namespace Lox.Matching

structure Link where
  left : FrameId
  right : FrameId
  names : Equiv.Perm String

def Link.globals : Link := ⟨0, 0, Equiv.refl String⟩

/-! ### Environments -/

inductive Aligned (links : List Link) : List Step → List FrameId → List FrameId → Prop where
  | globals : Aligned links [] [0] [0]
  | both {l : Link} {σ : List Step} {fs fs' : List FrameId} :
    l ∈ links → Aligned links σ fs fs' →
      Aligned links (.both l.names :: σ) (l.left :: fs) (l.right :: fs')
  | extra (f' : FrameId) {σ : List Step} {fs fs' : List FrameId} :
    Aligned links σ fs fs' → Aligned links (.extra :: σ) fs (f' :: fs')

namespace Aligned

variable {links links' : List Link} {σ : List Step} {fs fs' : List FrameId}

theorem mono (h : Aligned links σ fs fs') (hl : links ⊆ links') : Aligned links' σ fs fs' := by
  induction h with
  | globals => exact .globals
  | both hmem _ ih => exact .both (hl hmem) ih
  | extra f' _ ih => exact .extra f' ih

theorem find? (h : Aligned links σ fs fs') {k k' : Nat} {π : Equiv.Perm String}
    (hk : Matching.find? σ k = some (k', π)) :
    ∃ l ∈ links, l.names = π ∧ fs[k]? = some l.left ∧ fs'[k']? = some l.right := by
  induction h generalizing k k' with
  | globals => cases hk
  | @both l σ fs fs' hmem _ ih =>
    cases k with
    | zero =>
      obtain ⟨rfl, rfl⟩ := Prod.mk.inj (Option.some.inj hk)
      exact ⟨l, hmem, rfl, rfl, rfl⟩
    | succ k =>
      obtain ⟨t, ht, heq⟩ := Option.map_eq_some_iff.mp hk
      obtain ⟨rfl, rfl⟩ := Prod.mk.inj heq
      exact ih ht
  | extra f' _ ih =>
    obtain ⟨t, ht, heq⟩ := Option.map_eq_some_iff.mp hk
    obtain ⟨rfl, rfl⟩ := Prod.mk.inj heq
    exact ih ht

theorem last (h : Aligned links σ fs fs') (d : FrameId) :
    fs.getLastD d = 0 ∧ fs'.getLastD d = 0 := by
  induction h generalizing d with
  | globals => exact ⟨rfl, rfl⟩
  | both _ _ ih =>
    rw [List.getLastD_cons, List.getLastD_cons]
    exact ⟨(ih _).1, (ih _).2⟩
  | extra f' _ ih =>
    rw [List.getLastD_cons]
    exact ⟨(ih d).1, (ih f').2⟩

theorem outermost {env env' : Environment} (h : Aligned links σ env.frames env'.frames) :
    env.outermost = 0 ∧ env'.outermost = 0 := by
  have hlast := h.last 0
  rw [Environment.frames, Environment.frames, List.getLastD_cons, List.getLastD_cons] at hlast
  exact hlast

theorem here? {f f' : FrameId} (h : Aligned links σ (f :: fs) (f' :: fs')) {π : Equiv.Perm String}
    (hπ : Matching.here? σ = some π) (hg : Link.globals ∈ links) :
    ∃ l ∈ links, l.names = π ∧ l.left = f ∧ l.right = f' := by
  cases h with
  | globals => exact ⟨.globals, hg, Option.some.inj hπ, rfl, rfl⟩
  | both hmem _ => exact ⟨_, hmem, Option.some.inj hπ, rfl, rfl⟩
  | extra => cases hπ

end Aligned

/-! ### Values -/

variable {wraps : Prop} {links links' : List Link}

inductive CallableMatches (wraps : Prop) (links : List Link) : Callable → Callable → Prop where
  | native (name : String) (arity : Nat) :
    CallableMatches wraps links (.native name arity) (.native name arity)
  | closure {c c' : Closure} {σ : List Step} {π : Equiv.Perm String} (hname : c.name = c'.name)
    (hparams : ParamsMatch π c.params c'.params)
    (hbody : StmtsMatch wraps (.both π :: σ) c.body c'.body)
    (henv : Aligned links σ c.env.frames c'.env.frames) :
    CallableMatches wraps links (.closure c) (.closure c')

inductive ValueMatches (wraps : Prop) (links : List Link) : Value → Value → Prop where
  | constant {v : Value} (h : v.IsConstant) : ValueMatches wraps links v v
  | function (id : Nat) {f f' : Callable} (h : CallableMatches wraps links f f') :
    ValueMatches wraps links (.function id f) (.function id f')

theorem CallableMatches.mono {f f' : Callable} (h : CallableMatches wraps links f f')
    (hl : links ⊆ links') : CallableMatches wraps links' f f' := by
  cases h with
  | native name arity => exact .native name arity
  | closure hname hparams hbody henv => exact .closure hname hparams hbody (henv.mono hl)

theorem CallableMatches.weaken {wraps' : Prop} (h : wraps → wraps') {f f' : Callable}
    (hf : CallableMatches wraps links f f') : CallableMatches wraps' links f f' := by
  cases hf with
  | native name arity => exact .native name arity
  | closure hname hparams hbody henv => exact .closure hname hparams (hbody.weaken h) henv

theorem CallableMatches.name {f f' : Callable} (h : CallableMatches wraps links f f') :
    f.name = f'.name := by
  cases h with
  | native => rfl
  | closure hname => exact hname

theorem CallableMatches.arity {f f' : Callable} (h : CallableMatches wraps links f f') :
    f.arity = f'.arity := by
  cases h with
  | native => rfl
  | closure hname hparams => exact hparams.length_eq

theorem ValueMatches.mono {v v' : Value} (h : ValueMatches wraps links v v') (hl : links ⊆ links') :
    ValueMatches wraps links' v v' := by
  cases h with
  | constant h => exact .constant h
  | function id h => exact .function id (h.mono hl)

theorem ValueMatches.weaken {wraps' : Prop} (h : wraps → wraps') {v v' : Value}
    (hv : ValueMatches wraps links v v') : ValueMatches wraps' links v v' := by
  cases hv with
  | constant hv => exact .constant hv
  | function id hf => exact .function id (hf.weaken h)

theorem ValueMatches.alike {v v' : Value} (h : ValueMatches wraps links v v') : v.Alike v' := by
  cases h with
  | constant => exact .refl v
  | function id h =>
    cases h with
    | native => exact .refl _
    | closure hname hparams => exact .closure id hname hparams.length_eq

/-! ### Frames -/

/-- The entries of linked frames, in one order. -/
abbrev EntriesMatch (wraps : Prop) (links : List Link) (π : Equiv.Perm String) :
    List (String × Value) → List (String × Value) → Prop :=
  List.Forall₂ fun e e' => e'.1 = π e.1 ∧ ValueMatches wraps links e.2 e'.2

namespace EntriesMatch

variable {π : Equiv.Perm String} {es es' : List (String × Value)}

theorem mono (h : EntriesMatch wraps links π es es') (hl : links ⊆ links') :
    EntriesMatch wraps links' π es es' :=
  h.imp fun _ _ he => ⟨he.1, he.2.mono hl⟩

theorem beq_names (name x : String) : (π name == π x) = (name == x) := by
  rw [Bool.eq_iff_iff, beq_iff_eq, beq_iff_eq, π.injective.eq_iff]

theorem lookup (h : EntriesMatch wraps links π es es') (name : String) :
    Option.Rel (ValueMatches wraps links) (es.lookup name) (es'.lookup (π name)) := by
  induction h with
  | nil => exact .none
  | @cons e e' es es' he _ ih =>
    obtain ⟨x, v⟩ := e
    obtain ⟨x', v'⟩ := e'
    obtain ⟨rfl, hv⟩ := he
    rw [List.lookup_cons, List.lookup_cons, beq_names]
    cases name == x with
    | true => exact .some hv
    | false => exact ih

theorem put (h : EntriesMatch wraps links π es es') {n n' : String} (name : String) {v v' : Value}
    (hv : ValueMatches wraps links v v') :
    EntriesMatch wraps links π (Frame.put ⟨n, es⟩ name v).values
      (Frame.put ⟨n', es'⟩ (π name) v').values := by
  have hcontains : (es'.any fun e => e.1 == π name) = es.any fun e => e.1 == name := by
    induction h with
    | nil => rfl
    | cons he _ ih => rw [List.any_cons, List.any_cons, ih, he.1, beq_names]
  unfold Frame.put Frame.contains
  rw [hcontains]
  split
  · refine List.forall₂_map_left_iff.mpr (List.forall₂_map_right_iff.mpr (h.imp fun e e' he => ?_))
    rw [he.1, beq_names]
    split
    · exact ⟨rfl, hv⟩
    · exact he
  · exact List.rel_append h (.cons ⟨rfl, hv⟩ .nil)

end EntriesMatch

end Lox.Matching

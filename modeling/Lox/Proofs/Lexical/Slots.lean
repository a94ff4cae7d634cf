import Lox.Proofs.Execution.Frames
import Lox.Proofs.Lexical.Outline
import Lox.Proofs.Scope.Accepted
import Lox.Proofs.Scope.Erasure
import Lox.Proofs.Syntax.Placement

/-!
# Frames against locations

Where no scope declares a name twice, every declaration fills a slot of its own, a name in a frame, just
as it takes a location of its own. The slots in the order in which they were filled tell which slot goes
with which location. A place sees a local name alike if the hops of the name lead to the slot of the
location that the environment has for it. Slots are only ever added, and outside of the frame that is
running only in frames that are new, so a place keeps what it sees while other code runs.
-/

namespace Lox.Lexical

abbrev Slot : Type := FrameId × String

/-! ### Places -/

/-- The hops of a name lead to the slot of the location that an environment has for it; a name without
hops is not in the environment. -/
def Located (slots : List Slot) (env : Environment) (lenv : Env) (name : String) : Option Nat → Prop
  | some hops => ∃ id l, env.frames[hops]? = some id ∧ lenv.lookup name = some l ∧
      slots[l]? = some (id, name)
  | none => lenv.lookup name = none

/-- Both environments of a place see the names that its scopes hold alike, and globals outermost. -/
structure Sees (slots : List Slot) (scopes : List (List String)) (env : Environment) (lenv : Env) :
    Prop where
  outermost : env.outermost = 0
  located : ∀ name, Located slots env lenv name (hopsIn name scopes)

theorem Located.mono {slots more : List Slot} {env : Environment} {lenv : Env} {name : String}
    {hops : Option Nat} (h : Located slots env lenv name hops) :
    Located (slots ++ more) env lenv name hops := by
  cases hops with
  | none => exact h
  | some hops =>
    obtain ⟨id, l, hid, hl, hs⟩ := h
    have hlt : l < slots.length := (List.getElem?_eq_some_iff.mp hs).1
    exact ⟨id, l, hid, hl, by rw [List.getElem?_append_left hlt, hs]⟩

theorem Sees.mono {slots more : List Slot} {scopes : List (List String)} {env : Environment}
    {lenv : Env} (h : Sees slots scopes env lenv) : Sees (slots ++ more) scopes env lenv :=
  ⟨h.outermost, fun name => (h.located name).mono⟩

theorem Sees.child {slots : List Slot} {scopes : List (List String)} {env : Environment} {lenv : Env}
    (h : Sees slots scopes env lenv) (id : FrameId) : Sees slots ([] :: scopes) (env.child id) lenv := by
  constructor
  · rw [Environment.outermost_child]
    exact h.outermost
  · intro name
    have hl := h.located name
    rw [hopsIn_cons_of_not_mem List.not_mem_nil]
    cases hh : hopsIn name scopes with
    | none =>
      rw [hh] at hl
      exact hl
    | some hops =>
      rw [hh] at hl
      exact hl

theorem Sees.declare {slots : List Slot} {scopes : List (List String)} {env : Environment} {lenv : Env}
    (h : Sees slots scopes env lenv) (hne : scopes ≠ []) (name : String) :
    Sees (slots ++ [(env.frame, name)]) (extendScope [name] scopes) env
      ((name, slots.length) :: lenv) := by
  refine ⟨h.outermost, fun x => ?_⟩
  by_cases hx : x = name
  · subst hx
    rw [hopsIn_extendScope_self x hne]
    exact ⟨env.frame, slots.length, rfl, List.lookup_cons_self, by simp⟩
  · have hlookup : ((name, slots.length) :: lenv).lookup x = lenv.lookup x := by
      rw [List.lookup_cons, beq_false_of_ne hx]
    have hl : Located (slots ++ [(env.frame, name)]) env lenv x (hopsIn x scopes) :=
      (h.located x).mono
    rw [hopsIn_extendScope_of_ne hx]
    unfold Located at hl ⊢
    rw [hlookup]
    exact hl

/-! ### Functions and values -/

/-- A function and its lexical counterpart: the same text, resolved in scopes that both see alike. -/
structure ClosureLike (slots : List Slot) (c : Lox.Closure) (k : Closure) : Prop where
  name : c.name = k.name
  params : c.params = k.params
  nodup : (paramNames k.params).Nodup
  placed : Stmt.PlacedAll k.body
  body : ∃ scopes, Sees slots scopes c.env k.env ∧
    c.body = Stmt.annotateAll hopsLabel (paramNames k.params :: scopes) k.body ∧
      Stmt.AcceptedAll false (paramNames k.params :: scopes) true k.body

inductive CallableLike (slots : List Slot) : Lox.Callable → Callable → Prop
  | native (name : String) (arity : Nat) : CallableLike slots (.native name arity) (.native name arity)
  | closure {c : Lox.Closure} {k : Closure} (h : ClosureLike slots c k) :
    CallableLike slots (.closure c) (.closure k)

inductive ValueLike (slots : List Slot) : Lox.Value → Value → Prop
  | constant (l : Literal) : ValueLike slots (.ofLiteral l) (.constant l)
  | function {id : Nat} {f : Lox.Callable} {g : Callable} (h : CallableLike slots f g) :
    ValueLike slots (.function id f) (.function id g)

theorem CallableLike.mono {slots more : List Slot} {f : Lox.Callable} {g : Callable}
    (h : CallableLike slots f g) : CallableLike (slots ++ more) f g := by
  cases h with
  | native => exact .native _ _
  | closure h =>
    obtain ⟨scopes, hs, hb, ha⟩ := h.body
    exact .closure ⟨h.name, h.params, h.nodup, h.placed, scopes, hs.mono, hb, ha⟩

theorem ValueLike.mono {slots more : List Slot} {a : Lox.Value} {b : Value} (h : ValueLike slots a b) :
    ValueLike (slots ++ more) a b := by
  cases h with
  | constant l => exact .constant l
  | function h => exact .function h.mono

theorem CallableLike.name {slots : List Slot} {f : Lox.Callable} {g : Callable}
    (h : CallableLike slots f g) : f.name = g.name := by
  cases h with
  | native => rfl
  | closure h => exact h.name

theorem CallableLike.arity {slots : List Slot} {f : Lox.Callable} {g : Callable}
    (h : CallableLike slots f g) : f.arity = g.arity := by
  cases h with
  | native => rfl
  | closure h => exact congrArg List.length h.params

theorem ValueLike.outline {slots : List Slot} {a : Lox.Value} {b : Value} (h : ValueLike slots a b) :
    a.outline = b.outline := by
  cases h with
  | constant l => cases l <;> rfl
  | function h =>
    cases h with
    | native => rfl
    | @closure c k h =>
      obtain ⟨scopes, -, hb, -⟩ := h.body
      have hbody : bareBody c.body = bareBody k.body := by
        rw [hb]
        exact Stmt.mapAll_const_annotateAll none hopsLabel k.body _
      simp only [Lox.Value.outline, Value.outline, Callable.outline, h.name, h.params, hbody]

theorem valueLike_ofResult {v : Lox.Value} (h : v.IsConstant) (slots : List Slot) :
    ValueLike slots v (.ofResult v) := by
  obtain ⟨l, rfl⟩ := h
  have hl : Value.ofResult (.ofLiteral l) = .constant l := by cases l <;> rfl
  rw [hl]
  exact .constant l

end Lox.Lexical

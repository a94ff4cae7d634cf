import Lox.Proofs.Execution.Frames
import Lox.Proofs.Scope.Accepted
import Lox.Proofs.Syntax.Placement

/-!
# Sound worlds

What holds while accepted programs run: the frames around a place hold the names that the scopes there
are known to hold, for the place that is run and for the declaration of every function that a frame
holds. Names are never dropped, so what holds of a function when it is declared holds for as long as it
lives. The one reference that may find its slot empty is an assignment to a variable in its own
initializer.
-/

namespace Lox

/-! ### Assignments to a variable in its own initializer -/

section SelfAssigned

variable {ρ : Type}

def Expr.assignsOwn (name : String) (scopes : List (List String)) (initializer : Expr ρ) : Prop :=
  scopes ≠ [] ∧ FreeIn name scopes ∧ name ∈ initializer.assigned

mutual

/-- A statement declares a local variable whose initializer assigns it before it has a value. -/
def Stmt.SelfAssigns (x : String) (scopes : List (List String)) : Stmt ρ → Prop
  | .expression _ _ | .print _ _ | .ret _ _ => False
  | .varDecl _ name initializer => x = name ∧ ∃ e, initializer = some e ∧ e.assignsOwn name scopes
  | .block _ body => Stmt.SelfAssignsAll x ([] :: scopes) body
  | .conditional _ _ t none => t.SelfAssigns x scopes
  | .conditional _ _ t (some e) =>
    t.SelfAssigns x scopes ∨ e.SelfAssigns x (extendScope t.declares scopes)
  | .loop _ _ b => b.SelfAssigns x scopes
  | .funDecl _ name params body =>
    Stmt.SelfAssignsAll x (paramNames params :: extendScope [name] scopes) body

def Stmt.SelfAssignsAll (x : String) (scopes : List (List String)) : List (Stmt ρ) → Prop
  | [] => False
  | s :: ss => s.SelfAssigns x scopes ∨ Stmt.SelfAssignsAll x (extendScope s.declares scopes) ss

end

def Program.SelfAssigns (x : String) (p : Program ρ) : Prop := Stmt.SelfAssignsAll x [] p.statements

end SelfAssigned

/-! ### Places -/

variable {redeclare : Bool} {own : String → Prop}

/-- A name has a value so many frames out from an environment. -/
def Store.Holds (s : Store) (env : Environment) (hops : Nat) (name : String) : Prop :=
  ∃ id, env.frames[hops]? = some id ∧ (s.slot? id name).isSome

def Store.Covers (s : Store) (scopes : List (List String)) (env : Environment) : Prop :=
  env.frame < s.size ∧ ∀ name hops, hopsIn name scopes = some hops → s.Holds env hops name

/-- References find their slots filled, but for assignments of certain names in the innermost frame. -/
def Store.Resolves (own : String → Prop) (s : Store) (env : Environment)
    (rs : List (Reference (Option Nat))) : Prop :=
  ∀ r ∈ rs, ∀ hops, r.ref = some hops →
    s.Holds env hops r.name ∨ (r.assigns = true ∧ hops = 0 ∧ own r.name)

/-- No frame and no name of a store is missing in a later one. -/
structure Store.Grows (s t : Store) : Prop where
  size : s.size ≤ t.size
  slots : ∀ id name, (s.slot? id name).isSome → (t.slot? id name).isSome

theorem Store.Grows.refl (s : Store) : s.Grows s := ⟨Nat.le_refl _, fun _ _ h => h⟩

theorem Store.Grows.trans {s t u : Store} (h : s.Grows t) (h' : t.Grows u) : s.Grows u :=
  ⟨Nat.le_trans h.size h'.size, fun id name hs => h'.slots id name (h.slots id name hs)⟩

theorem Store.Holds.mono {s t : Store} {env : Environment} {hops : Nat} {name : String}
    (h : s.Holds env hops name) (hg : s.Grows t) : t.Holds env hops name := by
  obtain ⟨id, hid, hs⟩ := h
  exact ⟨id, hid, hg.slots id name hs⟩

theorem Store.Covers.mono {s t : Store} {scopes : List (List String)} {env : Environment}
    (h : s.Covers scopes env) (hg : s.Grows t) : t.Covers scopes env :=
  ⟨Nat.lt_of_lt_of_le h.1 hg.size, fun name hops hh => (h.2 name hops hh).mono hg⟩

theorem Store.Resolves.mono {s t : Store} {env : Environment} {rs : List (Reference (Option Nat))}
    (h : s.Resolves own env rs) (hg : s.Grows t) : t.Resolves own env rs := by
  intro r hr hops hh
  rcases h r hr hops hh with hs | ho
  · exact Or.inl (hs.mono hg)
  · exact Or.inr ho

theorem Store.resolves_append_iff {s : Store} {env : Environment}
    {rs ts : List (Reference (Option Nat))} :
    s.Resolves own env (rs ++ ts) ↔ s.Resolves own env rs ∧ s.Resolves own env ts := by
  simp only [Store.Resolves, List.forall_mem_append]

theorem Store.grows_alloc (s : Store) (name : String) : s.Grows (s.alloc name).2 := by
  constructor
  · rw [size_alloc]
    omega
  · intro id x h
    rwa [slot?_alloc]

theorem Store.grows_define {s : Store} {id : FrameId} (hid : id < s.size) (name : String) (v : Value) :
    s.Grows (s.define id name v) := by
  constructor
  · exact size_le_define s id name v
  · intro g x h
    rw [slot?_define hid]
    split
    · rfl
    · exact h

theorem Store.Covers.alloc {s : Store} {scopes : List (List String)} {env : Environment}
    (h : s.Covers scopes env) (name : String) :
    (s.alloc name).2.Covers ([] :: scopes) (env.child (s.alloc name).1) := by
  constructor
  · show (s.alloc name).1 < (s.alloc name).2.size
    rw [size_alloc, fst_alloc]
    exact Nat.lt_succ_self s.size
  · intro x hops hh
    rw [hopsIn_cons_of_not_mem List.not_mem_nil] at hh
    obtain ⟨k, hk, rfl⟩ := Option.map_eq_some_iff.mp hh
    obtain ⟨id, hid, hs⟩ := h.2 x k hk
    exact ⟨id, hid, by rwa [slot?_alloc]⟩

theorem Store.Covers.define {s : Store} {scopes : List (List String)} {env : Environment}
    (h : s.Covers scopes env) (name : String) (v : Value) :
    (s.define env.frame name v).Covers (extendScope [name] scopes) env := by
  have hm := h.mono (grows_define h.1 name v)
  refine ⟨hm.1, fun x hops hh => ?_⟩
  by_cases hx : x = name
  · subst hx
    have hne : scopes ≠ [] := by
      intro heq
      obtain rfl := heq
      cases hh
    rw [hopsIn_extendScope_self x hne] at hh
    obtain rfl := Option.some.inj hh
    exact ⟨env.frame, rfl, by rw [slot?_define h.1, if_pos ⟨rfl, rfl⟩]; rfl⟩
  · rw [hopsIn_extendScope_of_ne hx] at hh
    exact hm.2 x hops hh

/-! ### Functions and values -/

/-- The body of a function was resolved in scopes that the frames of its environment stand for. -/
def Closure.Sound (redeclare : Bool) (own : String → Prop) (s : Store) (c : Closure) : Prop :=
  ∃ (scopes : List (List String)) (body : List (Stmt Unit)),
    c.body = Stmt.annotateAll hopsLabel (paramNames c.params :: scopes) body ∧
      Stmt.PlacedAll body ∧ Stmt.AcceptedAll redeclare (paramNames c.params :: scopes) true body ∧
        (∀ x, Stmt.SelfAssignsAll x (paramNames c.params :: scopes) body → own x) ∧
          s.Covers scopes c.env

def Callable.Sound (redeclare : Bool) (own : String → Prop) (s : Store) : Callable → Prop
  | .native _ _ => True
  | .closure c => c.Sound redeclare own s

def Value.Sound (redeclare : Bool) (own : String → Prop) (s : Store) : Value → Prop
  | .function _ f => f.Sound redeclare own s
  | .nil | .boolean _ | .number _ | .string _ => True

def Store.Sound (redeclare : Bool) (own : String → Prop) (s : Store) : Prop :=
  ∀ id name v, s.slot? id name = some v → v.Sound redeclare own s

theorem Value.Sound.mono {s t : Store} {v : Value} (h : v.Sound redeclare own s) (hg : s.Grows t) :
    v.Sound redeclare own t := by
  cases v with
  | function id f =>
    cases f with
    | native => trivial
    | closure c =>
      obtain ⟨scopes, body, hb, hp, ha, hs, hc⟩ := h
      exact ⟨scopes, body, hb, hp, ha, hs, hc.mono hg⟩
  | _ => trivial

theorem Value.sound_ofLiteral (s : Store) (l : Literal) : (ofLiteral l).Sound redeclare own s := by
  cases l <;> trivial

theorem Store.Sound.alloc {s : Store} (h : s.Sound redeclare own) (name : String) :
    (s.alloc name).2.Sound redeclare own := by
  intro id x v hv
  rw [slot?_alloc] at hv
  exact (h id x v hv).mono (grows_alloc s name)

/-- A value may enter a frame if it is sound behind its entry: a function may refer to itself. -/
theorem Store.Sound.define {s : Store} (h : s.Sound redeclare own) {id : FrameId} (hid : id < s.size)
    {name : String} {v : Value} (hv : v.Sound redeclare own (s.define id name v)) :
    (s.define id name v).Sound redeclare own := by
  intro g x u hu
  rw [slot?_define hid] at hu
  split at hu
  · obtain rfl := Option.some.inj hu
    exact hv
  · exact (h g x u hu).mono (grows_define hid name v)

end Lox

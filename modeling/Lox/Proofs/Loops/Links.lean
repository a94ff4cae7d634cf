import Lox.Proofs.Execution.Complete
import Lox.Proofs.Execution.References
import Lox.Proofs.Loops.Hops
import Lox.Proofs.Matching.Alike

/-!
# Frames of two runs

One tree is run twice, in environments that differ in frames without names. A link joins a frame of the
first run to one of the second. Each run has its own map from the hops of the tree to those it counts, and
the environments are aligned if equal hops of the tree lead to linked frames.
-/

namespace Lox.Loops

abbrev Links : Type := List (FrameId × FrameId)

/-! ### Environments -/

/-- A reference of the tree leads to linked frames, or out of the environment on both sides. -/
def Aligned (links : Links) (h h' : Nat → Nat) (env env' : Environment) : Prop :=
  ∀ ref : Option Nat, Option.Rel (fun a a' => (a, a') ∈ links) (env.target? (ref.map h))
    (env'.target? (ref.map h'))

variable {links links' : Links} {h h' : Nat → Nat} {env env' : Environment} {a a' : FrameId}

theorem target?_child_none (env : Environment) (a : FrameId) :
    (env.child a).target? none = env.target? none :=
  congrArg some (env.outermost_child a)

theorem mem_frames_of_target? {ref : Option Nat} (ha : env.target? ref = some a) :
    a ∈ env.frames := by
  cases ref with
  | some hops => exact List.mem_of_getElem? ha
  | none =>
    obtain rfl := Option.some.inj ha
    exact List.mem_of_getElem? env.getElem?_outermost

namespace Aligned

theorem mono (henv : Aligned links h h' env env') (hl : links ⊆ links') :
    Aligned links' h h' env env' := fun ref => rel_mono (henv ref) fun _ _ hmem => hl hmem

theorem refl (hself : ∀ a ∈ env.frames, (a, a) ∈ links) : Aligned links id id env env := fun ref => by
  rw [Option.map_id]
  change Option.Rel _ (env.target? ref) (env.target? ref)
  cases ha : env.target? ref with
  | some a => exact .some (hself a (mem_frames_of_target? ha))
  | none => exact .none

theorem child (henv : Aligned links h h' env env') (hmem : (a, a') ∈ links) :
    Aligned links (lift h) (lift h') (env.child a) (env'.child a') := fun ref => by
  match ref with
  | none => simpa only [Option.map_none, target?_child_none] using henv none
  | some 0 => exact .some hmem
  | some (k + 1) => exact henv (some k)

theorem childLeft (henv : Aligned links h h' env env') (a : FrameId) :
    Aligned links (fun k => h k + 1) h' (env.child a) env' := fun ref => by
  cases ref with
  | none => simpa only [Option.map_none, target?_child_none] using henv none
  | some k => exact henv (some k)

theorem childRight (henv : Aligned links h h' env env') (a' : FrameId) :
    Aligned links h (fun k => h' k + 1) env (env'.child a') := fun ref => by
  cases ref with
  | none => simpa only [Option.map_none, target?_child_none] using henv none
  | some k => exact henv (some k)

/-- A reference of the tree leads to linked frames, or both chains are too short. -/
theorem target_cases (henv : Aligned links h h' env env') (ref : Option Nat) :
    (∃ l ∈ links, env.target? (ref.map h) = some l.1 ∧ env'.target? (ref.map h') = some l.2) ∨
      ∃ k, ref = some k ∧ env.frames[h k]? = none ∧ env'.frames[h' k]? = none := by
  rcases rel_cases (henv ref) with ⟨a, a', ha, ha', hmem⟩ | ⟨ha, ha'⟩
  · exact Or.inl ⟨(a, a'), hmem, ha, ha'⟩
  · cases ref with
    | none => cases ha
    | some k => exact Or.inr ⟨k, rfl, ha, ha'⟩

end Aligned

/-! ### Values -/

/-- Functions that were declared by one tree, in aligned environments. -/
inductive CallableMatches (links : Links) : Callable → Callable → Prop where
  | native (name : String) (arity : Nat) :
    CallableMatches links (.native name arity) (.native name arity)
  | closure {h h' : Nat → Nat} {env env' : Environment} (name : String) (params : List Parameter)
    (body : List ResolvedStmt) (henv : Aligned links h h' env env') :
    CallableMatches links (.closure ⟨name, params, Stmt.rehopAll (lift h) body, env⟩)
      (.closure ⟨name, params, Stmt.rehopAll (lift h') body, env'⟩)

inductive ValueMatches (links : Links) : Value → Value → Prop where
  | constant {v : Value} (h : v.IsConstant) : ValueMatches links v v
  | function (id : Nat) {f f' : Callable} (h : CallableMatches links f f') :
    ValueMatches links (.function id f) (.function id f')

theorem CallableMatches.mono {f f' : Callable} (hf : CallableMatches links f f')
    (hl : links ⊆ links') : CallableMatches links' f f' := by
  cases hf with
  | native name arity => exact .native name arity
  | closure name params body henv => exact .closure name params body (henv.mono hl)

theorem CallableMatches.name {f f' : Callable} (hf : CallableMatches links f f') : f.name = f'.name := by
  cases hf <;> rfl

theorem CallableMatches.arity {f f' : Callable} (hf : CallableMatches links f f') :
    f.arity = f'.arity := by
  cases hf <;> rfl

theorem CallableMatches.refl {f : Callable} (hself : ∀ a ∈ f.captured, (a, a) ∈ links) :
    CallableMatches links f f := by
  cases f with
  | native name arity => exact .native name arity
  | closure c =>
    have hc := CallableMatches.closure c.name c.params c.body (Aligned.refl hself)
    simp only [lift_id, Stmt.rehopAll_id] at hc
    exact hc

namespace ValueMatches

variable {v v' : Value}

theorem mono (hv : ValueMatches links v v') (hl : links ⊆ links') : ValueMatches links' v v' := by
  cases hv with
  | constant hv => exact .constant hv
  | function id hf => exact .function id (hf.mono hl)

theorem refl (hself : ∀ a ∈ v.captured, (a, a) ∈ links) : ValueMatches links v v := by
  cases v with
  | nil => exact .constant ⟨.nil, rfl⟩
  | boolean b => exact .constant (Value.isConstant_boolean b)
  | number x => exact .constant (Value.isConstant_number x)
  | string s => exact .constant (Value.isConstant_string s)
  | function id f => exact .function id (CallableMatches.refl hself)

theorem callable {i j : Nat} {f f' : Callable}
    (hv : ValueMatches links (.function i f) (.function j f')) : CallableMatches links f f' := by
  cases hv with
  | constant hv =>
    obtain ⟨l, hl⟩ := hv
    cases l <;> cases hl
  | function _ hf => exact hf

theorem alike (hv : ValueMatches links v v') : v.Alike v' := by
  cases hv with
  | constant => exact .refl v
  | function id hf =>
    cases hf with
    | native => exact .refl _
    | closure => exact .closure id rfl rfl

end ValueMatches

end Lox.Loops

import Lox.Proofs.Execution.References
import Lox.Proofs.Execution.Rooms

/-!
# Histories of frames

Frames are made, linked and written to in any order, and one frame is reached from many others, over as
many links as lie between. What such a history says is told without the frames themselves: which frames
there are and how they are linked, what was written last to a name, and why a reference is refused.
-/

namespace Lox.History

/-! ### Operations -/

/-- What is done with frames. A frame is known by the number of those made before it; a reference leads
so many frames out, or to the outermost one. -/
inductive Operation where
  | new (frameName : String)
  | child (f : Nat) (frameName : String)
  | define (f : Nat) (name : String) (v : Value)
  | read (f : Nat) (ref : Option Nat) (name : String) (span : Span)
  | assign (f : Nat) (ref : Option Nat) (name : String) (span : Span) (v : Value)

/-- The frame that an operation starts from. -/
def Operation.frame? : Operation → Option Nat
  | .new _ => none
  | .child f _ | .define f _ _ | .read f _ _ _ | .assign f _ _ _ _ => some f

/-- The value that was read, if there is one, or why it failed. -/
abbrev Answer : Type := Except Stop (Option Value)

/-- The world, and the environments that start at the frames made so far. -/
structure Frames where
  world : World := {}
  environments : List Environment := []

namespace Frames

def environment (s : Frames) (f : Nat) : Environment := s.environments[f]?.getD default

def make (s : Frames) (name : String) (env : FrameId → Environment) : Answer × Frames :=
  let (id, store) := s.world.store.alloc name
  (.ok none, ⟨{ s.world with store := store }, s.environments ++ [env id]⟩)

/-- The frames with a value written to a name. -/
def write (s : Frames) (g : Nat) (name : String) (v : Value) : Frames :=
  { s with world := { s.world with store := s.world.store.define g name v } }

@[simp] theorem store_write (s : Frames) (g : Nat) (name : String) (v : Value) :
    (s.write g name v).world.store = s.world.store.define g name v := rfl

def act (s : Frames) (m : Run (Option Value)) : Answer × Frames :=
  match m.run .vast s.world with
  | .ok a w => (.ok a, { s with world := w })
  | .error stop w => (.error stop, { s with world := w })

/-- An operation as an evaluation does it where there is room. -/
def perform (s : Frames) : Operation → Answer × Frames
  | .new name => s.make name fun id => ⟨id, []⟩
  | .child f name => s.make name (s.environment f).child
  | .define f name v => s.act do
    Run.define (s.environment f) name v
    return none
  | .read f ref name span => s.act do
    let v ← Run.read (s.environment f) name ref span
    return some v
  | .assign f ref name span v => s.act do
    Run.assign (s.environment f) name ref span v
    return none

end Frames

/-! ### What a history says -/

/-- A frame as it was made: its name, and the frame around it. -/
structure Made where
  name : String
  enclosing : Option Nat

def made? : Operation → Option Made
  | .new name => some ⟨name, none⟩
  | .child f name => some ⟨name, some f⟩
  | _ => none

/-- The frames in the order in which they were made. -/
def made (ops : List Operation) : List Made := ops.filterMap made?

def nameOf (frames : List Made) (f : Nat) : String := (frames[f]?.map Made.name).getD ""

/-- The frame that lies so many links out. -/
def outward (frames : List Made) (f : Nat) : Nat → Option Nat
  | 0 => some f
  | hops + 1 => (frames[f]?.bind Made.enclosing).bind fun g => outward frames g hops

/-- A reference at the frame `f` leads to the frame `g`: it lies that many links out, or is the last of
the chain. -/
def Leads (frames : List Made) (f : Nat) (ref : Option Nat) (g : Nat) : Prop :=
  match ref with
  | some hops => outward frames f hops = some g
  | none => ∃ hops, outward frames f hops = some g ∧ outward frames f (hops + 1) = none

/-- An operation with its answer writes a value to a name in the frame `g`: a definition there, or an
assignment through any frame that has not failed. -/
def Writes (frames : List Made) (g : Nat) (name : String) (step : Operation × Answer) (v : Value) :
    Prop :=
  match step with
  | (.define f x u, _) => f = g ∧ x = name ∧ u = v
  | (.assign f ref x _ u, .ok _) => Leads frames f ref g ∧ x = name ∧ u = v
  | _ => False

/-- The value that was written last. -/
def LastWritten (frames : List Made) (g : Nat) (name : String) (steps : List (Operation × Answer))
    (v : Value) : Prop :=
  ∃ before step later, steps = before ++ step :: later ∧ Writes frames g name step v ∧
    ∀ s ∈ later, ∀ u, ¬ Writes frames g name s u

def Defined (ops : List Operation) (g : Nat) (name : String) : Prop := ∃ v, .define g name v ∈ ops

/-- Why a reference at the frame `f` fails: the chain is too short for it, or the name has never been
defined where it leads to. -/
inductive Refused (ops : List Operation) (f : Nat) (name : String) (span : Span) :
    Option Nat → Stop → Prop where
  | tooShort {hops : Nat} (h : outward (made ops) f hops = none) :
    Refused ops f name span (some hops) (.defect (.chainTooShort hops (nameOf (made ops) f)))
  | unbound {hops g : Nat} (h : outward (made ops) f hops = some g) (hd : ¬ Defined ops g name) :
    Refused ops f name span (some hops) (.defect (.unbound name (nameOf (made ops) g) hops))
  | undefined {g : Nat} (h : Leads (made ops) f none g) (hd : ¬ Defined ops g name) :
    Refused ops f name span none (.error (.undefinedVariable name) span)

/-- Every operation starts from a frame that has been made before. -/
inductive Valid : List Operation → Prop where
  | nil : Valid []
  | concat {ops : List Operation} {op : Operation} (h : Valid ops)
    (hf : ∀ f ∈ op.frame?, f < (made ops).length) : Valid (ops ++ [op])

/-! ### Histories from the start -/

/-- The frames behind some operations, and the operations with their answers. -/
def run (ops : List Operation) : Frames × List (Operation × Answer) :=
  ops.foldl (fun r op => ((r.1.perform op).2, r.2 ++ [(op, (r.1.perform op).1)])) ({}, [])

def state (ops : List Operation) : Frames := (run ops).1

def steps (ops : List Operation) : List (Operation × Answer) := (run ops).2

theorem state_concat (ops : List Operation) (op : Operation) :
    state (ops ++ [op]) = ((state ops).perform op).2 := by
  rw [state, run, List.foldl_concat]
  rfl

theorem steps_concat (ops : List Operation) (op : Operation) :
    steps (ops ++ [op]) = steps ops ++ [(op, ((state ops).perform op).1)] := by
  rw [steps, run, List.foldl_concat]
  rfl

variable {ops : List Operation} {op : Operation} {frames : List Made} {f g : Nat} {name : String}
  {ref : Option Nat} {span : Span} {v : Value}

theorem made_concat (ops : List Operation) (op : Operation) :
    made (ops ++ [op]) = made ops ++ (made? op).toList := by
  rw [made, made, List.filterMap_append]
  cases h : made? op <;> simp [h]

theorem frame?_of_made {m : Made} (h : made? op = some m) : op.frame? = m.enclosing := by
  cases op with
  | new | child => cases h; rfl
  | define | read | assign => exact nomatch h

theorem not_writes_of_made {m : Made} (h : made? op = some m) (answer : Answer) :
    ¬ Writes frames g name (op, answer) v := by
  cases op with
  | new | child => exact id
  | define | read | assign => exact nomatch h

theorem defined_concat : Defined (ops ++ [op]) g name ↔
    Defined ops g name ∨ ∃ v, op = .define g name v := by
  simp only [Defined, List.mem_append, List.mem_singleton, exists_or, eq_comm]

theorem lastWritten_concat {steps : List (Operation × Answer)} {step : Operation × Answer} :
    LastWritten frames g name (steps ++ [step]) v ↔
      Writes frames g name step v ∨
        LastWritten frames g name steps v ∧ ∀ u, ¬ Writes frames g name step u := by
  constructor
  · rintro ⟨before, last, later, heq, hw, hnone⟩
    rcases List.eq_nil_or_concat later with rfl | ⟨later, final, rfl⟩
    · obtain ⟨-, hlast⟩ := List.append_inj' heq rfl
      obtain rfl := List.singleton_injective hlast
      exact Or.inl hw
    · rw [List.concat_eq_append, ← List.cons_append, ← List.append_assoc] at heq
      obtain ⟨rfl, hlast⟩ := List.append_inj' heq rfl
      obtain rfl := List.singleton_injective hlast
      rw [List.concat_eq_append, List.forall_mem_append] at hnone
      exact Or.inr ⟨⟨before, last, later, rfl, hw, hnone.1⟩, hnone.2 step List.mem_cons_self⟩
  · rintro (hw | ⟨⟨before, last, later, rfl, hw, hnone⟩, hstep⟩)
    · exact ⟨steps, step, [], rfl, hw, fun s hs => absurd hs List.not_mem_nil⟩
    · refine ⟨before, last, later ++ [step], List.append_assoc .., hw, ?_⟩
      rw [List.forall_mem_append]
      exact ⟨hnone, List.forall_mem_singleton.mpr hstep⟩

/-! ### More frames -/

/-- The frame around a frame was made before it. -/
def Ordered (frames : List Made) : Prop :=
  ∀ (f : Nat) (m : Made), frames[f]? = some m → ∀ g ∈ m.enclosing, g < f

theorem Ordered.concat {m : Made} (h : Ordered frames) (hm : ∀ g ∈ m.enclosing, g < frames.length) :
    Ordered (frames ++ [m]) := by
  intro f m' hf g hg
  rcases Nat.lt_or_ge f frames.length with hlt | hge
  · rw [List.getElem?_append_left hlt] at hf
    exact h f m' hf g hg
  · rw [List.getElem?_append_right hge] at hf
    obtain ⟨hidx, rfl⟩ := List.getElem?_eq_some_iff.mp hf
    rw [List.getElem_singleton] at hg
    exact Nat.lt_of_lt_of_le (hm g hg) hge

theorem outward_lt (h : Ordered frames) (hf : f < frames.length) {hops : Nat}
    (hg : outward frames f hops = some g) : g < frames.length := by
  induction hops generalizing f with
  | zero => exact Option.some.inj hg ▸ hf
  | succ hops ih =>
    obtain ⟨outer, houter, hg⟩ := Option.bind_eq_some_iff.mp hg
    obtain ⟨m, hm, henc⟩ := Option.bind_eq_some_iff.mp houter
    exact ih (Nat.lt_trans (h f m hm outer henc) hf) hg

theorem outward_append (h : Ordered frames) (hf : f < frames.length) (more : List Made) (hops : Nat) :
    outward (frames ++ more) f hops = outward frames f hops := by
  induction hops generalizing f with
  | zero => rfl
  | succ hops ih =>
    rw [outward, outward, List.getElem?_append_left hf]
    refine Option.bind_congr fun outer houter => ?_
    obtain ⟨m, hm, henc⟩ := Option.bind_eq_some_iff.mp houter
    exact ih (Nat.lt_trans (h f m hm outer henc) hf)

theorem leads_append (h : Ordered frames) (hf : f < frames.length) (more : List Made) :
    Leads (frames ++ more) f ref g ↔ Leads frames f ref g := by
  cases ref with
  | some hops => rw [Leads, Leads, outward_append h hf]
  | none => simp only [Leads, outward_append h hf]

theorem writes_append (h : Ordered frames) {step : Operation × Answer}
    (hstep : ∀ f ∈ step.1.frame?, f < frames.length) (more : List Made) :
    Writes (frames ++ more) g name step v ↔ Writes frames g name step v := by
  obtain ⟨op, answer⟩ := step
  cases op with
  | assign f ref x span u =>
    cases answer with
    | ok a => exact and_congr_left fun _ => leads_append h (hstep f rfl) more
    | error stop => exact Iff.rfl
  | new | child | define | read => exact Iff.rfl

theorem lastWritten_append (h : Ordered frames) {steps : List (Operation × Answer)}
    (hsteps : ∀ step ∈ steps, ∀ f ∈ step.1.frame?, f < frames.length) (more : List Made) :
    LastWritten (frames ++ more) g name steps v ↔ LastWritten frames g name steps v := by
  refine exists_congr fun before => exists_congr fun step => exists_congr fun later =>
    and_congr_right fun heq => ?_
  subst heq
  refine and_congr (writes_append h (hsteps step (by simp)) more) ?_
  exact forall₂_congr fun s hs => forall_congr' fun u =>
    not_congr (writes_append h (hsteps s (by simp [hs])) more)

theorem nameOf_append (hf : f < frames.length) (more : List Made) :
    nameOf (frames ++ more) f = nameOf frames f := by
  rw [nameOf, nameOf, List.getElem?_append_left hf]

end Lox.History

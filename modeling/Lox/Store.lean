import Lox.Value

/-!
# The store of frames

A store holds the frames made so far and the values that names have in them. Local names are read
and assigned a fixed number of frames out, globals in the outermost frame. Only `define` adds a name
to a frame; reading or assigning a name that is not there fails and leaves the store as it is.
-/

namespace Lox

/-! ### Faults -/

/-- A resolved place that does not exist at run time: programs whose declarations are in order meet
none, so this is no error of a program. -/
inductive Defect where
  | chainTooShort (depth : Int) (frame : String)
  | unbound (name frame : String) (depth : Int)
  | strayReturn
deriving DecidableEq, Repr, Inhabited

def Defect.message : Defect → String
  | chainTooShort depth frame =>
    "Scope depth " ++ toString depth ++ " exceeds frame chain from '" ++ frame ++ "'"
  | unbound name frame depth =>
    "Resolved variable '" ++ name ++ "' missing from frame '" ++ frame ++ "' at depth " ++
      toString depth
  | strayReturn => "'return' escaped to top level"

/-! ### Frames -/

/-- The values of names; a name occurs once. -/
structure Frame where
  name : String
  values : List (String × Value) := []
deriving Inhabited

namespace Frame

def contains (f : Frame) (name : String) : Bool := f.values.any fun e => e.1 == name

def get? (f : Frame) (name : String) : Option Value := f.values.lookup name

def put (f : Frame) (name : String) (v : Value) : Frame :=
  if f.contains name then
    { f with values := f.values.map fun e => if e.1 == name then (name, v) else e }
  else { f with values := f.values ++ [(name, v)] }

def names (f : Frame) : List String :=
  (f.values.map Prod.fst).mergeSort fun a b => decide (a ≤ b)

theorem lookup_isSome_iff (name : String) (entries : List (String × Value)) :
    (entries.lookup name).isSome = entries.any fun e => e.1 == name := by
  induction entries with
  | nil => rfl
  | cons e entries ih =>
    obtain ⟨k, v⟩ := e
    by_cases h : name = k
    · subst h
      simp
    · have h1 : (name == k) = false := beq_false_of_ne h
      have h2 : (k == name) = false := beq_false_of_ne (Ne.symm h)
      simp [List.lookup_cons, h1, h2, ih]

theorem isSome_get? (f : Frame) (name : String) : (f.get? name).isSome = f.contains name :=
  lookup_isSome_iff name f.values

end Frame

/-! ### The store -/

/-- All frames made so far; a frame is known by its place. -/
structure Store where
  frames : Array Frame := #[]
deriving Inhabited

namespace Store

/-- The frame with a number; one without names where none was made. -/
def frame (s : Store) (id : FrameId) : Frame := s.frames.getD id ⟨"", []⟩

def alloc (s : Store) (name : String) : FrameId × Store :=
  (s.frames.size, { s with frames := s.frames.push ⟨name, []⟩ })

def define (s : Store) (id : FrameId) (name : String) (v : Value) : Store :=
  { s with frames := s.frames.modify id fun f => f.put name v }

def ancestor (s : Store) (env : Environment) (hops : Nat) : Except Defect FrameId :=
  match env.ancestor? hops with
  | some e => .ok e.frame
  | none => .error (.chainTooShort hops (s.frame env.frame).name)

/-- The frame that a resolved reference means; the name has a value there. -/
def slotAt (s : Store) (env : Environment) (hops : Nat) (name : String) :
    Except Defect FrameId := do
  let id ← s.ancestor env hops
  if (s.frame id).contains name then return id
  else throw (.unbound name (s.frame id).name hops)

/-- The outermost frame, if a global name has a value there. -/
def globalSlot? (s : Store) (env : Environment) (name : String) : Option FrameId :=
  if (s.frame env.outermost).contains name then some env.outermost else none

def getAt (s : Store) (env : Environment) (hops : Nat) (name : String) : Except Defect Value := do
  let id ← s.ancestor env hops
  match (s.frame id).get? name with
  | some v => return v
  | none => throw (.unbound name (s.frame id).name hops)

def assignAt (s : Store) (env : Environment) (hops : Nat) (name : String) (v : Value) :
    Except Defect Store := do
  let id ← s.slotAt env hops name
  return s.define id name v

def getGlobal? (s : Store) (env : Environment) (name : String) : Option Value :=
  (s.frame env.outermost).get? name

def assignGlobal? (s : Store) (env : Environment) (name : String) (v : Value) : Option Store :=
  (s.globalSlot? env name).map fun id => s.define id name v

theorem frame_alloc (s : Store) (name : String) :
    (s.alloc name).2.frame (s.alloc name).1 = ⟨name, []⟩ := by
  simp [alloc, frame]

theorem size_define (s : Store) (id : FrameId) (name : String) (v : Value) :
    (s.define id name v).frames.size = s.frames.size := by
  simp [define]

end Store

end Lox

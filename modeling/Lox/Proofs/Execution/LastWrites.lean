import Lox.Proofs.Execution.Histories

/-!
# The last write counts

Behind every history the frames hold what the history says of them. One lemma says what each operation
does then, and from it what the history with this operation says. So a reference finds what was written
last to the place it leads to, from wherever it was written.
-/

namespace Lox.History

variable {ops : List Operation} {op : Operation} {frames : List Made} {f g : Nat} {name : String}
  {ref : Option Nat} {span : Span} {v : Value}

/-! ### The frames tell the history -/

/-- What is in the frames is what the history says of them. -/
structure Tells (ops : List Operation) : Prop where
  ordered : Ordered (made ops)
  started : ∀ step ∈ steps ops, ∀ f ∈ step.1.frame?, f < (made ops).length
  environments : (state ops).environments.length = (made ops).length
  size : (state ops).world.store.size = (made ops).length
  links : ∀ f < (made ops).length, ∀ hops : Nat,
    ((state ops).environment f).frames[hops]? = outward (made ops) f hops
  names : ∀ f < (made ops).length, ((state ops).world.store.frame f).name = nameOf (made ops) f
  written : ∀ g name v, (state ops).world.store.slot? g name = some v ↔
    LastWritten (made ops) g name (steps ops) v
  defined : ∀ g name, ((state ops).world.store.slot? g name).isSome ↔ Defined ops g name

theorem Refused.unique {stop stop' : Stop} (h : Refused ops f name span ref stop)
    (h' : Refused ops f name span ref stop') : stop = stop' := by
  cases h with
  | tooShort hn =>
    cases h' with
    | tooShort => rfl
    | unbound hg => exact nomatch hn.symm.trans hg
  | unbound hg =>
    cases h' with
    | tooShort hn => exact nomatch hn.symm.trans hg
    | unbound hg' => rw [Option.some.inj (hg.symm.trans hg')]
  | undefined => cases h'; rfl

namespace Tells

variable {s : Frames}

theorem target? (h : Tells ops) (hf : f < (made ops).length) :
    ((state ops).environment f).target? ref = some g ↔ Leads (made ops) f ref g := by
  cases ref with
  | some hops => rw [Environment.target?, h.links f hf, Leads]
  | none =>
    rw [Environment.target?, Option.some.injEq, Environment.outermost_eq_iff]
    simp only [h.links f hf, Leads]

theorem leads_unique (h : Tells ops) (hf : f < (made ops).length) {g' : Nat}
    (hg : Leads (made ops) f ref g) (hg' : Leads (made ops) f ref g') : g = g' :=
  Option.some.inj (((h.target? hf).mpr hg).symm.trans ((h.target? hf).mpr hg'))

theorem leads_lt (h : Tells ops) (hf : f < (made ops).length) (hg : Leads (made ops) f ref g) :
    g < (made ops).length := by
  cases ref with
  | some hops => exact outward_lt h.ordered hf hg
  | none =>
    obtain ⟨hops, hg, -⟩ := hg
    exact outward_lt h.ordered hf hg

theorem frame_environment (h : Tells ops) (hf : f < (made ops).length) :
    ((state ops).environment f).frame = f :=
  Option.some.inj (h.links f hf 0)

theorem not_defined (h : Tells ops) (hn : (state ops).world.store.slot? g name = none) :
    ¬ Defined ops g name := by
  rw [← h.defined, hn]
  exact Bool.false_ne_true

theorem not_defined_of_refused (h : Tells ops) (hf : f < (made ops).length) {stop : Stop}
    (hr : Refused ops f name span ref stop) (hg : Leads (made ops) f ref g) :
    ¬ Defined ops g name := by
  cases hr with
  | tooShort hn => exact nomatch hn.symm.trans hg
  | unbound hg' hd => exact Option.some.inj (hg'.symm.trans hg) ▸ hd
  | undefined hg' hd => exact h.leads_unique hf hg' hg ▸ hd

theorem refused_missing (h : Tells ops) (hf : f < (made ops).length)
    (hg : Leads (made ops) f ref g) (hn : (state ops).world.store.slot? g name = none) :
    Refused ops f name span ref
      (Run.missing ((state ops).world.store.frame g).name name span ref) := by
  rw [h.names g (h.leads_lt hf hg)]
  cases ref with
  | some hops => exact .unbound hg (h.not_defined hn)
  | none => exact .undefined hg (h.not_defined hn)

/-! ### One operation -/

theorem exists_leads_none (h : Tells ops) (hf : f < (made ops).length) :
    ∃ g, Leads (made ops) f none g := ⟨_, (h.target? hf).mp rfl⟩

/-- A reference leads to a frame, or its chain is too short. -/
theorem leads_or_tooShort (h : Tells ops) (hf : f < (made ops).length) (ref : Option Nat) :
    (∃ g, Leads (made ops) f ref g) ∨
      ∃ hops, ref = some hops ∧ outward (made ops) f hops = none := by
  cases ref with
  | none => exact Or.inl (h.exists_leads_none hf)
  | some hops =>
    cases hg : outward (made ops) f hops with
    | some g => exact Or.inl ⟨g, hg⟩
    | none => exact Or.inr ⟨hops, rfl, hg⟩

theorem perform_read (h : Tells ops) (hf : f < (made ops).length) (ref : Option Nat)
    (name : String) (span : Span) :
    (∃ g v, Leads (made ops) f ref g ∧ (state ops).world.store.slot? g name = some v ∧
      (state ops).perform (.read f ref name span) = (.ok (some v), state ops)) ∨
    ∃ stop, Refused ops f name span ref stop ∧
      (state ops).perform (.read f ref name span) = (.error stop, state ops) := by
  rcases h.leads_or_tooShort hf ref with ⟨g, hg⟩ | ⟨hops, rfl, hn⟩
  · have htarget := (h.target? hf).mpr hg
    cases hv : (state ops).world.store.slot? g name with
    | some v =>
      refine Or.inl ⟨g, v, hg, hv, ?_⟩
      rw [Frames.perform, Frames.act, run_bind_ok _ (Run.run_read_value htarget hv)]
      rfl
    | none =>
      refine Or.inr ⟨_, h.refused_missing hf hg hv, ?_⟩
      rw [Frames.perform, Frames.act,
        run_bind_error _ ((Run.run_read_missing htarget hv).trans (Run.run_refuse rfl))]
  · have hr : Refused ops f name span (some hops) _ := .tooShort hn
    rw [← h.names f hf] at hr
    rw [← h.links f hf] at hn
    refine Or.inr ⟨_, hr, ?_⟩
    rw [Frames.perform, Frames.act, run_bind_error _ (Run.run_read_tooShort hn),
      h.frame_environment hf]

theorem perform_assign (h : Tells ops) (hf : f < (made ops).length) (ref : Option Nat)
    (name : String) (span : Span) (v : Value) :
    (∃ g, Leads (made ops) f ref g ∧ Defined ops g name ∧
      (state ops).perform (.assign f ref name span v) = (.ok none, (state ops).write g name v)) ∨
    ∃ stop, Refused ops f name span ref stop ∧
      (state ops).perform (.assign f ref name span v) = (.error stop, state ops) := by
  rcases h.leads_or_tooShort hf ref with ⟨g, hg⟩ | ⟨hops, rfl, hn⟩
  · have htarget := (h.target? hf).mpr hg
    cases hv : (state ops).world.store.slot? g name with
    | some u =>
      have hsome : ((state ops).world.store.slot? g name).isSome := by rw [hv]; rfl
      refine Or.inl ⟨g, hg, (h.defined g name).mp hsome, ?_⟩
      rw [Frames.perform, Frames.act, run_bind_ok _ (Run.run_assign_value htarget hsome)]
      rfl
    | none =>
      refine Or.inr ⟨_, h.refused_missing hf hg hv, ?_⟩
      rw [Frames.perform, Frames.act,
        run_bind_error _ ((Run.run_assign_missing htarget hv).trans (Run.run_refuse rfl))]
  · have hr : Refused ops f name span (some hops) _ := .tooShort hn
    rw [← h.names f hf] at hr
    rw [← h.links f hf] at hn
    refine Or.inr ⟨_, hr, ?_⟩
    rw [Frames.perform, Frames.act, run_bind_error _ (Run.run_assign_tooShort hn),
      h.frame_environment hf]

theorem perform_define (h : Tells ops) (hf : f < (made ops).length) (name : String) (v : Value) :
    (state ops).perform (.define f name v) = (.ok none, (state ops).write f name v) := by
  have hdefine : (state ops).perform (.define f name v) =
      (.ok none, (state ops).write ((state ops).environment f).frame name v) := rfl
  rw [hdefine, h.frame_environment hf]

/-! ### The next operation -/

theorem nil : Tells [] where
  ordered _ _ h := nomatch h
  started _ h := absurd h List.not_mem_nil
  environments := rfl
  size := rfl
  links _ h := nomatch h
  names _ h := nomatch h
  written g name v := by
    constructor
    · intro h
      have hlt := Store.lt_size_of_slot? h
      exact nomatch hlt
    · rintro ⟨before, step, later, heq, -⟩
      exact absurd heq.symm (List.append_ne_nil_of_right_ne_nil before (List.cons_ne_nil _ _))
  defined g name := by
    constructor
    · intro h
      obtain ⟨v, hv⟩ := Option.isSome_iff_exists.mp h
      have hlt := Store.lt_size_of_slot? hv
      exact nomatch hlt
    · rintro ⟨v, hv⟩
      exact absurd hv List.not_mem_nil

theorem started_concat (h : Tells ops) (hf : ∀ f ∈ op.frame?, f < (made ops).length) :
    ∀ step ∈ steps (ops ++ [op]), ∀ f ∈ step.1.frame?,
      f < (made (ops ++ [op])).length := by
  have hle : (made ops).length ≤ (made (ops ++ [op])).length := by
    rw [made_concat, List.length_append]
    exact Nat.le_add_right _ _
  rw [steps_concat, List.forall_mem_append, List.forall_mem_singleton]
  exact ⟨fun step hs f hm => Nat.lt_of_lt_of_le (h.started step hs f hm) hle,
    fun f hm => Nat.lt_of_lt_of_le (hf f hm) hle⟩

theorem keep (h : Tells ops) (hf : ∀ f ∈ op.frame?, f < (made ops).length) (hmade : made? op = none)
    {answer : Answer} (hperform : (state ops).perform op = (answer, s))
    (henvs : s.environments = (state ops).environments)
    (hsize : s.world.store.size = (state ops).world.store.size)
    (hnames : ∀ g, (s.world.store.frame g).name = ((state ops).world.store.frame g).name)
    (hwritten : ∀ g name v, s.world.store.slot? g name = some v ↔
      Writes (made ops) g name (op, answer) v ∨
        (state ops).world.store.slot? g name = some v ∧
          ∀ u, ¬ Writes (made ops) g name (op, answer) u)
    (hdefined : ∀ g name, (s.world.store.slot? g name).isSome ↔ Defined (ops ++ [op]) g name) :
    Tells (ops ++ [op]) := by
  have hsame : made (ops ++ [op]) = made ops := by
    rw [made_concat, hmade, Option.toList_none, List.append_nil]
  have hstate : state (ops ++ [op]) = s := by rw [state_concat, hperform]
  have henv (f : Nat) : s.environment f = (state ops).environment f := by
    rw [Frames.environment, henvs, Frames.environment]
  have hstarted := h.started_concat hf
  rw [hsame] at hstarted
  constructor
  case ordered =>
    rw [hsame]
    exact h.ordered
  case started =>
    rw [hsame]
    exact hstarted
  case environments =>
    rw [hsame, hstate, henvs]
    exact h.environments
  case size =>
    rw [hsame, hstate, hsize]
    exact h.size
  case links =>
    simp only [hsame, hstate, henv]
    exact h.links
  case names =>
    simp only [hsame, hstate, hnames]
    exact h.names
  case written =>
    intro g name v
    rw [hsame, hstate, steps_concat, lastWritten_concat, hperform, hwritten, h.written]
  case defined =>
    intro g name
    rw [hstate, hdefined]

theorem make (h : Tells ops) (hf : ∀ f ∈ op.frame?, f < (made ops).length)
    {m : Made} (hmade : made? op = some m) {env : FrameId → Environment}
    (hperform : (state ops).perform op = (state ops).make m.name env)
    (hlinks : ∀ id, (env id).frames =
      id :: (m.enclosing.map fun f => ((state ops).environment f).frames).getD []) :
    Tells (ops ++ [op]) := by
  have henclosing : ∀ f ∈ m.enclosing, f < (made ops).length := frame?_of_made hmade ▸ hf
  have hmore : made (ops ++ [op]) = made ops ++ [m] := by rw [made_concat, hmade, Option.toList_some]
  have hstate : state (ops ++ [op]) =
      ⟨{ (state ops).world with store := ((state ops).world.store.alloc m.name).2 },
        (state ops).environments ++ [env (state ops).world.store.size]⟩ := by
    rw [state_concat, hperform]
    rfl
  have hstarted := h.started_concat hf
  have hold {f : Nat} (hlt : f < (made ops).length) :
      (state (ops ++ [op])).environment f = (state ops).environment f := by
    rw [hstate, Frames.environment, List.getElem?_append_left (h.environments.symm ▸ hlt),
      Frames.environment]
  have hnew : (state (ops ++ [op])).environment (made ops).length = env (made ops).length := by
    rw [hstate, Frames.environment, h.size, ← h.environments, List.getElem?_concat_length,
      Option.getD_some]
  rw [hmore] at hstarted
  have hlength : (made ops ++ [m]).length = (made ops).length + 1 := List.length_append
  constructor
  case ordered =>
    rw [hmore]
    exact h.ordered.concat henclosing
  case started =>
    rw [hmore]
    exact hstarted
  case environments =>
    rw [hmore, hstate, List.length_append, h.environments, List.length_append]
    rfl
  case size =>
    rw [hmore, hstate, Store.size_alloc, h.size, hlength]
  case links =>
    rw [hmore, hlength]
    intro f hlt hops
    rcases Nat.lt_succ_iff_lt_or_eq.mp hlt with hlt | rfl
    · rw [hold hlt, h.links f hlt, outward_append h.ordered hlt]
    · -- the first link of the new frame is the frame it was made in, whose links are known
      rw [hnew, hlinks]
      cases hops with
      | zero => rfl
      | succ hops =>
        rw [List.getElem?_cons_succ, outward, List.getElem?_concat_length, Option.bind_some]
        cases henc : m.enclosing with
        | none => rfl
        | some f =>
          have hlt := henclosing f henc
          exact (h.links f hlt hops).trans (outward_append h.ordered hlt [m] hops).symm
  case names =>
    rw [hmore, hlength, hstate]
    intro f hlt
    rcases Nat.lt_succ_iff_lt_or_eq.mp hlt with hlt | rfl
    · rw [nameOf_append hlt, Store.frame_alloc_of_lt (h.size.symm ▸ hlt), h.names f hlt]
    · rw [nameOf, List.getElem?_concat_length, ← h.size]
      exact congrArg Frame.name (Store.frame_alloc _ _)
  case written =>
    intro g name v
    rw [hmore, hstate, steps_concat, lastWritten_concat, Store.slot?_alloc, h.written,
      lastWritten_append h.ordered h.started]
    have hnone (u : Value) (answer : Answer) : ¬ Writes (made ops ++ [m]) g name (op, answer) u :=
      not_writes_of_made hmade answer
    exact ⟨fun hl => Or.inr ⟨hl, fun u => hnone u _⟩, fun hl =>
      hl.elim (fun hw => absurd hw (hnone v _)) And.left⟩
  case defined =>
    intro g name
    rw [hstate, Store.slot?_alloc, h.defined, defined_concat, or_iff_left]
    rintro ⟨v, rfl⟩
    cases hmade

theorem unchanged (h : Tells ops) (hf : ∀ f ∈ op.frame?, f < (made ops).length)
    (hmade : made? op = none) {answer : Answer}
    (hperform : (state ops).perform op = (answer, state ops))
    (hwrites : ∀ g name v, ¬ Writes (made ops) g name (op, answer) v)
    (hdefine : ∀ g name v, op ≠ .define g name v) : Tells (ops ++ [op]) := by
  refine h.keep hf hmade hperform rfl rfl (fun _ => rfl) (fun g name v => ?_) fun g name => ?_
  · rw [or_iff_right (hwrites g name v), and_iff_left fun u => hwrites g name u]
  · rw [h.defined, defined_concat, or_iff_left fun ⟨v, hv⟩ => hdefine g name v hv]

theorem wrote (h : Tells ops) (hf : ∀ f ∈ op.frame?, f < (made ops).length) (hmade : made? op = none)
    {answer : Answer} (hg : g < (made ops).length)
    (hperform : (state ops).perform op = (answer, (state ops).write g name v))
    (hwrites : ∀ k x u, Writes (made ops) k x (op, answer) u ↔ (k = g ∧ x = name) ∧ u = v)
    (hdefined : ∀ k x, Defined (ops ++ [op]) k x ↔ Defined ops k x ∨ k = g ∧ x = name) :
    Tells (ops ++ [op]) := by
  have hslot := Store.slot?_define (h.size.symm ▸ hg : g < (state ops).world.store.size) name v
  refine h.keep hf hmade hperform rfl (Store.size_define_eq _ _ _ _) ?_ (fun k x u => ?_) fun k x => ?_
  · exact fun k => Store.name_define _ g k name v
  · have hnone : (∀ u, ¬ Writes (made ops) k x (op, answer) u) ↔ ¬ (k = g ∧ x = name) := by
      refine ⟨fun hno hk => hno v ((hwrites k x v).mpr ⟨hk, rfl⟩), fun hno w hw => ?_⟩
      exact hno ((hwrites k x w).mp hw).1
    rw [Frames.store_write, hslot, hwrites, hnone]
    split
    · simp [*, eq_comm]
    · simp [*]
  · rw [Frames.store_write, hslot, hdefined, ← h.defined]
    split
    · simp [*]
    · simp [*]

/-! ### All operations -/

theorem new (h : Tells ops) (frameName : String) : Tells (ops ++ [.new frameName]) := by
  have hlinks (id : FrameId) : (⟨id, []⟩ : Environment).frames = [id] := rfl
  exact h.make (fun _ hf => nomatch hf) rfl rfl hlinks

theorem child (h : Tells ops) (hf : f < (made ops).length) (frameName : String) :
    Tells (ops ++ [.child f frameName]) :=
  h.make (by rintro _ ⟨⟩; exact hf) rfl rfl fun _ => rfl

theorem define (h : Tells ops) (hf : f < (made ops).length) (name : String) (v : Value) :
    Tells (ops ++ [.define f name v]) := by
  refine h.wrote (by rintro _ ⟨⟩; exact hf) rfl hf (h.perform_define hf name v) ?_ ?_
  · intro k x u
    simp only [Writes, and_assoc, eq_comm]
  · intro k x
    rw [defined_concat]
    simp [eq_comm]

theorem read (h : Tells ops) (hf : f < (made ops).length) (ref : Option Nat) (name : String)
    (span : Span) : Tells (ops ++ [.read f ref name span]) := by
  have hstart : ∀ k ∈ (Operation.read f ref name span).frame?, k < (made ops).length := by
    rintro _ ⟨⟩
    exact hf
  rcases h.perform_read hf ref name span with ⟨g, v, -, -, hrun⟩ | ⟨stop, -, hrun⟩
  · exact h.unchanged hstart rfl hrun (fun _ _ _ => id) fun _ _ _ heq => nomatch heq
  · exact h.unchanged hstart rfl hrun (fun _ _ _ => id) fun _ _ _ heq => nomatch heq

theorem assign (h : Tells ops) (hf : f < (made ops).length) (ref : Option Nat) (name : String)
    (span : Span) (v : Value) : Tells (ops ++ [.assign f ref name span v]) := by
  have hstart : ∀ k ∈ (Operation.assign f ref name span v).frame?, k < (made ops).length := by
    rintro _ ⟨⟩
    exact hf
  rcases h.perform_assign hf ref name span v with ⟨g, hg, hdefined, hrun⟩ | ⟨stop, -, hrun⟩
  · refine h.wrote hstart rfl (h.leads_lt hf hg) hrun (fun k x u => ?_) fun k x => ?_
    · have hlead : Leads (made ops) f ref k ↔ k = g :=
        ⟨fun hk => h.leads_unique hf hk hg, fun hk => hk ▸ hg⟩
      simp only [Writes, hlead, and_assoc, eq_comm]
    · have hno : ¬ ∃ u, Operation.assign f ref name span v = .define k x u :=
        fun ⟨_, heq⟩ => nomatch heq
      have hkept : k = g ∧ x = name → Defined ops k x := by
        rintro ⟨rfl, rfl⟩
        exact hdefined
      rw [defined_concat, or_iff_left hno, or_iff_left_of_imp hkept]
  · exact h.unchanged hstart rfl hrun (fun _ _ _ => id) fun _ _ _ heq => nomatch heq

end Tells

theorem Valid.tells (h : Valid ops) : Tells ops := by
  induction h with
  | nil => exact .nil
  | @concat ops op _ hf ih =>
    cases op with
    | new frameName => exact ih.new frameName
    | child f frameName => exact ih.child (hf f rfl) frameName
    | define f name v => exact ih.define (hf f rfl) name v
    | read f ref name span => exact ih.read (hf f rfl) ref name span
    | assign f ref name span v => exact ih.assign (hf f rfl) ref name span v

/-! ### Reading and assigning -/

/-- One slot has got a value, and no name has come to any frame. -/
structure Assigned (g : Nat) (name : String) (v : Value) (s s' : Frames) : Prop where
  slots : ∀ k x, s'.world.store.slot? k x =
    if k = g ∧ x = name then some v else s.world.store.slot? k x
  names : ∀ k, (s'.world.store.frame k).names = (s.world.store.frame k).names
  environments : s'.environments = s.environments

namespace Tells

/-- A read gives the value that was written last where the reference leads to, if there is one. -/
theorem read_value (h : Tells ops) (hf : f < (made ops).length) :
    ((state ops).perform (.read f ref name span)).1 = .ok (some v) ↔
      ∃ g, Leads (made ops) f ref g ∧ LastWritten (made ops) g name (steps ops) v := by
  simp only [← h.written]
  rcases h.perform_read hf ref name span with ⟨g, u, hg, hu, hrun⟩ | ⟨stop, hr, hrun⟩
  · rw [hrun]
    constructor
    · rintro ⟨⟩
      exact ⟨g, hg, hu⟩
    · rintro ⟨k, hk, hv⟩
      rw [h.leads_unique hf hk hg, hu] at hv
      rw [Option.some.inj hv]
  · rw [hrun]
    refine iff_of_false (fun heq => nomatch heq) ?_
    rintro ⟨g, hg, hv⟩
    exact h.not_defined_of_refused hf hr hg ((h.defined g name).mp (by rw [hv]; rfl))

theorem read_refused (h : Tells ops) (hf : f < (made ops).length) {stop : Stop} :
    ((state ops).perform (.read f ref name span)).1 = .error stop ↔
      Refused ops f name span ref stop := by
  rcases h.perform_read hf ref name span with ⟨g, u, hg, hu, hrun⟩ | ⟨stop', hr, hrun⟩
  · rw [hrun]
    refine iff_of_false (fun heq => nomatch heq) fun hr => ?_
    exact h.not_defined_of_refused hf hr hg ((h.defined g name).mp (by rw [hu]; rfl))
  · rw [hrun]
    exact ⟨fun heq => Except.error.inj heq ▸ hr, fun hr' => congrArg _ (hr.unique hr')⟩

theorem assign_refused (h : Tells ops) (hf : f < (made ops).length) {stop : Stop} :
    ((state ops).perform (.assign f ref name span v)).1 = .error stop ↔
      Refused ops f name span ref stop := by
  rcases h.perform_assign hf ref name span v with ⟨g, hg, hdefined, hrun⟩ | ⟨stop', hr, hrun⟩
  · rw [hrun]
    refine iff_of_false (fun heq => nomatch heq) fun hr => ?_
    exact h.not_defined_of_refused hf hr hg hdefined
  · rw [hrun]
    exact ⟨fun heq => Except.error.inj heq ▸ hr, fun hr' => congrArg _ (hr.unique hr')⟩

theorem assigned_define (h : Tells ops) (hg : g < (made ops).length) (hd : Defined ops g name)
    (v : Value) : Assigned g name v (state ops) ((state ops).write g name v) where
  slots := Store.slot?_define (h.size.symm ▸ hg) name v
  names k := by
    have hcontains : ((state ops).world.store.frame g).contains name = true := by
      rw [Store.contains_eq, h.defined]
      exact hd
    rw [Frames.store_write]
    by_cases hk : k = g
    · rw [hk, Store.frame_define_self (h.size.symm ▸ hg), Frame.names_put hcontains]
    · rw [Store.frame_define_of_ne hk]
  environments := rfl

theorem assign_value (h : Tells ops) (hf : f < (made ops).length) (hg : Leads (made ops) f ref g)
    (hd : Defined ops g name) :
    ((state ops).perform (.assign f ref name span v)).1 = .ok none ∧
      Assigned g name v (state ops) ((state ops).perform (.assign f ref name span v)).2 := by
  rcases h.perform_assign hf ref name span v with ⟨k, hk, -, hrun⟩ | ⟨stop, hr, hrun⟩
  · rw [hrun, h.leads_unique hf hk hg]
    exact ⟨rfl, h.assigned_define (h.leads_lt hf hg) hd v⟩
  · exact absurd hd (h.not_defined_of_refused hf hr hg)

theorem unchanged_of_error (h : Tells ops) (hf : ∀ f ∈ op.frame?, f < (made ops).length)
    {stop : Stop} (herror : ((state ops).perform op).1 = .error stop) :
    ((state ops).perform op).2 = state ops := by
  cases op with
  | new | child => exact nomatch herror
  | define f name v =>
    rw [h.perform_define (hf f rfl)] at herror
    exact nomatch herror
  | read f ref name span =>
    rcases h.perform_read (hf f rfl) ref name span with ⟨g, v, -, -, hrun⟩ | ⟨stop, -, hrun⟩
    · rw [hrun]
    · rw [hrun]
  | assign f ref name span v =>
    rcases h.perform_assign (hf f rfl) ref name span v with ⟨g, -, -, hrun⟩ | ⟨stop, -, hrun⟩
    · rw [hrun] at herror
      exact nomatch herror
    · rw [hrun]

end Tells

/-- Behind every history of frames that have been made, linked and written to, a reference at any of
them gives the value that was written last to the place it leads to, by a definition there or by an
assignment through any frame. Reading and assigning fail just when the chain is too short or nothing has
been defined there. An assignment that succeeds changes this one slot and adds no name; what fails
changes nothing. -/
theorem frames_of_history (hops : Valid ops) :
    (∀ f < (made ops).length, ∀ (ref : Option Nat) (name : String) (span : Span),
      let read := (state ops).perform (.read f ref name span)
      (∀ v, read.1 = .ok (some v) ↔
        ∃ g, Leads (made ops) f ref g ∧ LastWritten (made ops) g name (steps ops) v) ∧
      (∀ stop, read.1 = .error stop ↔ Refused ops f name span ref stop) ∧ read.2 = state ops ∧
      ∀ v,
        let assign := (state ops).perform (.assign f ref name span v)
        (∀ stop, assign.1 = .error stop ↔ Refused ops f name span ref stop) ∧
        ∀ g, Leads (made ops) f ref g → Defined ops g name →
          assign.1 = .ok none ∧ Assigned g name v (state ops) assign.2) ∧
    ∀ op : Operation, (∀ f ∈ op.frame?, f < (made ops).length) → ∀ stop,
      ((state ops).perform op).1 = .error stop → ((state ops).perform op).2 = state ops := by
  have h := hops.tells
  refine ⟨fun f hf ref name span => ?_, fun op hf stop herror => h.unchanged_of_error hf herror⟩
  have hsame : ((state ops).perform (.read f ref name span)).2 = state ops := by
    rcases h.perform_read hf ref name span with ⟨g, v, -, -, hrun⟩ | ⟨stop, -, hrun⟩
    · rw [hrun]
    · rw [hrun]
  exact ⟨fun v => h.read_value hf, fun stop => h.read_refused hf, hsame, fun v =>
    ⟨fun stop => h.assign_refused hf, fun g hg hd => h.assign_value hf hg hd⟩⟩

/-- Two frames inside of the first; through the inner one a name of the first is assigned. -/
def assignedFromInside : List Operation :=
  [.new "globals", .define 0 "a" (.boolean false), .child 0 "block", .child 1 "block",
    .assign 2 (some 2) "a" .nowhere (.boolean true)]

theorem valid_assignedFromInside : Valid assignedFromInside := by
  have hglobals : Valid [.new "globals"] := .concat .nil fun _ hf => nomatch hf
  have hdefined : Valid (assignedFromInside.take 2) := hglobals.concat (by decide)
  have hblock : Valid (assignedFromInside.take 3) := hdefined.concat (by decide)
  have hinner : Valid (assignedFromInside.take 4) := hblock.concat (by decide)
  exact hinner.concat (by decide)

theorem frames_of_history_inside :
    let s := state assignedFromInside
    (s.perform (.read 1 (some 1) "a" .nowhere)).1 = .ok (some (.boolean true)) ∧
      (s.perform (.read 1 (some 0) "a" .nowhere)).1 = .error (.defect (.unbound "a" "block" 0)) ∧
      (s.perform (.read 2 none "b" .nowhere)).1 = .error (.error (.undefinedVariable "b") .nowhere) := by
  have h := (frames_of_history valid_assignedFromInside).1
  refine ⟨?_, ?_, ?_⟩
  · refine ((h 1 (by decide) (some 1) "a" .nowhere).1 (.boolean true)).mpr ⟨0, rfl, ?_⟩
    exact ⟨_, (.assign 2 (some 2) "a" .nowhere (.boolean true), .ok none), [], rfl,
      ⟨rfl, rfl, rfl⟩, fun s hs => absurd hs List.not_mem_nil⟩
  · refine ((h 1 (by decide) (some 0) "a" .nowhere).2.1 _).mpr (.unbound (g := 1) rfl ?_)
    rintro ⟨v, hv⟩
    simp [assignedFromInside] at hv
  · refine ((h 2 (by decide) none "b" .nowhere).2.1 _).mpr (.undefined (g := 0) ⟨2, rfl, rfl⟩ ?_)
    rintro ⟨v, hv⟩
    simp [assignedFromInside] at hv

end Lox.History

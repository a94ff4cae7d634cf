import Lox.Proofs.Config.Documents
import Lox.Proofs.Config.Texts

/-!
# Layers of a configuration

Environment variables are laid over a configuration field by field: a field whose variable is set is as the
text says, all others are as before. This fails just if the text of some variable denotes nothing or something
that its field does not take. A configuration that comes out of it can be written out and read back.
-/

namespace Lox.Config

variable {bounds : Data.Bounds} {c c' : Config} {vars : Variables} {f : Field} {text : String} {p : Problem}

/-! ### Reading the variables -/

/-- What is found when the variables of some fields are read: data for just those that are set, or the
problem with a text that denotes nothing. -/
inductive Overridden (bounds : Data.Bounds) (vars : Variables) (fs : List Field) :
    Except Problem (List (Field × Data)) → Prop where
  | read {values : List (Field × Data)}
    (hset : ∀ f ∈ fs, ∀ text, vars.lookup f.varName = some text →
      ∃ d, values.lookup f = some d ∧ f.Denotes bounds text d)
    (hunset : ∀ f : Field, vars.lookup f.varName = none → values.lookup f = none) :
    Overridden bounds vars fs (.ok values)
  | unread {f : Field} {text : String} (hset : vars.lookup f.varName = some text)
    (h : ∀ d, ¬ f.Denotes bounds text d) : Overridden bounds vars fs (.error (f.unreadable text))

namespace Overridden

variable {fs : List Field} {r : Except Problem (List (Field × Data))}

theorem unset (h : Overridden bounds vars fs r) (hf : vars.lookup f.varName = none) :
    Overridden bounds vars (f :: fs) r := by
  cases h with
  | unread hset h => exact .unread hset h
  | read hset hunset =>
    refine .read (List.forall_mem_cons.mpr ⟨fun text htext => ?_, hset⟩) hunset
    rw [hf] at htext
    cases htext

theorem set (h : Overridden bounds vars fs r) (hf : vars.lookup f.varName = some text) {d : Data}
    (hd : f.Denotes bounds text d) :
    Overridden bounds vars (f :: fs) (r >>= fun rest => .ok ((f, d) :: rest)) := by
  cases h with
  | unread hset h => exact .unread hset h
  | @read values hset hunset =>
    have hself : ((f, d) :: values).lookup f = some d := by rw [List.lookup_cons, beq_self_eq_true]
    have hother : ∀ g ≠ f, ((f, d) :: values).lookup g = values.lookup g := by
      intro g hg
      rw [List.lookup_cons, beq_eq_false_iff_ne.mpr hg]
    refine .read (fun g hg text' htext' => ?_) fun g hg => ?_
    · by_cases hgf : g = f
      · subst hgf
        obtain rfl := Option.some.inj (hf.symm.trans htext')
        exact ⟨d, hself, hd⟩
      · rw [hother g hgf]
        exact hset g ((List.mem_cons.mp hg).resolve_left hgf) text' htext'
    · rw [hother g, hunset g hg]
      rintro rfl
      rw [hf] at hg
      cases hg

end Overridden

theorem overridden_overrides (bounds : Data.Bounds) (vars : Variables) (fs : List Field) :
    Overridden bounds vars fs (overrides bounds vars fs) := by
  induction fs with
  | nil => exact .read nofun fun _ _ => rfl
  | cons f fs ih =>
    rw [overrides]
    cases hf : vars.lookup f.varName with
    | none => exact ih.unset hf
    | some text =>
      dsimp only
      have hreads := f.reads_parse bounds text
      generalize f.parse bounds text = r at hreads ⊢
      cases hreads with
      | unread h => exact .unread hf h
      | found hd => exact ih.set hf ((hd _).mpr rfl)

/-! ### Fields in layers -/

/-- The text in the variable of the field sets it to the data: it denotes data that the field takes so. -/
def Field.Sets (bounds : Data.Bounds) (f : Field) (text : String) (v : Data) : Prop :=
  ∃ d, f.Denotes bounds text d ∧ f.Takes d v

/-- What a field is behind the variables: what its variable sets it to if there is one, else what it was. -/
def Field.Layered (bounds : Data.Bounds) (f : Field) (vars : Variables) (before v : Data) : Prop :=
  match vars.lookup f.varName with
  | some text => f.Sets bounds text v
  | none => v = before

theorem Field.layered_of_set {before v : Data} (h : vars.lookup f.varName = some text) :
    f.Layered bounds vars before v ↔ f.Sets bounds text v := by
  rw [Field.Layered, h]

theorem Field.layered_of_unset {before v : Data} (h : vars.lookup f.varName = none) :
    f.Layered bounds vars before v ↔ v = before := by
  rw [Field.Layered, h]

theorem Field.Layered.congr {others : Variables} {before before' v : Data}
    (h : f.Layered bounds others before' v) (hvariable : others.lookup f.varName = vars.lookup f.varName)
    (hbefore : vars.lookup f.varName = none → before' = before) : f.Layered bounds vars before v := by
  cases hset : vars.lookup f.varName with
  | none => exact (layered_of_unset hset).mpr (hbefore hset ▸ (layered_of_unset (hvariable.trans hset)).mp h)
  | some text => exact (layered_of_set hset).mpr ((layered_of_set (hvariable.trans hset)).mp h)

theorem takes_get (c : Config) (f : Field) : f.Takes (c.get f) (c.get f) :=
  check_eq_ok_iff.mp (check_get {} c) f

/-- What comes of variables laid over a configuration: another one in which every field is in layers, the
problem with a text that denotes nothing, or that with a text whose data the field does not take. -/
inductive Layering (bounds : Data.Bounds) (c : Config) (vars : Variables) : Except Problem Config → Prop where
  | composed {c' : Config} (h : ∀ (f : Field) (v : Data), f.Layered bounds vars (c.get f) v ↔ v = c'.get f) :
    Layering bounds c vars (.ok c')
  | unread {f : Field} {text : String} (hset : vars.lookup f.varName = some text)
    (h : ∀ d, ¬ f.Denotes bounds text d) : Layering bounds c vars (.error (f.unreadable text))
  | refused {f : Field} {text : String} {d : Data} (hset : vars.lookup f.varName = some text)
    (hd : f.Denotes bounds text d) (h : ∀ v, ¬ f.Takes d v) :
    Layering bounds c vars (.error (f.problem bounds d))

/-- The checks find the layers, since what the variables leave alone passes them. -/
theorem layering_check {values : List (Field × Data)}
    (hset : ∀ (f : Field) (text : String), vars.lookup f.varName = some text →
      ∃ d, values.lookup f = some d ∧ f.Denotes bounds text d)
    (hunset : ∀ f : Field, vars.lookup f.varName = none → values.lookup f = none) :
    Layering bounds c vars (check bounds fun f => (values.lookup f).getD (c.get f)) := by
  have hchecked := checked_check bounds fun f => (values.lookup f).getD (c.get f)
  generalize check bounds (fun f => (values.lookup f).getD (c.get f)) = r at hchecked ⊢
  cases hchecked with
  | @valid c' h =>
    refine .composed fun f v => ?_
    have hf := h f
    cases htext : vars.lookup f.varName with
    | none =>
      rw [hunset f htext, Option.getD_none] at hf
      rw [Field.layered_of_unset htext, (hf (c.get f)).mp (takes_get c f)]
    | some text =>
      obtain ⟨d, hvalue, hd⟩ := hset f text htext
      rw [hvalue, Option.getD_some] at hf
      rw [Field.layered_of_set htext, ← hf v]
      refine ⟨fun ⟨e, he, hv⟩ => ?_, fun hv => ⟨d, hd, hv⟩⟩
      rwa [hd.unique he]
  | @invalid f _ h =>
    -- The field that is refused has a variable: what it was before passes its check.
    cases htext : vars.lookup f.varName with
    | none =>
      rw [hunset f htext] at h
      exact absurd (takes_get c f) (h _)
    | some text =>
      obtain ⟨d, hvalue, hd⟩ := hset f text htext
      rw [hvalue] at h ⊢
      exact .refused htext hd h

theorem withVariables_eq_check {values : List (Field × Data)}
    (h : overrides bounds vars Field.all = .ok values) :
    c.withVariables bounds vars = check bounds fun f => (values.lookup f).getD (c.get f) := by
  rw [withVariables, override?, h]
  cases values with
  -- Without values nothing is checked; the check would find the configuration itself.
  | nil => exact (check_get bounds c).symm
  | cons value values =>
    change (check bounds (fun f => ((value :: values).lookup f).getD (c.get f)) >>= fun c' =>
      pure (some c')) >>= (fun r => pure (r.getD c)) = _
    cases check bounds fun f => ((value :: values).lookup f).getD (c.get f) <;> rfl

theorem layering_withVariables (bounds : Data.Bounds) (c : Config) (vars : Variables) :
    Layering bounds c vars (c.withVariables bounds vars) := by
  have hread := overridden_overrides bounds vars Field.all
  cases h : overrides bounds vars Field.all with
  | error p =>
    rw [h] at hread
    rw [withVariables, override?, h]
    cases hread with
    | unread hset hdenotes => exact .unread hset hdenotes
  | ok values =>
    rw [h] at hread
    rw [withVariables_eq_check h]
    cases hread with
    | read hset hunset => exact layering_check (fun f => hset f f.mem_all) hunset

theorem layered_iff (h : c.withVariables bounds vars = .ok c') {v : Data} :
    f.Layered bounds vars (c.get f) v ↔ v = c'.get f := by
  have hlayering := layering_withVariables bounds c vars
  rw [h] at hlayering
  cases hlayering with
  | composed h => exact h f v

theorem withVariables_eq_ok_iff :
    c.withVariables bounds vars = .ok c' ↔ ∀ f : Field, f.Layered bounds vars (c.get f) (c'.get f) := by
  constructor
  · exact fun h f => (layered_iff h).mpr rfl
  · intro h
    have hlayering := layering_withVariables bounds c vars
    generalize c.withVariables bounds vars = r at hlayering
    cases hlayering with
    | composed hlayers =>
      have hget := funext fun f => (hlayers f _).mp (h f)
      exact congrArg Except.ok (get_injective hget.symm)
    | @unread f text hset hdenotes =>
      obtain ⟨d, hd, -⟩ := (Field.layered_of_set hset).mp (h f)
      exact absurd hd (hdenotes d)
    | @refused f text d hset hd htakes =>
      obtain ⟨e, he, hv⟩ := (Field.layered_of_set hset).mp (h f)
      exact absurd (hd.unique he ▸ hv) (htakes _)

/-- The text in the variable of a field denotes nothing, or something that the field does not take; the field's
problem with it. -/
def Field.Objects (bounds : Data.Bounds) (f : Field) (text : String) (p : Problem) : Prop :=
  (∀ d, ¬ f.Denotes bounds text d) ∧ p = f.unreadable text ∨
    ∃ d, f.Denotes bounds text d ∧ (∀ v, ¬ f.Takes d v) ∧ p = f.problem bounds d

theorem objects_of_withVariables (h : c.withVariables bounds vars = .error p) :
    ∃ (f : Field) (text : String), vars.lookup f.varName = some text ∧ f.Objects bounds text p := by
  have hlayering := layering_withVariables bounds c vars
  rw [h] at hlayering
  cases hlayering with
  | @unread f text hset hdenotes => exact ⟨f, text, hset, Or.inl ⟨hdenotes, rfl⟩⟩
  | @refused f text d hset hd htakes => exact ⟨f, text, hset, Or.inr ⟨d, hd, htakes, rfl⟩⟩

theorem Field.Objects.not_sets (h : f.Objects bounds text p) (v : Data) : ¬ f.Sets bounds text v := by
  rintro ⟨e, he, hv⟩
  rcases h with ⟨hdenotes, -⟩ | ⟨d, hd, htakes, -⟩
  · exact hdenotes e he
  · exact htakes v (hd.unique he ▸ hv)

/-- Every list of names is taken, and all else that a text denotes can be shown; so users are told about all
these problems. -/
theorem Field.Objects.isComplaint (h : f.Objects bounds text p) : p.isComplaint = true := by
  rcases h with ⟨-, rfl⟩ | ⟨d, hd, hrefused, rfl⟩
  · exact f.isComplaint_unreadable text
  · have hf : f ≠ .natives := by
      rintro rfl
      obtain ⟨names, -, rfl⟩ := hd
      exact hrefused _ (Or.inr ⟨names, rfl, Or.inl rfl⟩)
    refine eq_true_of_ne_false fun hbroken => ?_
    rcases (isComplaint_problem bounds f d).mp hbroken with ⟨hnatives, -⟩ | hshown
    · exact hf hnatives
    · rw [hd.shown hf] at hshown
      cases hshown

/-! ### Other variables -/

theorem overrides_congr {others : Variables} {fs : List Field}
    (h : ∀ f ∈ fs, others.lookup f.varName = vars.lookup f.varName) :
    overrides bounds others fs = overrides bounds vars fs := by
  induction fs with
  | nil => rfl
  | cons f fs ih =>
    obtain ⟨hf, hfs⟩ := List.forall_mem_cons.mp h
    rw [overrides, overrides, hf, ih hfs]

theorem withVariables_congr {others : Variables}
    (h : ∀ f : Field, others.lookup f.varName = vars.lookup f.varName) (c : Config) :
    c.withVariables bounds others = c.withVariables bounds vars := by
  rw [withVariables, withVariables, override?, override?, overrides_congr fun f _ => h f]

/-! ### Writing out and reading back -/

theorem lookupText_key {fs : List Field} (values : Field → Data) (hf : f ∈ fs) :
    Data.lookupText f.key (fs.map fun g => (.text g.key, values g)) = some (values f) := by
  induction fs with
  | nil => cases hf
  | cons g fs ih =>
    rw [List.map_cons, Data.lookupText]
    by_cases hgf : g = f
    · rw [hgf, beq_self_eq_true, if_pos rfl]
    · have hkey : (g.key == f.key) = false := beq_eq_false_iff_ne.mpr fun h => hgf (Field.key_injective g f h)
      rw [hkey, if_neg Bool.false_ne_true]
      exact ih ((List.mem_cons.mp hf).resolve_left (Ne.symm hgf))

theorem ofEntries_toEntries (c : Config) : ofEntries bounds c.toEntries = .ok c := by
  refine ofEntries_eq_ok_iff.mpr ⟨fun k hk => ?_, fun f => ?_⟩
  · rw [toEntries, List.map_map] at hk
    obtain ⟨f, -, rfl⟩ := List.mem_map.mp hk
    exact ⟨f, rfl⟩
  · rw [Field.valueIn, toEntries, lookupText_key c.get f.mem_all, Option.getD_some]
    exact takes_get c f

/-! ### Layers -/

/-- Variables laid over a configuration give one in which each field is as its variable says, or as before if it
has none; they give a problem, which users are told about, just if the text in some variable denotes nothing or
something that its field does not take. The configuration is valid, the same variables change nothing in it, and
it can be written out and read back. A field depends on its own variable only, and variables that belong to no
field do not matter. -/
theorem layers_compose (bounds : Data.Bounds) (c : Config) (vars : Variables) :
    (∀ c', c.withVariables bounds vars = .ok c' ↔ ∀ f : Field, f.Layered bounds vars (c.get f) (c'.get f)) ∧
      ((∃ p, c.withVariables bounds vars = .error p) ↔
        ∃ (f : Field) (text : String), vars.lookup f.varName = some text ∧ ∃ p, f.Objects bounds text p) ∧
      (∀ p, c.withVariables bounds vars = .error p → p.isComplaint = true ∧
        ∃ (f : Field) (text : String), vars.lookup f.varName = some text ∧ f.Objects bounds text p) ∧
      (∀ c', c.withVariables bounds vars = .ok c' → (∀ f : Field, f.Documented (c'.get f)) ∧
        c'.withVariables bounds vars = .ok c' ∧ ofEntries bounds c'.toEntries = .ok c') ∧
      (∀ (d : Config) (others : Variables) (c' d' : Config) (f : Field), c.withVariables bounds vars = .ok c' →
        d.withVariables bounds others = .ok d' → others.lookup f.varName = vars.lookup f.varName →
        (vars.lookup f.varName = none → d.get f = c.get f) → d'.get f = c'.get f) ∧
      ∀ others : Variables, (∀ f : Field, others.lookup f.varName = vars.lookup f.varName) →
        c.withVariables bounds others = c.withVariables bounds vars := by
  refine ⟨fun c' => withVariables_eq_ok_iff, ⟨?_, ?_⟩, fun p hp => ?_, fun c' hc' => ⟨?_, ?_, ?_⟩, ?_,
    fun others h => withVariables_congr h c⟩
  · rintro ⟨p, hp⟩
    obtain ⟨f, text, hset, hobjects⟩ := objects_of_withVariables hp
    exact ⟨f, text, hset, p, hobjects⟩
  · rintro ⟨f, text, hset, p, hobjects⟩
    cases h : c.withVariables bounds vars with
    | error q => exact ⟨q, rfl⟩
    | ok c' =>
      have hsets := (Field.layered_of_set hset).mp (withVariables_eq_ok_iff.mp h f)
      exact absurd hsets (hobjects.not_sets _)
  · obtain ⟨f, text, hset, hobjects⟩ := objects_of_withVariables hp
    exact ⟨hobjects.isComplaint, f, text, hset, hobjects⟩
  · exact fun f => (takes_get c' f).documented
  · refine withVariables_eq_ok_iff.mpr fun f => ?_
    have hlayered := withVariables_eq_ok_iff.mp hc' f
    exact hlayered.congr rfl fun hset => ((Field.layered_of_unset hset).mp hlayered).symm
  · exact ofEntries_toEntries c'
  · intro d others c' d' f hc' hd' hvariable hbefore
    have hd := withVariables_eq_ok_iff.mp hd' f
    exact (layered_iff hc').mp (hd.congr hvariable hbefore)

/-- Two variables over the defaults, the first of them over another configuration and beside a variable of no
field, and a level that does not exist. -/
theorem layers_compose_defaults :
    ∃ c' d' : Config, c'.maxErrors.val = 10 ∧ c'.natives = some ["str", "clock"] ∧
      ({} : Config).withVariables {} [("TREELOX_MAX_ERRORS", " 1_0 "), ("TREELOX_NATIVES", "str, ,clock")] = .ok c' ∧
      c'.withVariables {} [("TREELOX_MAX_ERRORS", " 1_0 "), ("TREELOX_NATIVES", "str, ,clock")] = .ok c' ∧
      ofEntries {} c'.toEntries = .ok c' ∧
      ({ logLevel := .error } : Config).withVariables {} [("LANG", "C"), ("TREELOX_MAX_ERRORS", " 1_0 ")] = .ok d' ∧
      d'.get .maxErrors = c'.get .maxErrors ∧
      ({} : Config).withVariables {} [("LANG", "C")] = ({} : Config).withVariables {} [] ∧
      ∃ p, ({} : Config).withVariables {} [("TREELOX_LOG_LEVEL", "LOUD")] = .error p ∧ p.isComplaint = true := by
  have hc' : ({} : Config).withVariables {}
      [("TREELOX_MAX_ERRORS", " 1_0 "), ("TREELOX_NATIVES", "str, ,clock")] =
        .ok { maxErrors := ⟨10, by decide⟩, natives := some ["str", "clock"] } := rfl
  have hd' : ({ logLevel := .error } : Config).withVariables {}
      [("LANG", "C"), ("TREELOX_MAX_ERRORS", " 1_0 ")] =
        .ok { maxErrors := ⟨10, by decide⟩, logLevel := .error } := rfl
  have hloud : ({} : Config).withVariables {} [("TREELOX_LOG_LEVEL", "LOUD")] =
      .error (.unknownLevel (.text "LOUD")) := rfl
  obtain ⟨-, -, -, hvalid, hfield, -⟩ := layers_compose {} {}
    [("TREELOX_MAX_ERRORS", " 1_0 "), ("TREELOX_NATIVES", "str, ,clock")]
  obtain ⟨-, -, hcomplaint, -, -, -⟩ := layers_compose {} {} [("TREELOX_LOG_LEVEL", "LOUD")]
  obtain ⟨-, -, -, -, -, hothers⟩ := layers_compose {} {} []
  refine ⟨_, _, rfl, rfl, hc', (hvalid _ hc').2.1, (hvalid _ hc').2.2, hd', ?_, ?_, _, hloud,
    (hcomplaint _ hloud).1⟩
  · exact hfield _ _ _ _ .maxErrors hc' hd' (by decide +kernel) fun h => absurd h (by decide +kernel)
  · exact hothers [("LANG", "C")] fun f => by cases f <;> decide +kernel

end Lox.Config

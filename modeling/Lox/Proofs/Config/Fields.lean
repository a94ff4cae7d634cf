import Lox.Config.Field

/-!
# What the fields of a configuration take

Every check of a field either finds what the field is set to or reports the one problem that the field has
with such data. Together the checks accept just the data that every field takes, and report the problem of
the first field, in their order, that does not take its data. Showing the data that are refused can fail as
well; that is the problem then.
-/

namespace Lox

/-- Data without parts. -/
def Data.isAtom : Data → Bool
  | .boolean _ | .integer _ | .float _ | .date _ | .time _ _ => true
  | .null | .text _ | .list _ | .mapping _ => false

theorem LogLevel.ofName?_eq_some_iff {name : String} {l : LogLevel} :
    LogLevel.ofName? name = some l ↔ name = l.name := by
  constructor
  · intro h
    unfold ofName? at h
    have hname := List.find?_some h
    exact (eq_of_beq hname).symm
  · rintro rfl
    exact l.ofName?_name

namespace Config

/-! ### Fields and their data -/

namespace Field

/-- The field can be set to the data, and is then as the second data say. The names may be left open, be
listed, or be the keys of a mapping; the case of the level does not matter. -/
def Takes : Field → Data → Data → Prop
  | maxErrors, d, v | maxCallDepth, d, v => v = d ∧ ∃ n : Int, 0 < n ∧ d = .integer n
  | allowLocalRedeclaration, d, v | warnUndefinedGlobals, d, v => v = d ∧ ∃ b, d = .boolean b
  | natives, d, v =>
    d = .null ∧ v = .null ∨ ∃ names : List String, v = .list (names.map .text) ∧
      (d = v ∨ ∃ entries, d = .mapping entries ∧ entries.map Prod.fst = names.map .text)
  | logLevel, d, v => ∃ s l, d = .text s ∧ String.ofList (s.toList.map upperChar) = LogLevel.name l ∧
      v = .text l.name

/-- What a field is documented to be. -/
def Documented : Field → Data → Prop
  | maxErrors, v | maxCallDepth, v => ∃ n : Int, 0 < n ∧ v = .integer n
  | allowLocalRedeclaration, v | warnUndefinedGlobals, v => ∃ b, v = .boolean b
  | natives, v => v = .null ∨ ∃ names : List String, v = .list (names.map .text)
  | logLevel, v => ∃ name ∈ ["DEBUG", "INFO", "WARNING", "ERROR", "CRITICAL"], v = .text name

/-- What a field has to say about data that it does not take. -/
def complaint (f : Field) (d : Data) : Problem :=
  match f with
  | maxErrors | maxCallDepth => .notPositive f.key d
  | allowLocalRedeclaration | warnUndefinedGlobals => .notBoolean f.key d
  | natives => .notNames d
  | logLevel => .unknownLevel d

/-- The data are looked through for names that they cannot hold. -/
def Stuck (f : Field) (d : Data) : Prop := f = natives ∧ d.isAtom = true

instance (f : Field) (d : Data) : Decidable (f.Stuck d) := inferInstanceAs (Decidable (_ ∧ _))

/-- The problem that a field has with data that it does not take. -/
def problem (bounds : Data.Bounds) (f : Field) (d : Data) : Problem :=
  if f.Stuck d then .notIterable d else (d.obstacle? bounds).elim (f.complaint d) .unshown

/-- When the field is checked. -/
def rank : Field → Nat
  | maxErrors => 0
  | maxCallDepth => 1
  | allowLocalRedeclaration => 2
  | warnUndefinedGlobals => 3
  | natives => 4
  | logLevel => 5

theorem rank_injective {f g : Field} (h : f.rank = g.rank) : f = g := by
  cases f <;> cases g <;> first | rfl | cases h

theorem Takes.documented {f : Field} {d v : Data} (h : f.Takes d v) : f.Documented v := by
  cases f with
  | maxErrors | maxCallDepth | allowLocalRedeclaration | warnUndefinedGlobals =>
    obtain ⟨rfl, h⟩ := h
    exact h
  | natives =>
    rcases h with ⟨-, hv⟩ | ⟨names, hv, -⟩
    · exact Or.inl hv
    · exact Or.inr ⟨names, hv⟩
  | logLevel =>
    obtain ⟨s, l, -, -, rfl⟩ := h
    cases l <;> exact ⟨_, by decide, rfl⟩

theorem isComplaint_complaint (f : Field) (d : Data) : (f.complaint d).isComplaint = true := by
  cases f <;> rfl

/-- Users are not told about atoms for the names, and about data that cannot be shown. -/
theorem isComplaint_problem (bounds : Data.Bounds) (f : Field) (d : Data) :
    (f.problem bounds d).isComplaint = false ↔ f.Stuck d ∨ (d.obstacle? bounds).isSome := by
  rw [problem]
  split
  · rename_i h
    exact iff_of_true rfl (Or.inl h)
  · rename_i h
    cases d.obstacle? bounds with
    | none => simp [h, isComplaint_complaint]
    | some obstacle => exact iff_of_true rfl (Or.inr rfl)

theorem refuse_eq {α : Type} {bounds : Data.Bounds} {f : Field} {d : Data} (h : ¬ f.Stuck d) :
    refuse bounds d (f.complaint d) = (.error (f.problem bounds d) : Except Problem α) := by
  rw [refuse, problem, if_neg h]

theorem not_takes_atom {d : Data} (h : d.isAtom = true) (v : Data) : ¬ natives.Takes d v := by
  rintro (⟨rfl, -⟩ | ⟨names, rfl, rfl | ⟨entries, rfl, -⟩⟩) <;> cases h

end Field

/-! ### One check -/

/-- What a check of a field finds: what the field is set to, or the field's problem with data that it does
not take. -/
inductive Settles {α : Type} (bounds : Data.Bounds) (f : Field) (d : Data) (write : α → Data) :
    Except Problem α → Prop where
  | found {a : α} (h : ∀ v, f.Takes d v ↔ v = write a) : Settles bounds f d write (.ok a)
  | refused (h : ∀ v, ¬ f.Takes d v) : Settles bounds f d write (.error (f.problem bounds d))

variable {bounds : Data.Bounds} {f : Field}

/-- Data that are refused with what the field has to say about them. -/
theorem Settles.refuse {α : Type} {d : Data} {write : α → Data} (hf : ¬ f.Stuck d)
    (h : ∀ v, ¬ f.Takes d v) : Settles bounds f d write (Config.refuse bounds d (f.complaint d)) := by
  rw [Field.refuse_eq hf]
  exact .refused h

theorem settles_limit (hf : f = .maxErrors ∨ f = .maxCallDepth) (d : Data) :
    Settles bounds f d (fun n : Limit => .integer n.val) (limit bounds f.key d) := by
  have htakes : ∀ v, f.Takes d v ↔ v = d ∧ ∃ n : Int, 0 < n ∧ d = .integer n := by
    rcases hf with rfl | rfl <;> exact fun _ => Iff.rfl
  have hcomplaint : f.complaint d = .notPositive f.key d := by
    rcases hf with rfl | rfl <;> rfl
  have hstuck : ¬ f.Stuck d := by
    rintro ⟨rfl, -⟩
    rcases hf with h | h <;> cases h
  cases d with
  | integer n =>
    rw [limit, ← hcomplaint]
    split
    · rename_i hpos
      have hn : (n.toNat : Int) = n := by omega
      refine .found fun v => ?_
      rw [htakes, hn]
      exact ⟨And.left, fun hv => ⟨hv, n, by omega, rfl⟩⟩
    · refine .refuse hstuck fun v hv => ?_
      obtain ⟨-, m, hm, h⟩ := (htakes v).mp hv
      cases h
      omega
  | _ =>
    change Settles bounds f _ _ (refuse bounds _ (.notPositive f.key _))
    rw [← hcomplaint]
    refine .refuse hstuck fun v hv => ?_
    obtain ⟨-, m, -, h⟩ := (htakes v).mp hv
    cases h

theorem settles_flag (hf : f = .allowLocalRedeclaration ∨ f = .warnUndefinedGlobals) (d : Data) :
    Settles bounds f d .boolean (flag bounds f.key d) := by
  have htakes : ∀ v, f.Takes d v ↔ v = d ∧ ∃ b, d = .boolean b := by
    rcases hf with rfl | rfl <;> exact fun _ => Iff.rfl
  have hcomplaint : f.complaint d = .notBoolean f.key d := by
    rcases hf with rfl | rfl <;> rfl
  have hstuck : ¬ f.Stuck d := by
    rintro ⟨rfl, -⟩
    rcases hf with h | h <;> cases h
  cases d with
  | boolean b => exact .found fun v => (htakes v).trans ⟨And.left, fun hv => ⟨hv, b, rfl⟩⟩
  | _ =>
    change Settles bounds f _ _ (refuse bounds _ (.notBoolean f.key _))
    rw [← hcomplaint]
    refine .refuse hstuck fun v hv => ?_
    obtain ⟨-, b, h⟩ := (htakes v).mp hv
    cases h

theorem namesOf?_eq_some_iff {ds : List Data} {names : List String} :
    namesOf? ds = some names ↔ ds = names.map .text := by
  constructor
  · intro h
    induction ds generalizing names with
    | nil =>
      obtain rfl := Option.some.inj h
      rfl
    | cons d ds ih =>
      cases d with
      | text s =>
        obtain ⟨rest, hrest, rfl⟩ := Option.map_eq_some_iff.mp h
        rw [ih hrest, List.map_cons]
      | _ => cases h
  · rintro rfl
    exact namesOf?_map_text names

/-- What the field of the names is written as. -/
def namesData : Option (List String) → Data
  | none => .null
  | some names => .list (names.map .text)

theorem settles_namesOf? {d : Data} {parts : List Data}
    (htakes : ∀ v, Field.natives.Takes d v ↔
      ∃ names : List String, v = .list (names.map .text) ∧ parts = names.map .text)
    (hatom : d.isAtom = false) :
    Settles bounds .natives d namesData
      (match namesOf? parts with
        | some names => .ok (some names)
        | none => refuse bounds d (.notNames d)) := by
  cases h : namesOf? parts with
  | some names =>
    refine .found fun v => (htakes v).trans ⟨?_, fun hv => ⟨names, hv, namesOf?_eq_some_iff.mp h⟩⟩
    rintro ⟨names', rfl, hnames'⟩
    rw [Option.some.inj (h.symm.trans (namesOf?_eq_some_iff.mpr hnames'))]
    rfl
  | none =>
    refine .refuse (f := .natives) (fun hstuck => ?_) fun v hv => ?_
    · cases hatom.symm.trans hstuck.2
    · obtain ⟨names, -, hnames⟩ := (htakes v).mp hv
      rw [namesOf?_eq_some_iff.mpr hnames] at h
      cases h

theorem settles_names (d : Data) : Settles bounds .natives d namesData (names bounds d) := by
  cases d with
  | null =>
    refine .found fun v => ⟨?_, fun hv => Or.inl ⟨rfl, hv⟩⟩
    rintro (⟨-, rfl⟩ | ⟨names, rfl, h | ⟨entries, h, -⟩⟩)
    · rfl
    · cases h
    · cases h
  | list items =>
    refine settles_namesOf? (fun v => ⟨?_, ?_⟩) rfl
    · rintro (⟨h, -⟩ | ⟨names, rfl, h | ⟨entries, h, -⟩⟩)
      · cases h
      · exact ⟨names, rfl, Data.list.inj h⟩
      · cases h
    · rintro ⟨names, rfl, rfl⟩
      exact Or.inr ⟨names, rfl, Or.inl rfl⟩
  | mapping entries =>
    refine settles_namesOf? (fun v => ⟨?_, ?_⟩) rfl
    · rintro (⟨h, -⟩ | ⟨names, rfl, h | ⟨entries', h, hnames⟩⟩)
      · cases h
      · cases h
      · obtain rfl := Data.mapping.inj h
        exact ⟨names, rfl, hnames⟩
    · rintro ⟨names, rfl, hnames⟩
      exact Or.inr ⟨names, rfl, Or.inr ⟨entries, rfl, hnames⟩⟩
  | text s =>
    refine .refuse (f := .natives) (by rintro ⟨-, h⟩; cases h) ?_
    rintro v (⟨h, -⟩ | ⟨names, rfl, h | ⟨entries, h, -⟩⟩) <;> cases h
  | boolean | integer | float | date | time => exact .refused (Field.not_takes_atom rfl)

theorem settles_level (d : Data) :
    Settles bounds .logLevel d (fun l : LogLevel => .text l.name) (level bounds d) := by
  have hstuck : ¬ Field.logLevel.Stuck d := by
    rintro ⟨h, -⟩
    cases h
  cases d with
  | text s =>
    have htakes : ∀ v, Field.logLevel.Takes (.text s) v ↔
        ∃ l : LogLevel, String.ofList (s.toList.map upperChar) = l.name ∧ v = .text l.name := by
      intro v
      constructor
      · rintro ⟨s', l, hs, hl, hv⟩
        obtain rfl := Data.text.inj hs
        exact ⟨l, hl, hv⟩
      · rintro ⟨l, hl, hv⟩
        exact ⟨s, l, rfl, hl, hv⟩
    rw [level]
    cases h : LogLevel.ofName? (String.ofList (s.toList.map upperChar)) with
    | some l =>
      have hl := LogLevel.ofName?_eq_some_iff.mp h
      refine .found fun v => (htakes v).trans ⟨?_, fun hv => ⟨l, hl, hv⟩⟩
      rintro ⟨l', hl', rfl⟩
      exact congrArg Data.text (hl'.symm.trans hl)
    | none =>
      refine .refuse (f := .logLevel) hstuck fun v hv => ?_
      obtain ⟨l, hl, -⟩ := (htakes v).mp hv
      rw [LogLevel.ofName?_eq_some_iff.mpr hl] at h
      cases h
  | _ =>
    refine .refuse (f := .logLevel) hstuck ?_
    rintro v ⟨s, l, h, -⟩
    cases h

/-! ### All checks -/

/-- The fields that are checked before a time take their data. -/
def TakenBefore (values : Field → Data) (n : Nat) : Prop :=
  ∀ g : Field, g.rank < n → ∃ v, g.Takes (values g) v

/-- What the checks find: a configuration in which every field is as its data say, or the problem of the
first field that does not take its data. -/
inductive Checked (bounds : Data.Bounds) (values : Field → Data) : Except Problem Config → Prop where
  | valid {c : Config} (h : ∀ (f : Field) (v : Data), f.Takes (values f) v ↔ v = c.get f) :
    Checked bounds values (.ok c)
  | invalid {f : Field} (hbefore : TakenBefore values f.rank) (h : ∀ v, ¬ f.Takes (values f) v) :
    Checked bounds values (.error (f.problem bounds (values f)))

theorem Checked.step {α : Type} {values : Field → Data} {write : α → Data} {r : Except Problem α}
    {rest : α → Except Problem Config} (hbefore : TakenBefore values f.rank)
    (hf : Settles bounds f (values f) write r)
    (hrest : ∀ a, (∀ v, f.Takes (values f) v ↔ v = write a) → TakenBefore values (f.rank + 1) →
      Checked bounds values (rest a)) :
    Checked bounds values (r >>= rest) := by
  cases hf with
  | refused h => exact .invalid hbefore h
  | @found a h =>
    refine hrest a h fun g hg => ?_
    rcases Nat.lt_succ_iff_lt_or_eq.mp hg with hg | hg
    · exact hbefore g hg
    · obtain rfl := Field.rank_injective hg
      exact ⟨write a, (h _).mpr rfl⟩

theorem checked_check (bounds : Data.Bounds) (values : Field → Data) :
    Checked bounds values (check bounds values) := by
  refine .step (f := .maxErrors) nofun (settles_limit (Or.inl rfl) _) fun _ herrors h => ?_
  refine .step (f := .maxCallDepth) h (settles_limit (Or.inr rfl) _) fun _ hcalls h => ?_
  refine .step (f := .allowLocalRedeclaration) h (settles_flag (Or.inl rfl) _) fun _ hallow h => ?_
  refine .step (f := .warnUndefinedGlobals) h (settles_flag (Or.inr rfl) _) fun _ hwarn h => ?_
  refine .step (f := .natives) h (settles_names _) fun ns hnames h => ?_
  refine .step (f := .logLevel) h (settles_level _) fun _ hlevel _ => .valid fun f v => ?_
  cases f with
  | maxErrors => exact herrors v
  | maxCallDepth => exact hcalls v
  | allowLocalRedeclaration => exact hallow v
  | warnUndefinedGlobals => exact hwarn v
  | natives => cases ns <;> exact hnames v
  | logLevel => exact hlevel v

variable {values : Field → Data} {c : Config}

theorem get_injective {c d : Config} (h : c.get = d.get) : c = d :=
  Except.ok.inj ((check_get {} c).symm.trans ((congrArg (check {}) h).trans (check_get {} d)))

/-- Data form a configuration just if each field takes its own and is then as in the configuration. -/
theorem check_eq_ok_iff :
    check bounds values = .ok c ↔ ∀ f : Field, f.Takes (values f) (c.get f) := by
  have hchecked := checked_check bounds values
  constructor
  · intro h f
    rw [h] at hchecked
    cases hchecked with
    | valid h => exact (h f _).mpr rfl
  · intro h
    cases hcheck : check bounds values with
    | ok d =>
      rw [hcheck] at hchecked
      cases hchecked with
      | valid hd => exact congrArg Except.ok (get_injective (funext fun f => ((hd f _).mp (h f)).symm))
    | error p =>
      rw [hcheck] at hchecked
      cases hchecked with
      | invalid _ hf => exact absurd (h _) (hf _)

/-- A problem is told to users, unless a field is reached whose data are atoms in the place of names, or are
refused and cannot be shown. -/
theorem isComplaint_of_check {p : Problem} (h : check bounds values = .error p) :
    p.isComplaint = false ↔
      ∃ f : Field, TakenBefore values f.rank ∧ (∀ v, ¬ f.Takes (values f) v) ∧
        (f.Stuck (values f) ∨ ((values f).obstacle? bounds).isSome) := by
  have hchecked := checked_check bounds values
  rw [h] at hchecked
  cases hchecked with
  | @invalid f hbefore hf =>
    rw [Field.isComplaint_problem]
    constructor
    · exact fun h => ⟨f, hbefore, hf, h⟩
    · rintro ⟨g, hbefore', hg, h⟩
      have hrank : f.rank = g.rank := by
        rcases Nat.lt_trichotomy f.rank g.rank with hlt | heq | hlt
        · obtain ⟨v, hv⟩ := hbefore' f hlt
          exact absurd hv (hf v)
        · exact heq
        · obtain ⟨v, hv⟩ := hbefore g hlt
          exact absurd hv (hg v)
      obtain rfl := Field.rank_injective hrank
      exact h

end Config

end Lox

import Lox.CommandLine.Commands
import Lox.Proofs.Config.Fields

/-!
# Documents that form no configuration

A mapping forms a configuration, or something is wrong with it that users are told about and that ends a
command with an exit code of its own; with three exceptions: a key that is no text, an atom in the place of the
names, and data that are refused and that the host cannot show. With a text there is one more: its reader breaks
down over it. Nothing else is known about readers.
-/

namespace Lox

namespace Data

theorem isText_iff {name : String} {d : Data} : d.isText name = true ↔ d = .text name := by
  cases d <;> simp [isText]

theorem typeName_eq_str_iff {d : Data} : d.typeName = "str" ↔ ∃ s, d = .text s := by
  cases d <;> simp [typeName]

end Data

namespace Config

variable {bounds : Data.Bounds} {read : Data.Reader} {entries : List (Data × Data)} {c : Config} {p : Problem}

/-! ### Keys -/

/-- Every key names a field. -/
def KnownKeys (entries : List (Data × Data)) : Prop :=
  ∀ k ∈ entries.map Prod.fst, ∃ f : Field, k = .text f.key

theorem isKnownKey_iff {d : Data} : isKnownKey d = true ↔ ∃ f : Field, d = .text f.key := by
  rw [isKnownKey, List.any_eq_true]
  constructor
  · rintro ⟨f, -, hf⟩
    exact ⟨f, Data.isText_iff.mp hf⟩
  · rintro ⟨f, rfl⟩
    exact ⟨f, f.mem_all, Data.isText_iff.mpr rfl⟩

theorem mem_unknown_iff {k : Data} :
    k ∈ (entries.map Prod.fst).filter (fun k => !isKnownKey k) ↔
      k ∈ entries.map Prod.fst ∧ ¬ ∃ f : Field, k = .text f.key := by
  rw [List.mem_filter, Bool.not_eq_true', ← isKnownKey_iff, Bool.not_eq_true]

theorem unknownKeys?_eq_none_iff : unknownKeys? entries = none ↔ KnownKeys entries := by
  have hempty : (entries.map Prod.fst).filter (fun k => !isKnownKey k) = [] ↔ KnownKeys entries := by
    rw [List.eq_nil_iff_forall_not_mem]
    simp only [mem_unknown_iff, not_and, Classical.not_not, KnownKeys]
  unfold unknownKeys?
  dsimp only
  split
  · rename_i k hk
    refine ⟨nofun, fun h => ?_⟩
    rw [hempty.mpr h] at hk
    cases hk
  · rw [← hempty, ← List.isEmpty_iff]
    split <;> simp_all

theorem isComplaint_of_unknownKeys? (h : unknownKeys? entries = some p) :
    p.isComplaint = false ↔ ∃ k ∈ entries.map Prod.fst, ∀ s, k ≠ .text s := by
  unfold unknownKeys? at h
  dsimp only at h
  split at h
  · rename_i k hk
    obtain rfl := Option.some.inj h
    have hmem := (mem_unknown_iff.mp (List.mem_of_find?_eq_some hk)).1
    have hname := List.find?_some hk
    refine iff_of_true rfl ⟨k, hmem, fun s hs => ?_⟩
    rw [hs] at hname
    cases hname
  · rename_i hnone
    split at h
    · cases h
    · obtain rfl := Option.some.inj h
      refine iff_of_false nofun ?_
      rintro ⟨k, hmem, hk⟩
      have hunknown : ¬ ∃ f : Field, k = .text f.key := fun ⟨f, hf⟩ => hk f.key hf
      have hstr := List.find?_eq_none.mp hnone k (mem_unknown_iff.mpr ⟨hmem, hunknown⟩)
      obtain ⟨s, hs⟩ := Data.typeName_eq_str_iff.mp (Classical.not_not.mp fun hne => hstr (bne_iff_ne.mpr hne))
      exact hk s hs

/-! ### Mappings -/

/-- What a mapping sets a field to; the default unless it has the field's key. -/
def Field.valueIn (entries : List (Data × Data)) (f : Field) : Data :=
  (Data.lookupText f.key entries).getD (get {} f)

/-- No check gets through the data: a key is no text; or the keys and all fields checked before are right, and
the names are to be found in an atom, or a field does not take its data and these cannot be shown. -/
inductive Unsearchable (bounds : Data.Bounds) (entries : List (Data × Data)) : Prop where
  | key {k : Data} (hk : k ∈ entries.map Prod.fst) (htext : ∀ s, k ≠ .text s)
  | natives (hkeys : KnownKeys entries)
    (hbefore : TakenBefore (Field.valueIn entries) Field.natives.rank)
    (hatom : (Field.natives.valueIn entries).isAtom = true)
  | unshown {f : Field} (hkeys : KnownKeys entries) (hbefore : TakenBefore (Field.valueIn entries) f.rank)
    (hrefused : ∀ v, ¬ f.Takes (f.valueIn entries) v)
    (hshown : ((f.valueIn entries).obstacle? bounds).isSome)

theorem ofEntries_eq_check (h : KnownKeys entries) :
    ofEntries bounds entries = check bounds (Field.valueIn entries) := by
  rw [ofEntries, unknownKeys?_eq_none_iff.mpr h]
  rfl

theorem ofEntries_eq_ok_iff : ofEntries bounds entries = .ok c ↔
    KnownKeys entries ∧ ∀ f : Field, f.Takes (f.valueIn entries) (c.get f) := by
  constructor
  · intro h
    have hkeys : KnownKeys entries := by
      rw [← unknownKeys?_eq_none_iff]
      unfold ofEntries at h
      split at h
      · cases h
      · assumption
    exact ⟨hkeys, check_eq_ok_iff.mp ((ofEntries_eq_check hkeys).symm.trans h)⟩
  · rintro ⟨hkeys, htakes⟩
    exact (ofEntries_eq_check hkeys).trans (check_eq_ok_iff.mpr htakes)

theorem isComplaint_of_ofEntries (h : ofEntries bounds entries = .error p) :
    p.isComplaint = false ↔ Unsearchable bounds entries := by
  cases hkeys : unknownKeys? entries with
  | some q =>
    have hq : q = p := by
      rw [ofEntries, hkeys] at h
      exact Except.error.inj h
    have hunknown : ¬ KnownKeys entries := fun hk => by
      rw [unknownKeys?_eq_none_iff.mpr hk] at hkeys
      cases hkeys
    rw [← hq, isComplaint_of_unknownKeys? hkeys]
    constructor
    · rintro ⟨k, hk, htext⟩
      exact .key hk htext
    · rintro (⟨hk, htext⟩ | ⟨hk, -, -⟩ | ⟨hk, -, -, -⟩)
      · exact ⟨_, hk, htext⟩
      · exact absurd hk hunknown
      · exact absurd hk hunknown
  | none =>
    have hknown := unknownKeys?_eq_none_iff.mp hkeys
    rw [isComplaint_of_check ((ofEntries_eq_check hknown).symm.trans h)]
    constructor
    · rintro ⟨f, hbefore, hrefused, ⟨rfl, hatom⟩ | hshown⟩
      · exact .natives hknown hbefore hatom
      · exact .unshown hknown hbefore hrefused hshown
    · rintro (⟨hk, htext⟩ | ⟨-, hbefore, hatom⟩ | ⟨-, hbefore, hrefused, hshown⟩)
      · obtain ⟨f, hf⟩ := hknown _ hk
        exact absurd hf (htext f.key)
      · exact ⟨.natives, hbefore, Field.not_takes_atom hatom, Or.inl ⟨rfl, hatom⟩⟩
      · exact ⟨_, hbefore, hrefused, Or.inr hshown⟩

/-! ### Documents and files -/

theorem ofEntries_nil : ofEntries bounds [] = .ok {} := check_get bounds {}

theorem ofDocument_mapping (entries : List (Data × Data)) :
    ofDocument bounds (.mapping entries) = ofEntries bounds entries := by
  cases entries <;> rfl

/-- An empty document stands for the defaults, one that is no mapping is complained about. -/
theorem isComplaint_of_ofDocument {d : Data} (h : ofDocument bounds d = .error p) :
    p.isComplaint = false ↔ ∃ entries, d = .mapping entries ∧ Unsearchable bounds entries := by
  by_cases hd : ∃ entries, d = .mapping entries
  · obtain ⟨entries, rfl⟩ := hd
    rw [ofDocument_mapping] at h
    rw [isComplaint_of_ofEntries h]
    exact ⟨fun hu => ⟨entries, rfl, hu⟩, fun ⟨_, he, hu⟩ => Data.mapping.inj he ▸ hu⟩
  · refine iff_of_false ?_ fun ⟨entries, he, _⟩ => hd ⟨entries, he⟩
    unfold ofDocument at h
    split at h
    · rw [ofEntries_nil] at h
      cases h
    · split at h
      · exact absurd ⟨_, rfl⟩ hd
      · cases h
        nofun

theorem ofText_of_mapping {text : String} (h : read text = .ok (.mapping entries)) (path : Path) :
    ofText bounds read path text = ofEntries bounds entries := by
  rw [ofText, h]
  exact ofDocument_mapping entries

theorem isComplaint_of_ofText {path : Path} {text : String} (h : ofText bounds read path text = .error p) :
    p.isComplaint = false ↔ (∃ kind message, read text = .error (.uncaught kind message)) ∨
      ∃ entries, read text = .ok (.mapping entries) ∧ Unsearchable bounds entries := by
  unfold ofText at h
  cases hd : read text with
  | ok d =>
    rw [hd] at h
    rw [isComplaint_of_ofDocument h]
    simp
  | error fault =>
    rw [hd] at h
    obtain rfl := Except.error.inj h
    cases fault <;> simp [Problem.ofFault, Problem.isComplaint]

end Config

/-! ### Commands -/

namespace CommandLine

/-- The arguments name a configuration file, and the text is what it holds. -/
def Configures (around : Surroundings) (args : List String) (path : Path) (text : String) : Prop :=
  ∃ i, parse args = .ok i ∧ i.config.map Path.ofText = some path ∧ around.find? path = some (.file text)

variable {around : Surroundings} {args : List String} {path : Path} {text : String} {p : Config.Problem}

theorem load_of_ofText (hfile : around.find? path = some (.file text))
    (hp : Config.ofText around.bounds around.read path text = .error p) :
    Config.load around.bounds around.read (some path) around.find? around.vars = .error p := by
  simp only [Config.load, hfile, Config.ofEntry, hp]
  rfl

/-- A command whose configuration file has a problem does nothing but refuse it. -/
theorem Configures.transcript (h : Configures around args path text)
    (hp : Config.ofText around.bounds around.read path text = .error p) (input : String) :
    transcript around args input = refuseConfig p := by
  obtain ⟨i, hargs, hpath, hfile⟩ := h
  simp only [CommandLine.transcript, start, hargs, perform, hpath, load_of_ofText hfile hp]

end CommandLine

namespace Config

open CommandLine (Configures transcript)

/-- A mapping forms a configuration just if its keys name fields and every field takes its data; all fields
are as documented then. Otherwise there is a problem that users are told about, unless no check gets through
the data. A text that is read as a mapping is answered like the mapping; with other texts there can besides be
scalars over which the reader breaks down. A command whose configuration file has a problem that users are told
about complains and ends with exit code 78; with another it breaks down. -/
theorem configured_or_refused (bounds : Data.Bounds) (entries : List (Data × Data)) :
    (∀ c, ofEntries bounds entries = .ok c ↔
        KnownKeys entries ∧ ∀ f : Field, f.Takes (f.valueIn entries) (c.get f)) ∧
      (∀ c, ofEntries bounds entries = .ok c → ∀ f : Field, f.Documented (c.get f)) ∧
      (∀ p, ofEntries bounds entries = .error p → (p.isComplaint = false ↔ Unsearchable bounds entries)) ∧
      (∀ (read : Data.Reader) path text, read text = .ok (.mapping entries) →
        ofText bounds read path text = ofEntries bounds entries) ∧
      ∀ around args path text input p, around.bounds = bounds → Configures around args path text →
        ofText bounds around.read path text = .error p →
          load bounds around.read (some path) around.find? around.vars = .error p ∧
          (p.isComplaint = false ↔ (∃ kind message, around.read text = .error (.uncaught kind message)) ∨
            ∃ entries', around.read text = .ok (.mapping entries') ∧ Unsearchable bounds entries') ∧
          (p.isComplaint = true → (transcript around args input).chunks = [.complaint p.message] ∧
            (transcript around args input).ending.map CommandLine.Exit.code = .ok 78) ∧
          (p.isComplaint = false → (transcript around args input).ending = .error (.config p)) := by
  refine ⟨fun c => ofEntries_eq_ok_iff, fun c hc f => ((ofEntries_eq_ok_iff.mp hc).2 f).documented,
    fun p hp => isComplaint_of_ofEntries hp, fun read path text htext => ofText_of_mapping htext path, ?_⟩
  rintro around args path text input p rfl hconfigures hp
  have htranscript := hconfigures.transcript hp input
  obtain ⟨i, -, -, hfile⟩ := hconfigures
  refine ⟨CommandLine.load_of_ofText hfile hp, isComplaint_of_ofText hp, fun hc => ?_, fun hc => ?_⟩
  · rw [htranscript, CommandLine.refuseConfig, if_pos hc]
    exact ⟨rfl, rfl⟩
  · rw [htranscript, CommandLine.refuseConfig, hc]
    rfl

/-- Surroundings in which every file is a configuration that sets the names to the data. -/
def naming (d : Data) : CommandLine.Surroundings where
  bounds := {}
  read := fun _ => .ok (.mapping [(.text "natives", d)])
  find? := fun _ => some (.file "")
  vars := []
  natives := .standard
  clock := fun _ => default
  machine := fun _ => .standard

theorem configures_naming (d : Data) : Configures (naming d) ["-c", "a", "run"] (Path.ofText "a") "" :=
  ⟨⟨some "a", 0, .run none⟩, rfl, rfl, rfl⟩

/-- A number in the place of the names breaks a command down, a text is complained about. -/
theorem configured_or_refused_names :
    Unsearchable {} [(.text "natives", .integer 5)] ∧
      (transcript (naming (.integer 5)) ["-c", "a", "run"] "").ending =
        .error (.config (.notIterable (.integer 5))) ∧
      (transcript (naming (.text "a")) ["-c", "a", "run"] "").ending.map CommandLine.Exit.code = .ok 78 := by
  have hentries : ofEntries {} [(.text "natives", .integer 5)] = .error (.notIterable (.integer 5)) := rfl
  have htext : ofEntries {} [(.text "natives", .text "a")] = .error (.notNames (.text "a")) := rfl
  obtain ⟨-, -, hcomplaint, hread, hcommand⟩ := configured_or_refused {} [(.text "natives", .integer 5)]
  obtain ⟨-, -, -, hread', hcommand'⟩ := configured_or_refused {} [(.text "natives", .text "a")]
  have hnumber := (hread (naming (.integer 5)).read (Path.ofText "a") "" rfl).trans hentries
  have hnames := (hread' (naming (.text "a")).read (Path.ofText "a") "" rfl).trans htext
  exact ⟨(hcomplaint _ hentries).mp rfl,
    (hcommand _ _ _ _ "" _ rfl (configures_naming _) hnumber).2.2.2 rfl,
    ((hcommand' _ _ _ _ "" _ rfl (configures_naming _) hnames).2.2.1 rfl).2⟩

end Config

end Lox

import Lox.Config.Variables
import Lox.Proofs.Config.Fields
import Lox.Proofs.Numbers.Integers
import Mathlib.Data.List.Forall2

/-!
# What the texts of variables denote

A text in the variable of a field denotes data: an integer with no more digits than the host reads, a boolean in
one of eight words, the names between commas, or itself. The reader of a field finds these data, or reports the
one problem that the field has with texts that denote none.
-/

namespace Lox

/-! ### Parts between separators -/

namespace Text

variable {separator : Char} {cs : List Char} {parts : List (List Char)}

theorem fields_eq_splitOn (separator : Char) (cs : List Char) :
    fields separator cs = cs.splitOn separator := by
  induction cs with
  | nil => rfl
  | cons c cs ih =>
    rw [List.splitOn_cons_eq_if_modifyHead, fields, ← ih]
    by_cases hc : c = separator
    · rw [if_pos hc, if_pos (beq_iff_eq.mpr hc)]
    · rw [if_neg hc, if_neg (beq_iff_eq.not.mpr hc)]
      cases h : fields separator cs with
      | nil => exact absurd h (fields_ne_nil _ _)
      | cons f fs => rfl

theorem not_mem_fields (separator : Char) (cs : List Char) : ∀ part ∈ fields separator cs, separator ∉ part := by
  induction cs with
  | nil =>
    intro part hpart
    rw [List.mem_singleton.mp hpart]
    exact List.not_mem_nil
  | cons c cs ih =>
    rw [fields]
    split
    · exact List.forall_mem_cons.mpr ⟨List.not_mem_nil, ih⟩
    · rename_i hc
      split
      · rename_i h
        exact absurd h (fields_ne_nil _ _)
      · rename_i f fs h
        rw [h, List.forall_mem_cons] at ih
        refine List.forall_mem_cons.mpr ⟨fun hmem => ?_, ih.2⟩
        rcases List.mem_cons.mp hmem with h | h
        · exact hc h.symm
        · exact ih.1 h

/-- The fields of a text are the one way to put it together from parts without the separator. -/
theorem fields_eq_iff : fields separator cs = parts ↔
    parts ≠ [] ∧ (∀ part ∈ parts, separator ∉ part) ∧ [separator].intercalate parts = cs := by
  constructor
  · rintro rfl
    exact ⟨fields_ne_nil _ _, not_mem_fields _ _, intercalate_fields _ _⟩
  · rintro ⟨hne, hparts, rfl⟩
    rw [fields_eq_splitOn]
    exact List.splitOn_intercalate separator hparts hne

end Text

namespace Config

/-! ### Words and names -/

/-- The words for a boolean. -/
def booleanWords : Bool → List String
  | true => ["1", "true", "yes", "on"]
  | false => ["0", "false", "no", "off"]

theorem booleanWord?_eq_some_iff {word : String} {b : Bool} :
    booleanWord? word = some b ↔ word ∈ booleanWords b := by
  have hapart : word ∈ booleanWords true → word ∉ booleanWords false := by
    simp only [booleanWords, List.mem_cons, List.not_mem_nil, or_false]
    rintro (rfl | rfl | rfl | rfl) <;> decide
  rw [booleanWord?]
  simp only [List.contains_iff_mem]
  cases b <;> split_ifs <;> simp_all [booleanWords]

/-- The names are what stands between the commas of a text, without the blanks around it, as far as something
is left of it. -/
def Lists (text : List Char) (names : List String) : Prop :=
  ∃ parts bodies : List (List Char), parts ≠ [] ∧ (∀ part ∈ parts, ',' ∉ part) ∧
    [','].intercalate parts = text ∧ List.Forall₂ (Text.Wraps Text.isBlank) parts bodies ∧
    names = (bodies.filter fun body => !body.isEmpty).map String.ofList

theorem forall₂_wraps_iff {parts bodies : List (List Char)} :
    List.Forall₂ (Text.Wraps Text.isBlank) parts bodies ↔ parts.map Text.trimChars = bodies := by
  have hwraps : Text.Wraps Text.isBlank = fun part body => Text.trimChars part = body := by
    funext part body
    exact propext Text.trimChars_eq_iff.symm
  rw [hwraps, ← List.forall₂_map_left_iff, List.forall₂_eq_eq_eq]

theorem listedNames_eq (text : String) : listedNames text =
    (((Text.fields ',' text.toList).map Text.trimChars).filter fun body => !body.isEmpty).map
      String.ofList := by
  have htrim : (fun part => Text.trim (String.ofList part)) = String.ofList ∘ Text.trimChars := by
    funext part
    rw [Text.trim, String.toList_ofList, Function.comp]
  have hempty : (fun s : String => !s.isEmpty) ∘ String.ofList = fun body => !body.isEmpty := by
    funext body
    rw [Function.comp, Bool.not_inj_iff, Bool.eq_iff_iff, String.isEmpty_iff, List.isEmpty_iff,
      String.ofList_eq_empty_iff]
  rw [listedNames, htrim, ← List.map_map, List.filter_map, hempty]

theorem listedNames_eq_iff {text : String} {names : List String} :
    listedNames text = names ↔ Lists text.toList names := by
  constructor
  · rintro rfl
    obtain ⟨hne, hparts, htext⟩ := Text.fields_eq_iff.mp rfl
    exact ⟨_, _, hne, hparts, htext, forall₂_wraps_iff.mpr rfl, listedNames_eq text⟩
  · rintro ⟨parts, bodies, hne, hparts, htext, hbodies, rfl⟩
    rw [listedNames_eq, Text.fields_eq_iff.mpr ⟨hne, hparts, htext⟩, forall₂_wraps_iff.mp hbodies]

/-! ### The texts of all fields -/

namespace Field

/-- The text in the variable of the field denotes the data. -/
def Denotes (bounds : Data.Bounds) : Field → String → Data → Prop
  | maxErrors, text, d | maxCallDepth, text, d =>
    ∃ body n, Text.Wraps Decimal.isIntegerBlank text.toList body ∧ Decimal.IsInteger body n ∧
      Text.withinLimit bounds.digits (Decimal.digitCount body) = true ∧ d = .integer n
  | allowLocalRedeclaration, text, d | warnUndefinedGlobals, text, d =>
    ∃ body b, Text.Wraps Text.isBlank text.toList body ∧
      String.ofList (body.map Char.toLower) ∈ booleanWords b ∧ d = .boolean b
  | natives, text, d => ∃ names, Lists text.toList names ∧ d = .list (names.map .text)
  | logLevel, text, d => d = .text text

/-- The problem that a field has with texts that denote nothing. There are none for names and levels. -/
def unreadable (f : Field) (text : String) : Problem :=
  match f with
  | allowLocalRedeclaration | warnUndefinedGlobals => .notBooleanText f.varName text
  | maxErrors | maxCallDepth | natives | logLevel => .notInteger f.varName text

theorem isComplaint_unreadable (f : Field) (text : String) : (f.unreadable text).isComplaint = true := by
  cases f <;> rfl

/-- What reading a text for a field finds: the data that it denotes, or the field's problem with texts that
denote none. -/
inductive Reads (bounds : Data.Bounds) (f : Field) (text : String) : Except Problem Data → Prop where
  | found {d : Data} (h : ∀ e, f.Denotes bounds text e ↔ e = d) : Reads bounds f text (.ok d)
  | unread (h : ∀ d, ¬ f.Denotes bounds text d) : Reads bounds f text (.error (f.unreadable text))

variable {bounds : Data.Bounds} {f : Field} {text : String}

theorem reads_elim {α : Type} {r : Option α} {write : α → Data}
    (hparse : f.parse bounds text = r.elim (.error (f.unreadable text)) fun a => .ok (write a))
    (h : ∀ d, f.Denotes bounds text d ↔ ∃ a, r = some a ∧ d = write a) :
    f.Reads bounds text (f.parse bounds text) := by
  rw [hparse]
  cases r with
  | some a =>
    refine .found fun d => (h d).trans ⟨?_, fun hd => ⟨a, rfl, hd⟩⟩
    rintro ⟨a', ha, rfl⟩
    rw [Option.some.inj ha]
  | none =>
    refine .unread fun d hd => ?_
    obtain ⟨a, ha, -⟩ := (h d).mp hd
    cases ha

theorem reads_integer (hf : f = maxErrors ∨ f = maxCallDepth) (text : String) :
    f.Reads bounds text (f.parse bounds text) := by
  have hdenotes : ∀ d, f.Denotes bounds text d ↔
      ∃ n : ℤ, Decimal.integer? bounds.digits text = some n ∧ d = .integer n := by
    intro d
    simp only [Decimal.integer?_eq_some_iff]
    rcases hf with rfl | rfl <;>
      exact ⟨fun ⟨body, n, hbody, hn, hlimit, hd⟩ => ⟨n, ⟨body, hbody, hn, hlimit⟩, hd⟩,
        fun ⟨n, ⟨body, hbody, hn, hlimit⟩, hd⟩ => ⟨body, n, hbody, hn, hlimit, hd⟩⟩
  refine reads_elim ?_ hdenotes
  rcases hf with rfl | rfl <;> (rw [parse]; cases Decimal.integer? bounds.digits text <;> rfl)

theorem reads_boolean (hf : f = allowLocalRedeclaration ∨ f = warnUndefinedGlobals) (text : String) :
    f.Reads bounds text (f.parse bounds text) := by
  have hdenotes : ∀ d, f.Denotes bounds text d ↔
      ∃ b, booleanWord? (String.ofList ((Text.trimChars text.toList).map Char.toLower)) = some b ∧
        d = .boolean b := by
    intro d
    have htrim := Text.trimChars_eq_iff.mp (rfl : Text.trimChars text.toList = _)
    simp only [booleanWord?_eq_some_iff]
    have hbody : f.Denotes bounds text d ↔ ∃ body b, Text.Wraps Text.isBlank text.toList body ∧
        String.ofList (body.map Char.toLower) ∈ booleanWords b ∧ d = .boolean b := by
      rcases hf with rfl | rfl <;> exact Iff.rfl
    rw [hbody]
    constructor
    · rintro ⟨body, b, hwraps, hword, hd⟩
      obtain rfl := Text.trimChars_eq_iff.mpr hwraps
      exact ⟨b, hword, hd⟩
    · rintro ⟨b, hword, hd⟩
      exact ⟨_, b, htrim, hword, hd⟩
  refine reads_elim ?_ hdenotes
  rcases hf with rfl | rfl <;>
    (rw [parse]; cases booleanWord? (String.ofList ((Text.trimChars text.toList).map Char.toLower)) <;> rfl)

theorem reads_parse (bounds : Data.Bounds) (f : Field) (text : String) :
    f.Reads bounds text (f.parse bounds text) := by
  cases f with
  | maxErrors => exact reads_integer (Or.inl rfl) text
  | maxCallDepth => exact reads_integer (Or.inr rfl) text
  | allowLocalRedeclaration => exact reads_boolean (Or.inl rfl) text
  | warnUndefinedGlobals => exact reads_boolean (Or.inr rfl) text
  | natives =>
    refine .found fun d => ⟨?_, fun hd => ⟨listedNames text, listedNames_eq_iff.mp rfl, hd⟩⟩
    rintro ⟨names, hnames, rfl⟩
    rw [listedNames_eq_iff.mpr hnames]
  | logLevel => exact .found fun d => Iff.rfl

theorem Denotes.unique {d e : Data} (hd : f.Denotes bounds text d) (he : f.Denotes bounds text e) :
    d = e := by
  have hreads := f.reads_parse bounds text
  generalize f.parse bounds text = r at hreads
  cases hreads with
  | found h => rw [(h d).mp hd, (h e).mp he]
  | unread h => exact absurd hd (h d)

/-- All that a text denotes can be shown, unless it is a list of names. -/
theorem Denotes.shown {d : Data} (h : f.Denotes bounds text d) (hf : f ≠ natives) :
    d.obstacle? bounds = none := by
  cases f with
  | natives => exact absurd rfl hf
  | maxErrors | maxCallDepth =>
    obtain ⟨body, n, -, hn, hlimit, rfl⟩ := h
    have hdigits : Text.withinLimit bounds.digits (Decimal.digitChars n.natAbs).length = true := by
      have hlength := Decimal.length_digitChars_le hn
      unfold Text.withinLimit at hlimit ⊢
      cases hmost : bounds.digits with
      | none => rfl
      | some most =>
        rw [hmost] at hlimit
        exact decide_eq_true (hlength.trans (of_decide_eq_true hlimit))
    rw [Data.obstacle?, Data.obstacleWithin, if_pos hdigits]
  | allowLocalRedeclaration | warnUndefinedGlobals =>
    obtain ⟨-, b, -, -, rfl⟩ := h
    rw [Data.obstacle?, Data.obstacleWithin] <;> nofun
  | logLevel =>
    obtain rfl := h
    rw [Data.obstacle?, Data.obstacleWithin] <;> nofun

end Field

end Config

end Lox

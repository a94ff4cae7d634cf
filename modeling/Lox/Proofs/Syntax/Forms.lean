import Mathlib.Data.List.TakeWhile

/-!
# Forms

A form is a word, or forms in parentheses with a blank between each two. Its text is read in one way only,
whatever follows, and so is a row of forms with one character between each two.
-/

namespace Lox

inductive Form where
  | word (text : List Char)
  | node (parts : List Form)

namespace Form

/-! ### Texts -/

mutual

def chars : Form → List Char
  | .word text => text
  | .node parts => '(' :: ([' '].intercalate (charsAll parts) ++ [')'])

def charsAll : List Form → List (List Char)
  | [] => []
  | f :: fs => f.chars :: charsAll fs

end

/-- Characters that may stand right behind a form. -/
def closes (c : Char) : Bool := c == ' ' || c == '\n' || c == ')'

def Ended (rest : List Char) : Prop := ∀ c ∈ rest.head?, closes c = true

/-- Words in quotation marks, and words without marks. -/
inductive IsWord : List Char → Prop where
  | plain {text : List Char} :
    text ≠ [] → (∀ c ∈ text, closes c = false ∧ c ≠ '(' ∧ c ≠ '"') → IsWord text
  | quoted {body : List Char} : (∀ c ∈ body, c ≠ '"') → IsWord ('"' :: (body ++ ['"']))

mutual

def WellFormed : Form → Prop
  | .word text => IsWord text
  | .node parts => WellFormedAll parts

def WellFormedAll : List Form → Prop
  | [] => True
  | f :: fs => f.WellFormed ∧ WellFormedAll fs

end

/-- A row of forms with a separator between each two. -/
def row (separator : Char) (fs : List Form) : List Char := [separator].intercalate (charsAll fs)

/-- What stands in a row behind its first form. -/
def behind (separator : Char) : List Form → List Char
  | [] => []
  | f :: fs => separator :: (f.chars ++ behind separator fs)

theorem row_cons (separator : Char) (f : Form) (fs : List Form) :
    row separator (f :: fs) = f.chars ++ behind separator fs := by
  induction fs generalizing f with
  | nil =>
    rw [behind, List.append_nil]
    exact List.intercalate_singleton
  | cons g fs ih =>
    have htail := ih g
    unfold row at htail ⊢
    rw [charsAll, charsAll, List.intercalate_cons_cons, ← charsAll, htail, behind, List.append_assoc,
      List.singleton_append]

/-! ### Reading -/

section

variable {rest rest' : List Char}

theorem ended_nil : Ended [] := nofun

theorem ended_cons {c : Char} (hc : closes c = true) (rest : List Char) : Ended (c :: rest) := by
  intro d hd
  cases hd
  exact hc

theorem Ended.behind (h : Ended rest) {separator : Char} (hs : closes separator = true)
    (fs : List Form) : Ended (behind separator fs ++ rest) := by
  cases fs with
  | nil => exact h
  | cons f fs => exact ended_cons hs _

/-- No further form of the row follows. -/
structure EndsRow (separator : Char) (rest : List Char) : Prop where
  ended : Ended rest
  another : rest.head? ≠ some separator

theorem endsRow_nil {separator : Char} : EndsRow separator [] := ⟨ended_nil, nofun⟩

theorem endsRow_parenthesis (rest : List Char) : EndsRow ' ' (')' :: rest) :=
  ⟨ended_cons (by decide) rest, fun h => absurd (Option.some.inj h) (by decide)⟩

theorem stretch_unique {p : Char → Bool} {xs ys : List Char} (hxs : ∀ x ∈ xs, p x = true)
    (hys : ∀ y ∈ ys, p y = true) (hrest : ∀ c ∈ rest.head?, p c = false)
    (hrest' : ∀ c ∈ rest'.head?, p c = false) (h : xs ++ rest = ys ++ rest') : xs = ys ∧ rest = rest' := by
  have hnone {r : List Char} (hr : ∀ c ∈ r.head?, p c = false) : r.takeWhile p = [] := by
    cases r with
    | nil => rfl
    | cons c cs => exact List.takeWhile_cons_of_neg (by rw [hr c rfl]; decide)
  have htake := congrArg (List.takeWhile p) h
  rw [List.takeWhile_append_of_pos hxs, List.takeWhile_append_of_pos hys, hnone hrest, hnone hrest',
    List.append_nil, List.append_nil] at htake
  exact ⟨htake, List.append_cancel_left (htake ▸ h)⟩

theorem IsWord.first {text : List Char} (h : IsWord text) :
    ∃ c cs, text = c :: cs ∧ closes c = false ∧ c ≠ '(' := by
  cases h with
  | plain hne htext =>
    obtain ⟨c, cs, rfl⟩ := List.exists_cons_of_ne_nil hne
    obtain ⟨hc, hopen, -⟩ := htext c List.mem_cons_self
    exact ⟨c, cs, rfl, hc, hopen⟩
  | quoted => exact ⟨_, _, rfl, by decide, by decide⟩

theorem IsWord.read {text text' : List Char} (h : IsWord text) (h' : IsWord text') (hrest : Ended rest)
    (hrest' : Ended rest') (heq : text ++ rest = text' ++ rest') : text = text' ∧ rest = rest' := by
  -- a plain word does not begin with a quotation mark
  have hmark {cs body more more' : List Char} (hne : cs ≠ [])
      (hcs : ∀ c ∈ cs, closes c = false ∧ c ≠ '(' ∧ c ≠ '"') : cs ++ more ≠ '"' :: (body ++ ['"']) ++ more' := by
    obtain ⟨c, cs, rfl⟩ := List.exists_cons_of_ne_nil hne
    exact fun hfirst => (hcs c List.mem_cons_self).2.2 (List.cons.inj hfirst).1
  cases h with
  | plain hne htext =>
    cases h' with
    | plain hne' htext' =>
      refine stretch_unique (p := fun c => !closes c) (fun c hc => ?_) (fun c hc => ?_) (fun c hc => ?_)
        (fun c hc => ?_) heq
      · rw [(htext c hc).1]
        rfl
      · rw [(htext' c hc).1]
        rfl
      · rw [hrest c hc]
        rfl
      · rw [hrest' c hc]
        rfl
    | quoted => exact absurd heq (hmark hne htext)
  | @quoted body hbody =>
    cases h' with
    | plain hne' htext' => exact absurd heq.symm (hmark hne' htext')
    | @quoted body' hbody' =>
      have hinner : body ++ '"' :: rest = body' ++ '"' :: rest' := by
        simpa only [List.cons_append, List.append_assoc, List.singleton_append, List.cons.injEq, true_and,
          List.nil_append] using heq
      obtain ⟨rfl, hmarks⟩ := stretch_unique (p := fun c => c != '"')
        (fun c hc => bne_iff_ne.mpr (hbody c hc)) (fun c hc => bne_iff_ne.mpr (hbody' c hc))
        (fun c hc => by cases hc; rfl) (fun c hc => by cases hc; rfl) hinner
      exact ⟨rfl, (List.cons.inj hmarks).2⟩

theorem WellFormed.first {f : Form} (h : f.WellFormed) :
    ∃ c cs, f.chars = c :: cs ∧ closes c = false := by
  cases f with
  | word text =>
    obtain ⟨c, cs, htext, hc, -⟩ := IsWord.first h
    exact ⟨c, cs, htext, hc⟩
  | node parts => exact ⟨_, _, rfl, by decide⟩

theorem WellFormed.append_ne {f : Form} (h : f.WellFormed) (hrest : Ended rest) (more : List Char) :
    rest ≠ f.chars ++ more := by
  rintro rfl
  obtain ⟨c, cs, hchars, hc⟩ := h.first
  rw [hchars] at hrest
  have hends := hrest c rfl
  rw [hc] at hends
  cases hends

mutual

/-- The text of a form is read in one way only. -/
theorem read {rest rest' : List Char} (f g : Form) (hf : f.WellFormed) (hg : g.WellFormed)
    (hrest : Ended rest) (hrest' : Ended rest') (h : f.chars ++ rest = g.chars ++ rest') :
    f = g ∧ rest = rest' := by
  match f, g with
  | .word text, .word text' =>
    obtain ⟨rfl, hmore⟩ := IsWord.read hf hg hrest hrest' h
    exact ⟨rfl, hmore⟩
  | .word text, .node parts =>
    obtain ⟨c, cs, rfl, -, hopen⟩ := IsWord.first hf
    exact absurd (List.cons.inj h).1 hopen
  | .node parts, .word text =>
    obtain ⟨c, cs, rfl, -, hopen⟩ := IsWord.first hg
    exact absurd (List.cons.inj h).1.symm hopen
  | .node parts, .node parts' =>
    have hrows : (row ' ' parts ++ [')']) ++ rest = (row ' ' parts' ++ [')']) ++ rest' :=
      (List.cons.inj h).2
    rw [List.append_assoc, List.append_assoc] at hrows
    obtain ⟨rfl, hmore⟩ := readRow (by decide) parts parts' hf hg (endsRow_parenthesis rest)
      (endsRow_parenthesis rest') hrows
    exact ⟨rfl, (List.cons.inj hmore).2⟩

theorem readBehind {separator : Char} (hs : closes separator = true) {rest rest' : List Char}
    (fs gs : List Form) (hfs : WellFormedAll fs) (hgs : WellFormedAll gs) (hrest : EndsRow separator rest)
    (hrest' : EndsRow separator rest')
    (h : behind separator fs ++ rest = behind separator gs ++ rest') : fs = gs ∧ rest = rest' := by
  match fs, gs with
  | [], [] => exact ⟨rfl, h⟩
  | [], g :: gs => exact absurd (congrArg List.head? h) hrest.another
  | f :: fs, [] => exact absurd (congrArg List.head? h).symm hrest'.another
  | f :: fs, g :: gs =>
    have htail : (f.chars ++ behind separator fs) ++ rest = (g.chars ++ behind separator gs) ++ rest' :=
      (List.cons.inj h).2
    rw [List.append_assoc, List.append_assoc] at htail
    obtain ⟨rfl, hmore⟩ :=
      read f g hfs.1 hgs.1 (hrest.ended.behind hs fs) (hrest'.ended.behind hs gs) htail
    obtain ⟨rfl, hend⟩ := readBehind hs fs gs hfs.2 hgs.2 hrest hrest' hmore
    exact ⟨rfl, hend⟩

theorem readRow {separator : Char} (hs : closes separator = true) {rest rest' : List Char}
    (fs gs : List Form) (hfs : WellFormedAll fs) (hgs : WellFormedAll gs) (hrest : EndsRow separator rest)
    (hrest' : EndsRow separator rest')
    (h : row separator fs ++ rest = row separator gs ++ rest') : fs = gs ∧ rest = rest' := by
  match fs, gs with
  | [], [] => exact ⟨rfl, h⟩
  | [], g :: gs =>
    rw [row_cons, List.append_assoc] at h
    exact absurd h (hgs.1.append_ne hrest.ended _)
  | f :: fs, [] =>
    rw [row_cons, List.append_assoc] at h
    exact absurd h.symm (hfs.1.append_ne hrest'.ended _)
  | f :: fs, g :: gs =>
    rw [row_cons, row_cons, List.append_assoc, List.append_assoc] at h
    obtain ⟨rfl, hmore⟩ :=
      read f g hfs.1 hgs.1 (hrest.ended.behind hs fs) (hrest'.ended.behind hs gs) h
    obtain ⟨rfl, hend⟩ := readBehind hs fs gs hfs.2 hgs.2 hrest hrest' hmore
    exact ⟨rfl, hend⟩

end

end

theorem row_injective {separator : Char} (hs : closes separator = true) {fs gs : List Form}
    (hfs : WellFormedAll fs) (hgs : WellFormedAll gs) (h : row separator fs = row separator gs) : fs = gs :=
  (readRow hs fs gs hfs hgs endsRow_nil endsRow_nil (congrArg (· ++ []) h)).1

end Form

end Lox

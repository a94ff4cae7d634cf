import Lox.Proofs.Syntax.Tiling

/-!
# The order of tokens

The tokens of a source stand one behind the other: each of them begins behind the last one's beginning,
and not in front of its end. So a stretch of them has its tokens and shorter stretches within its place, and
stretches that follow each other have places that do.
-/

namespace Lox

def Token.Precedes (t u : Token) : Prop :=
  t.span.first.offset < u.span.first.offset ∧ t.span.last.offset ≤ u.span.first.offset

namespace Lexer

variable {file : String} {source : List Char}

theorem Tiles.bounds {first last : Nat} {ts : List Token} (h : Tiles file source first ts last) :
    first ≤ last ∧ ∀ t ∈ ts, first ≤ t.span.first.offset ∧ t.span.first.offset < t.span.last.offset ∧
      t.span.last.offset ≤ last := by
  induction h with
  | nil => exact ⟨Nat.le_refl _, nofun⟩
  | cons hgap hread _ ih =>
    obtain ⟨hle, hall⟩ := ih
    have hfirst := hgap.ordered
    have hinner := hread.ordered
    refine ⟨by omega, List.forall_mem_cons.mpr ⟨⟨hfirst, hinner, hle⟩, fun u hu => ?_⟩⟩
    obtain ⟨hu, hu', hu''⟩ := hall u hu
    exact ⟨by omega, hu', hu''⟩

theorem Tiles.sorted {first last : Nat} {ts : List Token} (h : Tiles file source first ts last) :
    ts.Pairwise Token.Precedes := by
  induction h with
  | nil => exact .nil
  | cons _ hread htail ih =>
    have hinner := hread.ordered
    refine List.pairwise_cons.mpr ⟨fun u hu => ?_, ih⟩
    have hle := (htail.bounds.2 u hu).1
    exact ⟨by omega, hle⟩

theorem scan_tiles (file source : String) : (scan file source).Tiles file source.toList 0 :=
  scanFrom_tiles file (List.nil_append source.toList).symm rfl

theorem tiles_of_tokenize {file source : String} {tokens : List Token}
    (h : tokenize file source = .ok tokens) :
    ∃ body reached t, tokens = body ++ [t] ∧ Tiles file source.toList 0 body reached ∧
      EndsAt file source.toList reached t := by
  have htiles := scan_tiles file source
  unfold Scan.Tiles at htiles
  rw [tokenize] at h
  cases hfault : (scan file source).fault with
  | none =>
    simp only [hfault] at h htiles
    obtain rfl := Except.ok.inj h
    exact htiles
  | some f => simp [hfault] at h

theorem sorted_of_tokenize {file source : String} {tokens : List Token}
    (h : tokenize file source = .ok tokens) : tokens.Pairwise Token.Precedes := by
  obtain ⟨body, reached, t, rfl, hbody, hend⟩ := tiles_of_tokenize h
  refine List.pairwise_append.mpr ⟨hbody.sorted, List.pairwise_singleton _ t, fun u hu v hv => ?_⟩
  obtain rfl := List.mem_singleton.mp hv
  obtain ⟨-, hinner, hle⟩ := hbody.bounds.2 u hu
  have hgap := hend.gap.ordered
  rw [← hend.offset] at hgap
  exact ⟨by omega, by omega⟩

theorem Tiles.readAt {first last : Nat} {ts : List Token} (h : Tiles file source first ts last) :
    ∀ t ∈ ts, ReadAt file source t := by
  induction h with
  | nil => exact nofun
  | cons _ hread _ ih => exact List.forall_mem_cons.mpr ⟨hread, ih⟩

end Lexer

/-! ### Places of stretches -/

/-- The one place has the other, which is not empty, in it. -/
def Span.Encloses (s t : Span) : Prop :=
  s.first.offset ≤ t.first.offset ∧ t.first.offset < t.last.offset ∧ t.last.offset ≤ s.last.offset

/-- Neither place is empty, and the one ends where the other begins or in front of it. -/
def Span.Precedes (s t : Span) : Prop :=
  s.first.offset < s.last.offset ∧ s.last.offset ≤ t.first.offset ∧ t.first.offset < t.last.offset

/-- Tokens stand one behind the other, and none is empty. -/
structure Increasing (ts : List Token) : Prop where
  sorted : ts.Pairwise Token.Precedes
  proper : ∀ t ∈ ts, t.span.first.offset < t.span.last.offset

theorem Lexer.Tiles.increasing {file : String} {source : List Char} {first last : Nat}
    {ts : List Token} (h : Tiles file source first ts last) : Increasing ts :=
  ⟨h.sorted, fun t ht => (h.bounds.2 t ht).2.1⟩

namespace Increasing

open Grammar

variable {ts us vs : List Token}

theorem of_infix (h : Increasing ts) (hus : us <:+: ts) : Increasing us :=
  ⟨h.sorted.sublist hus.sublist, fun t ht => h.proper t (hus.subset ht)⟩

theorem last_spanOf (hne : us ≠ []) : (spanOf us).last = (us.getLast hne).span.last := by
  obtain ⟨u, us, rfl⟩ := List.exists_cons_of_ne_nil hne
  rw [List.getLast_eq_getLastD]
  rfl

theorem first_le (h : Increasing us) {t : Token} (ht : t ∈ us) :
    (spanOf us).first.offset ≤ t.span.first.offset := by
  cases us with
  | nil => cases ht
  | cons u us =>
    rcases List.mem_cons.mp ht with rfl | ht
    · exact Nat.le_refl _
    · exact Nat.le_of_lt ((List.pairwise_cons.mp h.sorted).1 t ht).1

theorem le_last (h : Increasing us) {t : Token} (ht : t ∈ us) :
    t.span.last.offset ≤ (spanOf us).last.offset := by
  have hne := List.ne_nil_of_mem ht
  rw [last_spanOf hne]
  have hsorted := h.sorted
  rw [← List.dropLast_concat_getLast hne] at ht hsorted
  rcases List.mem_append.mp ht with ht | ht
  · have hprecedes := (List.pairwise_append.mp hsorted).2.2 t ht _ List.mem_cons_self
    exact Nat.le_trans hprecedes.2 (Nat.le_of_lt (h.proper _ (List.getLast_mem hne)))
  · obtain rfl := List.mem_singleton.mp ht
    exact Nat.le_refl _

theorem proper_spanOf (h : Increasing us) (hne : us ≠ []) :
    (spanOf us).first.offset < (spanOf us).last.offset := by
  have hmem := List.getLast_mem hne
  rw [last_spanOf hne]
  exact Nat.lt_of_le_of_lt (h.first_le hmem) (h.proper _ hmem)

theorem encloses (h : Increasing us) (hvs : vs <:+: us) (hne : vs ≠ []) :
    (spanOf us).Encloses (spanOf vs) := by
  refine ⟨?_, (h.of_infix hvs).proper_spanOf hne, ?_⟩
  · obtain ⟨v, vs, rfl⟩ := List.exists_cons_of_ne_nil hne
    exact h.first_le (hvs.subset List.mem_cons_self)
  · rw [last_spanOf hne]
    exact h.le_last (hvs.subset (List.getLast_mem hne))

theorem precedes (h : Increasing us) (h' : Increasing vs) (hne : us ≠ []) (hne' : vs ≠ [])
    (hbefore : ∀ t ∈ us, ∀ u ∈ vs, t.Precedes u) : (spanOf us).Precedes (spanOf vs) := by
  refine ⟨h.proper_spanOf hne, ?_, h'.proper_spanOf hne'⟩
  rw [last_spanOf hne]
  obtain ⟨v, vs, rfl⟩ := List.exists_cons_of_ne_nil hne'
  exact (hbefore _ (List.getLast_mem hne) v List.mem_cons_self).2

theorem pairwise_spanOf {parts : List (List Token)} (h : Increasing parts.flatten)
    (hne : ∀ part ∈ parts, part ≠ []) : (parts.map spanOf).Pairwise Span.Precedes := by
  obtain ⟨-, hpairs⟩ := List.pairwise_flatten.mp h.sorted
  refine List.pairwise_map.mpr (hpairs.imp_of_mem fun {us vs} hus hvs hbefore => ?_)
  exact precedes (h.of_infix (List.infix_of_mem_flatten hus))
    (h.of_infix (List.infix_of_mem_flatten hvs)) (hne us hus) (hne vs hvs) hbefore

end Increasing

end Lox

import Lox.Machine

/-!
# Rooms

Rooms compared by what they hold. An activity that fits in one fits in a larger one, and inside of it the
rooms compare as before. A host gives no less room for more calls, if it gives any.
-/

namespace Lox

/-! ### Rooms -/

/-- The second room holds whatever the first one does. -/
structure Room.Within (r r' : Room) : Prop where
  free : r.free ≤ r'.free
  takes : ∀ a, r'.takes a ≤ r.takes a

/-- The room without the need for any. -/
def Room.ample (r : Room) : Room := { r with takes := fun _ => 0 }

/-- Nothing takes any room. -/
def Room.IsAmple (r : Room) : Prop := ∀ a, r.takes a = 0

/-- A room that everything fits in. -/
def Room.vast : Room := ⟨0, fun _ => 0, .nowhere⟩

namespace Room

variable {r r' : Room}

theorem within_ample (r : Room) : r.Within r.ample := ⟨Nat.le_refl _, fun _ => Nat.zero_le _⟩

theorem isAmple_ample (r : Room) : r.ample.IsAmple := fun _ => rfl

theorem IsAmple.fits (h : r.IsAmple) (a : Activity) : r.fits a = true :=
  decide_eq_true (h a ▸ Nat.zero_le _)

theorem IsAmple.inside (h : r.IsAmple) (a : Activity) : (r.inside a).IsAmple := h

theorem IsAmple.blaming (h : r.IsAmple) (span : Span) : (r.blaming span).IsAmple := h

theorem IsAmple.calling (h : r.IsAmple) (span : Span) : (r.calling span).IsAmple := by
  unfold Room.calling
  split
  · exact h.blaming span
  · exact h

theorem Within.fits (h : r.Within r') {a : Activity} (hfits : r.fits a = true) : r'.fits a = true := by
  have hle := of_decide_eq_true hfits
  exact decide_eq_true (Nat.le_trans (h.takes a) (Nat.le_trans hle h.free))

theorem Within.inside (h : r.Within r') (a : Activity) : (r.inside a).Within (r'.inside a) := by
  refine ⟨?_, h.takes⟩
  have hfree := h.free
  have htakes := h.takes a
  show r.free - r.takes a ≤ r'.free - r'.takes a
  omega

theorem Within.blaming (h : r.Within r') (span : Span) : (r.blaming span).Within (r'.blaming span) :=
  ⟨h.free, h.takes⟩

theorem Within.calling (h : r.Within r') (span : Span) : (r.calling span).Within (r'.calling span) := by
  unfold Room.calling
  split <;> split <;> exact ⟨h.free, h.takes⟩

end Room

/-! ### Hosts -/

namespace Machine

variable {m : Machine} {calls calls' : Nat}

/-- The host gives a stack for so many calls. -/
def Grants (m : Machine) (calls : Nat) : Prop := (m.granted? calls).isSome

instance (m : Machine) (calls : Nat) : Decidable (m.Grants calls) := inferInstanceAs (Decidable (_ = _))

theorem grants_iff : m.Grants calls ↔ needed calls ≤ max m.frames m.mostFrames := by
  unfold Grants granted?
  split
  · split <;> simp <;> omega
  · simp
    omega

theorem grants_standard_iff : standard.Grants calls ↔ calls ≤ 178956953 := by
  rw [grants_iff]
  show calls * 12 + 200 ≤ max 1000 2147483647 ↔ _
  omega

theorem granted_of_grants (h : m.Grants calls) : m.granted? calls = some (max m.frames (needed calls)) := by
  have hmost := grants_iff.mp h
  unfold granted?
  split
  · rw [if_pos (by omega), Nat.max_eq_right (by omega)]
  · rw [Nat.max_eq_left (by omega)]

theorem Grants.of_le (h : m.Grants calls') (hle : calls ≤ calls') : m.Grants calls := by
  have hmul := Nat.mul_le_mul_right framesPerCall hle
  rw [grants_iff] at h ⊢
  unfold needed at h ⊢
  omega

theorem Grants.exists_room (h : m.Grants calls) : ∃ room, m.room? calls = some room := by
  unfold room?
  rw [granted_of_grants h]
  exact ⟨_, rfl⟩

theorem room?_of_not_grants (h : ¬ m.Grants calls) : m.room? calls = none := by
  have hnone : m.granted? calls = none := Option.not_isSome_iff_eq_none.mp h
  unfold room?
  rw [hnone]
  rfl

/-- A host gives no less room for more calls. -/
theorem within_of_room? {room room' : Room} (hle : calls ≤ calls') (h : m.room? calls = some room)
    (h' : m.room? calls' = some room') : room.Within room' := by
  have hgrants' : m.Grants calls' := Decidable.byContradiction fun hno => by
    rw [room?_of_not_grants hno] at h'
    cases h'
  have hmul := Nat.mul_le_mul_right framesPerCall hle
  unfold room? at h h'
  rw [granted_of_grants (hgrants'.of_le hle)] at h
  rw [granted_of_grants hgrants'] at h'
  cases h
  cases h'
  constructor
  · show max m.frames (needed calls) - m.used ≤ max m.frames (needed calls') - m.used
    unfold needed
    omega
  · exact fun _ => Nat.le_refl _

end Machine

end Lox

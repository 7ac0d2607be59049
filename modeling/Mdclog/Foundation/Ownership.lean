import Mathlib.Tactic.Common

/-! Blocks with owners: every block that is owned is live and has one owner, and the
ways in which that goes on to hold. -/
namespace Foundation.Ownership

/-- Every owned block is live, and has one owner. -/
structure Sound {O B : Type} (owns : O → B → Prop) (live : B → Prop) : Prop where
  live : ∀ {o b}, owns o b → live b
  unique : ∀ {o o' b}, owns o b → owns o' b → o = o'

namespace Sound
variable {O B : Type} {owns owns' : O → B → Prop} {live live' : B → Prop}

theorem mono (h : Sound owns live) (howns : ∀ {o b}, owns' o b → owns o b) : Sound owns' live where
  live hown := h.live (howns hown)
  unique hown hown' := h.unique (howns hown) (howns hown')

/-- The `moved` blocks of one owner go to another. -/
theorem move (h : Sound owns live) (giver taker : O) (moved : B → Prop)
    (hmove : ∀ {o b}, owns' o b →
      (o = taker ∧ moved b ∧ owns giver b) ∨ (owns o b ∧ (o = giver → ¬moved b))) :
    Sound owns' live where
  live hown := by
    rcases hmove hown with ⟨-, -, hold⟩ | ⟨hold, -⟩ <;> exact h.live hold
  unique hown hown' := by
    rcases hmove hown with ⟨rfl, hmoved, hold⟩ | ⟨hold, hkept⟩
    · rcases hmove hown' with ⟨rfl, -, -⟩ | ⟨hold', hkept'⟩
      · rfl
      · exact absurd hmoved (hkept' (h.unique hold' hold))
    · rcases hmove hown' with ⟨rfl, hmoved, hold'⟩ | ⟨hold', -⟩
      · exact absurd hmoved (hkept (h.unique hold hold'))
      · exact h.unique hold hold'

theorem alloc (h : Sound owns live) (taker : O) {new : B} (hnew : ¬live new)
    (howns : ∀ {o b}, owns' o b → (o = taker ∧ b = new) ∨ owns o b)
    (hlive : ∀ {b}, live b ∨ b = new → live' b) : Sound owns' live' where
  live hown := by
    rcases howns hown with ⟨-, rfl⟩ | hold
    · exact hlive (.inr rfl)
    · exact hlive (.inl (h.live hold))
  unique hown hown' := by
    rcases howns hown with ⟨rfl, rfl⟩ | hold
    · rcases howns hown' with ⟨rfl, -⟩ | hold'
      · rfl
      · exact absurd (h.live hold') hnew
    · rcases howns hown' with ⟨rfl, rfl⟩ | hold'
      · exact absurd (h.live hold) hnew
      · exact h.unique hold hold'

/-- The blocks of `gone` die with everything that owns them. -/
theorem free (h : Sound owns live) (gone : B → Prop)
    (howns : ∀ {o b}, owns' o b → owns o b ∧ ¬gone b)
    (hlive : ∀ {b}, live b → ¬gone b → live' b) : Sound owns' live' where
  live hown := hlive (h.live (howns hown).1) (howns hown).2
  unique hown hown' := h.unique (howns hown).1 (howns hown').1

end Sound

end Foundation.Ownership

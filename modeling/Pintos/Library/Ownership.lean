import Mathlib.Logic.Basic

/-!
# Owners and what they claim

Parties of a concurrent system each claim some resources. That no resource has two owners is kept by the three things that
happen to claims: an owner gives some up, an owner takes a resource that nobody claims, and an owner hands all its claims to
another.
-/

namespace Ownership

variable {ω ρ : Type}

/-- No resource is claimed by two owners. -/
def Exclusive (claim : ω → ρ → Prop) : Prop := ∀ o o' r, claim o r → claim o' r → o = o'

variable {claim claim' : ω → ρ → Prop}

/-- One owner may have all the claims. -/
theorem Exclusive.of_one {o : ω} (h : ∀ o' r, claim o' r → o' = o) : Exclusive claim :=
  fun o1 o2 r h1 h2 => (h o1 r h1).trans (h o2 r h2).symm

/-- Owners may give claims up. -/
theorem Exclusive.mono (h : Exclusive claim) (hsub : ∀ o r, claim' o r → claim o r) : Exclusive claim' :=
  fun o o' r hr hr' => h o o' r (hsub o r hr) (hsub o' r hr')

/-- An owner may take a resource that nobody claims. -/
theorem Exclusive.take (h : Exclusive claim) {o : ω} {x : ρ} (hfree : ∀ o', ¬claim o' x)
    (hsub : ∀ o' r, claim' o' r → claim o' r ∨ (o' = o ∧ r = x)) : Exclusive claim' := by
  intro o1 o2 r h1 h2
  rcases hsub o1 r h1 with h1 | ⟨rfl, rfl⟩
  · rcases hsub o2 r h2 with h2 | ⟨rfl, rfl⟩
    · exact h o1 o2 r h1 h2
    · exact absurd h1 (hfree o1)
  · rcases hsub o2 r h2 with h2 | ⟨rfl, -⟩
    · exact absurd h2 (hfree o2)
    · rfl

/-- An owner may hand its claims to another. -/
theorem Exclusive.hand (h : Exclusive claim) {giver taker : ω}
    (hsub : ∀ o r, claim' o r → (o ≠ giver ∧ claim o r) ∨ (o = taker ∧ claim giver r)) : Exclusive claim' := by
  intro o1 o2 r h1 h2
  rcases hsub o1 r h1 with ⟨hne, h1⟩ | ⟨rfl, h1⟩
  · rcases hsub o2 r h2 with ⟨-, h2⟩ | ⟨-, h2⟩
    · exact h o1 o2 r h1 h2
    · exact absurd (h o1 giver r h1 h2) hne
  · rcases hsub o2 r h2 with ⟨hne, h2⟩ | ⟨rfl, -⟩
    · exact absurd (h o2 giver r h2 h1) hne
    · rfl

end Ownership

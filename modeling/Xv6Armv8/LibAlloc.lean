import Mathlib.Logic.Function.Basic
import Mathlib.Tactic

/-! Who holds which block. The blocks are numbers, and 0 stands for none; every place of a kind `ι` holds a
block or none, and a map has a mark for each block in use. `Owns S mark A` says that the places share no
block, hold blocks of the area `A` only, and hold just the blocks of the area that are marked. Taking a block
that is not marked and giving one back keep that, at one place at a time. -/

namespace Alloc

open Function

variable {ι : Type}

structure Owns (S : ι → Nat) (mark : Nat → Bool) (A : Nat → Prop) : Prop where
  pos : ∀ b, A b → b ≠ 0
  inj : ∀ p q, S p = S q → S p ≠ 0 → p = q
  area : ∀ p, S p ≠ 0 → A (S p)
  mark_iff : ∀ b, A b → (mark b = true ↔ ∃ p, S p = b)

variable {S S' : ι → Nat} {mark : Nat → Bool} {A : Nat → Prop} {p q : ι} {b : Nat}

theorem Owns.marked (h : Owns S mark A) (hp : S p ≠ 0) : mark (S p) = true :=
  (h.mark_iff _ (h.area p hp)).mpr ⟨p, rfl⟩

theorem Owns.not_held (h : Owns S mark A) (hb : A b) (hm : mark b = false) (p : ι) : S p ≠ b := by
  intro hp
  have hmark : mark b = true := (h.mark_iff b hb).mpr ⟨p, hp⟩
  rw [hm] at hmark
  cases hmark

theorem Owns.ne (h : Owns S mark A) (hpq : p ≠ q) (hp : S p ≠ 0) : S p ≠ S q :=
  fun heq => hpq (h.inj p q heq hp)

variable [DecidableEq ι]

theorem Owns.add (h : Owns S mark A) (hp : S p = 0) (hb : A b) (hm : mark b = false) :
    Owns (update S p b) (update mark b true) A where
  pos := h.pos
  inj := by
    have hfree := h.not_held hb hm
    intro q r heq hne
    by_cases hq : q = p
    · by_cases hr : r = p
      · rw [hq, hr]
      · rw [hq, update_self, update_of_ne hr] at heq
        exact absurd heq.symm (hfree r)
    · rw [update_of_ne hq] at heq hne
      by_cases hr : r = p
      · rw [hr, update_self] at heq
        exact absurd heq (hfree q)
      · rw [update_of_ne hr] at heq
        exact h.inj q r heq hne
  area := by
    intro q hne
    by_cases hq : q = p
    · rw [hq, update_self]
      exact hb
    · rw [update_of_ne hq] at hne ⊢
      exact h.area q hne
  mark_iff := by
    intro c hc
    by_cases hcb : c = b
    · rw [hcb, update_self]
      exact iff_of_true rfl ⟨p, update_self ..⟩
    · rw [update_of_ne hcb, h.mark_iff c hc]
      constructor
      · rintro ⟨q, hq⟩
        have hqp : q ≠ p := by
          rintro rfl
          exact h.pos c hc (hq.symm.trans hp)
        exact ⟨q, by rwa [update_of_ne hqp]⟩
      · rintro ⟨q, hq⟩
        have hqp : q ≠ p := by
          rintro rfl
          rw [update_self] at hq
          exact hcb hq.symm
        exact ⟨q, by rwa [update_of_ne hqp] at hq⟩

theorem Owns.remove (h : Owns S mark A) (hp : S p ≠ 0) : Owns (update S p 0) (update mark (S p) false) A where
  pos := h.pos
  inj := by
    intro q r heq hne
    have hq : q ≠ p := by
      rintro rfl
      exact hne (update_self ..)
    rw [update_of_ne hq] at heq hne
    have hr : r ≠ p := by
      rintro rfl
      rw [update_self] at heq
      exact hne heq
    rw [update_of_ne hr] at heq
    exact h.inj q r heq hne
  area := by
    intro q hne
    have hq : q ≠ p := by
      rintro rfl
      exact hne (update_self ..)
    rw [update_of_ne hq] at hne ⊢
    exact h.area q hne
  mark_iff := by
    intro c hc
    by_cases hcb : c = S p
    · rw [hcb, update_self]
      refine iff_of_false Bool.false_ne_true ?_
      rintro ⟨q, hq⟩
      by_cases hqp : q = p
      · rw [hqp, update_self] at hq
        exact hp hq.symm
      · rw [update_of_ne hqp] at hq
        exact hqp (h.inj p q hq.symm hp).symm
    · rw [update_of_ne hcb, h.mark_iff c hc]
      constructor
      · rintro ⟨q, hq⟩
        have hqp : q ≠ p := by
          rintro rfl
          exact hcb hq.symm
        exact ⟨q, by rwa [update_of_ne hqp]⟩
      · rintro ⟨q, hq⟩
        have hqp : q ≠ p := by
          rintro rfl
          rw [update_self] at hq
          exact h.pos c hc hq.symm
        exact ⟨q, by rwa [update_of_ne hqp] at hq⟩

end Alloc

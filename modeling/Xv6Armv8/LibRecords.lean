import Mathlib.Tactic

/-! Lists that are written to in place: a part of a list is replaced by another list of the same length, and
the list grows where the new part reaches beyond its end. A list whose length is a multiple of a width is a
table of records, and a splice at a multiple of the width replaces one record or adds one. -/

namespace Records

open List

variable {α : Type} {l bs : List α} {off i j w : Nat}

/-- `l` with `bs` in the place from `off` on. -/
def splice (l : List α) (off : Nat) (bs : List α) : List α := l.take off ++ bs ++ l.drop (off + bs.length)

@[simp] theorem splice_nil : splice l off [] = l := by
  simp [splice]

theorem length_splice (h : off ≤ l.length) : (splice l off bs).length = max l.length (off + bs.length) := by
  simp only [splice, length_append, length_take, length_drop]
  omega

theorem getElem?_splice (h : off ≤ l.length) :
    (splice l off bs)[i]? = if off ≤ i ∧ i < off + bs.length then bs[i - off]? else l[i]? := by
  unfold splice
  have htake : (l.take off).length = off := length_take_of_le h
  rcases Nat.lt_or_ge i off with hlt | hge
  · rw [append_assoc, List.getElem?_append_left (by omega), List.getElem?_take_of_lt hlt, if_neg (by omega)]
  · rcases Nat.lt_or_ge i (off + bs.length) with hin | hout
    · rw [append_assoc, List.getElem?_append_right (by omega), htake, List.getElem?_append_left (by omega),
        if_pos ⟨hge, hin⟩]
    · have hlen : (l.take off ++ bs).length = off + bs.length := by rw [length_append, htake]
      rw [List.getElem?_append_right (by omega), hlen, List.getElem?_drop, if_neg (by omega)]
      congr 1
      omega

/-- The record with the number `j`. -/
def record (w : Nat) (l : List α) (j : Nat) : List α := (l.drop (w * j)).take w

theorem getElem?_record : (record w l j)[i]? = if i < w then l[w * j + i]? else none := by
  unfold record
  split
  · next hlt => rw [List.getElem?_take_of_lt hlt, List.getElem?_drop]
  · next hge => exact List.getElem?_eq_none (by rw [length_take]; omega)

theorem length_record (h : w * (j + 1) ≤ l.length) : (record w l j).length = w := by
  unfold record
  rw [length_take, length_drop]
  rw [Nat.mul_add] at h
  omega

/-- A splice of one record leaves the others. -/
theorem record_splice (hj : w * j ≤ l.length) (hbs : bs.length = w) :
    record w (splice l (w * j) bs) i = if i = j then bs else record w l i := by
  apply ext_getElem?
  intro x
  rw [getElem?_record, getElem?_splice hj, hbs]
  by_cases hx : x < w
  · rw [if_pos hx]
    split
    · next hin =>
        have hij : i = j := by
          rcases Nat.lt_trichotomy i j with h | h | h
          · have hle : w * (i + 1) ≤ w * j := Nat.mul_le_mul_left w h
            rw [Nat.mul_add] at hle
            omega
          · exact h
          · have hle : w * (j + 1) ≤ w * i := Nat.mul_le_mul_left w h
            rw [Nat.mul_add] at hle
            omega
        rw [if_pos hij, hij, Nat.add_sub_cancel_left]
    · next hout =>
        have hij : i ≠ j := by
          rintro rfl
          omega
        rw [if_neg hij, getElem?_record, if_pos hx]
  · rw [if_neg hx]
    split
    · exact (List.getElem?_eq_none (by omega)).symm
    · rw [getElem?_record, if_neg hx]

end Records

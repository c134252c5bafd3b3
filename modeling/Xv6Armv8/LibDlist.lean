import Mathlib.Data.List.Nodup
import Mathlib.Logic.Function.Basic

/-! Doubly linked lists that close at a head. The nodes are linked by two functions, `next` and `prev`, and the
list is the one that is met when `next` is followed from the head until it is back; `prev` meets the same nodes in
the other order. Taking a node out and putting one in behind the head are the pointer writes of the usual code, in
its order. -/

namespace Dlist

open Function List

variable {α : Type*} {next prev : α → α} {a b c head : α} {l : List α}

/-- Following `next` from `a` goes through `l` and then reaches `c`, and every link is matched by `prev`. -/
def Seg (next prev : α → α) (a : α) : List α → α → Prop
  | [], c => next a = c ∧ prev c = a
  | x :: l, c => (next a = x ∧ prev x = a) ∧ Seg next prev x l c

theorem seg_append {l₁ l₂ : List α} :
    Seg next prev a (l₁ ++ b :: l₂) c ↔ Seg next prev a l₁ b ∧ Seg next prev b l₂ c := by
  induction l₁ generalizing a with
  | nil => exact Iff.rfl
  | cons x l₁ ih => exact (and_congr_right fun _ => ih).trans and_assoc.symm

/-- The same nodes are met in the other order when `prev` is followed. -/
theorem Seg.reverse (h : Seg next prev a l c) : Seg prev next c l.reverse a := by
  induction l generalizing a with
  | nil => exact h.symm
  | cons x l ih =>
    rw [reverse_cons, seg_append]
    exact ⟨ih h.2, h.1.symm⟩

/-- Pointers that are not part of the segment may be written. -/
theorem Seg.congr {next' prev' : α → α} (h : Seg next prev a l c) (hn : ∀ x ∈ a :: l, next' x = next x)
    (hp : ∀ x, x ∈ l ∨ x = c → prev' x = prev x) : Seg next' prev' a l c := by
  induction l generalizing a with
  | nil => exact ⟨(hn a (mem_singleton_self a)).trans h.1, (hp c (.inr rfl)).trans h.2⟩
  | cons x l ih =>
    have hx : next' a = x ∧ prev' x = a :=
      ⟨(hn a mem_cons_self).trans h.1.1, (hp x (.inl mem_cons_self)).trans h.1.2⟩
    exact ⟨hx, ih h.2 (fun y hy => hn y (mem_cons_of_mem a hy))
      fun y hy => hp y (hy.imp_left (mem_cons_of_mem x))⟩

/-- The node before the end of a segment is on it. -/
theorem Seg.prev_mem (h : Seg next prev a l c) : prev c ∈ a :: l := by
  induction l generalizing a with
  | nil => exact mem_singleton.mpr h.2
  | cons x l ih => exact mem_cons_of_mem a (ih h.2)

/-- The nodes of `l`, each once, are what is met between leaving the head and coming back to it. -/
structure Ring (next prev : α → α) (head : α) (l : List α) : Prop where
  nodup : (head :: l).Nodup
  seg : Seg next prev head l head

theorem Ring.reverse (h : Ring next prev head l) : Ring prev next head l.reverse :=
  ⟨by simpa using h.nodup, h.seg.reverse⟩

variable [DecidableEq α]

/-- The first node that satisfies `p`, from `b` on along the links and up to the head. -/
def scan (link : α → α) (head : α) (p : α → Bool) : Nat → α → Option α
  | 0, _ => none
  | n + 1, b => if b = head then none else if p b then some b else scan link head p n (link b)

theorem Seg.scan {p : α → Bool} (h : Seg next prev a l head) (hl : head ∉ l) {n : Nat} (hn : l.length < n) :
    scan next head p n (next a) = l.find? p := by
  induction l generalizing a n with
  | nil =>
    obtain ⟨n, rfl⟩ := Nat.exists_eq_succ_of_ne_zero (Nat.ne_of_gt hn)
    exact if_pos h.1
  | cons x l ih =>
    obtain ⟨n, rfl⟩ := Nat.exists_eq_succ_of_ne_zero (Nat.ne_of_gt (Nat.zero_lt_of_lt hn))
    rw [mem_cons, not_or] at hl
    rw [h.1.1, Dlist.scan, if_neg (Ne.symm hl.1), List.find?_cons, ih h.2 hl.2 (Nat.lt_of_succ_lt_succ hn)]
    cases p x <;> rfl

/-- A scan along `next` looks at the nodes in their order. -/
theorem Ring.scan_next (h : Ring next prev head l) (p : α → Bool) {n : Nat} (hn : l.length < n) :
    scan next head p n (next head) = l.find? p :=
  h.seg.scan (nodup_cons.mp h.nodup).1 hn

/-- A scan along `prev` looks at them in the other order. -/
theorem Ring.scan_prev (h : Ring next prev head l) (p : α → Bool) {n : Nat} (hn : l.length < n) :
    scan prev head p n (prev head) = l.reverse.find? p :=
  h.reverse.scan_next p (by rwa [length_reverse])

/-- `b->next->prev = b->prev; b->prev->next = b->next`. -/
def unlink (next prev : α → α) (b : α) : (α → α) × (α → α) :=
  let prev := update prev (next b) (prev b)
  (update next (prev b) (next b), prev)

/-- `b->next = head.next; b->prev = &head; head.next->prev = b; head.next = b`. -/
def link (next prev : α → α) (head b : α) : (α → α) × (α → α) :=
  let next := update next b (next head)
  let prev := update (update prev b head) (next head) b
  (update next head b, prev)

/-- A segment is led to a new end by writing the last pointer of it and the pointer back. -/
theorem Seg.redirect (h : Seg next prev a l b) (ha : (a :: l).Nodup) (hc : c ∉ l) :
    Seg (update next (prev b) c) (update prev c (prev b)) a l c := by
  induction l generalizing a with
  | nil =>
    rw [h.2]
    exact ⟨update_self .., update_self ..⟩
  | cons x l ih =>
    rw [mem_cons, not_or] at hc
    have hne : a ≠ prev b := fun e => (nodup_cons.mp ha).1 (e ▸ h.2.prev_mem)
    refine ⟨⟨?_, ?_⟩, ih h.2 (nodup_cons.mp ha).2 hc.2⟩
    · rw [update_of_ne hne]
      exact h.1.1
    · rw [update_of_ne (Ne.symm hc.1)]
      exact h.1.2

/-- What `unlink` writes takes the node out of the ring and leaves the others as they are. -/
theorem Ring.unlink (h : Ring next prev head l) (hb : b ∈ l) :
    Ring (Dlist.unlink next prev b).1 (Dlist.unlink next prev b).2 head (l.erase b) := by
  refine ⟨h.nodup.sublist (erase_sublist.cons_cons head), ?_⟩
  obtain ⟨l₁, l₂, hl₁, rfl, herase⟩ := exists_erase_eq hb
  obtain ⟨h₁, h₂⟩ := seg_append.mp h.seg
  have hnd := h.nodup
  rw [← cons_append, nodup_append] at hnd
  obtain ⟨hnd₁, hnd₂, hdis⟩ := hnd
  have hprev : b ≠ next b → update prev (next b) (prev b) b = prev b := fun hne =>
    update_of_ne hne _ _
  rw [herase]
  cases l₂ with
  | nil =>
    -- the last node: the new end is the head itself
    have hne : b ≠ head := fun e => hdis head mem_cons_self b mem_cons_self e.symm
    have hend := h₂.1
    rw [append_nil, Dlist.unlink, hprev (hend ▸ hne), hend]
    exact h₁.redirect hnd₁ (nodup_cons.mp hnd₁).1
  | cons y l₂ =>
    obtain ⟨⟨hy, -⟩, htail⟩ := h₂
    rw [nodup_cons, nodup_cons, mem_cons, not_or] at hnd₂
    obtain ⟨⟨hby, -⟩, hyl, -⟩ := hnd₂
    have hmem : ∀ x, x ∈ y :: l₂ → x ∈ b :: y :: l₂ := fun x => mem_cons_of_mem b
    rw [Dlist.unlink, hprev (hy ▸ hby), hy, seg_append]
    refine ⟨h₁.redirect hnd₁ ?_, htail.congr ?_ ?_⟩
    · intro hmem₁
      exact hdis y (mem_cons_of_mem head hmem₁) y (hmem y mem_cons_self) rfl
    · intro x hx
      exact update_of_ne (fun e => hdis _ h₁.prev_mem x (hmem x hx) e.symm) _ _
    · rintro x (hx | rfl)
      · have hxy : x ≠ y := fun e => hyl (e ▸ hx)
        exact update_of_ne hxy _ _
      · exact update_of_ne (hdis x mem_cons_self y (hmem y mem_cons_self)) _ _

/-- What `link` writes puts a new node in behind the head. -/
theorem Ring.link (h : Ring next prev head l) (hb : b ∉ head :: l) :
    Ring (Dlist.link next prev head b).1 (Dlist.link next prev head b).2 head (b :: l) := by
  rw [mem_cons, not_or] at hb
  obtain ⟨hbh, hbl⟩ := hb
  obtain ⟨hhl, hnd⟩ := nodup_cons.mp h.nodup
  have hnext : update next b (next head) head = next head := update_of_ne (Ne.symm hbh) _ _
  refine ⟨nodup_cons.mpr ⟨?_, nodup_cons.mpr ⟨hbl, hnd⟩⟩, ?_⟩
  · rw [mem_cons, not_or]
    exact ⟨Ne.symm hbh, hhl⟩
  simp only [Dlist.link, hnext]
  cases l with
  | nil =>
    rw [h.seg.1]
    refine ⟨⟨update_self .., ?_⟩, ?_, update_self ..⟩
    · rw [update_of_ne hbh, update_self]
    · rw [update_of_ne hbh, update_self]
  | cons x l =>
    obtain ⟨⟨hx, -⟩, htail⟩ := h.seg
    rw [mem_cons, not_or] at hbl hhl
    rw [hx]
    refine ⟨⟨update_self .., ?_⟩, ⟨?_, update_self ..⟩, htail.congr ?_ ?_⟩
    · rw [update_of_ne hbl.1, update_self]
    · rw [update_of_ne hbh, update_self]
    · intro y hy
      have hyh : y ≠ head := by rintro rfl; exact (mem_cons.mp hy).elim hhl.1 hhl.2
      have hyb : y ≠ b := by rintro rfl; exact (mem_cons.mp hy).elim hbl.1 hbl.2
      rw [update_of_ne hyh, update_of_ne hyb]
    · rintro y (hy | rfl)
      · have hyx : y ≠ x := fun e => (nodup_cons.mp hnd).1 (e ▸ hy)
        have hyb : y ≠ b := fun e => hbl.2 (e ▸ hy)
        rw [update_of_ne hyx, update_of_ne hyb]
      · rw [update_of_ne hhl.1, update_of_ne (Ne.symm hbh)]

end Dlist

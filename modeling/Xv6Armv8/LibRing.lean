import Mathlib.Data.Nat.ModEq
import Mathlib.Logic.Function.Basic

/-! Rings. A ring has `N` slots, and two indices into it that count modulo `M`, a larger multiple of `N`: the
producer writes at the one and the consumer reads at the other. What is in the ring is the list of the entries
between the two indices. -/

namespace Ring

open Function List

variable {α : Type*} {N M lo hi n : Nat} {slot : Nat → α}

/-- The `n` entries from the index `lo` on. -/
def window (N : Nat) (slot : Nat → α) (lo : Nat) : Nat → List α
  | 0 => []
  | n + 1 => window N slot lo n ++ [slot ((lo + n) % N)]

theorem length_window (n : Nat) : (window N slot lo n).length = n := by
  induction n with
  | zero => rfl
  | succ n ih => rw [window, length_append, ih, length_singleton]

theorem window_cons (n : Nat) : window N slot lo (n + 1) = slot (lo % N) :: window N slot (lo + 1) n := by
  induction n with
  | zero => simp [window]
  | succ n ih =>
    calc window N slot lo (n + 2)
        = window N slot lo (n + 1) ++ [slot ((lo + (n + 1)) % N)] := rfl
      _ = slot (lo % N) :: (window N slot (lo + 1) n ++ [slot ((lo + (n + 1)) % N)]) := by
          rw [ih, cons_append]
      _ = slot (lo % N) :: window N slot (lo + 1) (n + 1) := by
          rw [window, Nat.add_right_comm, Nat.add_assoc lo n 1]

/-- Only the residue of the index matters. -/
theorem window_congr {lo' : Nat} (h : lo % N = lo' % N) (n : Nat) : window N slot lo n = window N slot lo' n := by
  induction n with
  | zero => rfl
  | succ n ih => rw [window, window, ih, Nat.add_mod, h, ← Nat.add_mod]

/-- A write behind the last entry changes no entry, as long as there is room. -/
theorem window_update {m : Nat} (hm : m < N) (x : α) (hn : n ≤ m) :
    window N (update slot ((lo + m) % N) x) lo n = window N slot lo n := by
  induction n with
  | zero => rfl
  | succ n ih =>
    have hne : (lo + n) % N ≠ (lo + m) % N := by
      intro h
      have hmod : n ≡ m [MOD N] := Nat.ModEq.add_left_cancel' lo h
      rw [Nat.ModEq, Nat.mod_eq_of_lt (by omega), Nat.mod_eq_of_lt hm] at hmod
      omega
    rw [window, window, ih (by omega), update_of_ne hne]

/-- How many entries lie between two indices. -/
def count (M lo hi : Nat) : Nat := (hi + M - lo) % M

theorem count_eq (hlo : lo < M) (hhi : hi < M) : count M lo hi = if lo ≤ hi then hi - lo else hi + M - lo := by
  unfold count
  split
  · rw [show hi + M - lo = (hi - lo) + M by omega, Nat.add_mod_right, Nat.mod_eq_of_lt (by omega)]
  · rw [Nat.mod_eq_of_lt (by omega)]

theorem succ_mod_eq (hhi : hi < M) : (hi + 1) % M = if hi + 1 = M then 0 else hi + 1 := by
  split
  · next h => rw [h, Nat.mod_self]
  · rw [Nat.mod_eq_of_lt (by omega)]

theorem count_eq_zero (hlo : lo < M) (hhi : hi < M) : count M lo hi = 0 ↔ lo = hi := by
  rw [count_eq hlo hhi]
  split <;> omega

theorem count_push (hlo : lo < M) (hhi : hi < M) (h : count M lo hi + 1 < M) :
    count M lo ((hi + 1) % M) = count M lo hi + 1 := by
  rw [count_eq hlo hhi] at h ⊢
  rw [count_eq hlo (Nat.mod_lt _ (by omega)), succ_mod_eq hhi]
  split_ifs at h ⊢ <;> omega

theorem count_pop (hlo : lo < M) (hhi : hi < M) (hne : lo ≠ hi) :
    count M lo hi = count M ((lo + 1) % M) hi + 1 := by
  rw [count_eq hlo hhi, count_eq (Nat.mod_lt _ (by omega)) hhi, succ_mod_eq hlo]
  split_ifs <;> omega

/-- The slot behind the last entry is that of the producer's index. -/
theorem add_count_mod (hlo : lo < M) (hhi : hi < M) (hNM : N ∣ M) : (lo + count M lo hi) % N = hi % N := by
  rw [count_eq hlo hhi]
  split
  · congr 1
    omega
  · rw [show lo + (hi + M - lo) = hi + M by omega, Nat.add_mod, Nat.mod_eq_zero_of_dvd hNM, Nat.add_zero, Nat.mod_mod]

/-- The entries between two indices. -/
def entries (N M : Nat) (slot : Nat → α) (lo hi : Nat) : List α := window N slot lo (count M lo hi)

theorem length_entries : (entries N M slot lo hi).length = count M lo hi := length_window _

theorem entries_self (hlo : lo < M) : entries N M slot lo lo = [] := by
  rw [entries, (count_eq_zero hlo hlo).mpr rfl]
  rfl

/-- The producer advances its index over the slot it has written. -/
theorem entries_push (hlo : lo < M) (hhi : hi < M) (hNM : N ∣ M) (h : count M lo hi + 1 < M) :
    entries N M slot lo ((hi + 1) % M) = entries N M slot lo hi ++ [slot (hi % N)] := by
  rw [entries, count_push hlo hhi h, window, add_count_mod hlo hhi hNM]
  rfl

/-- A write at the producer's index, with room in the ring, changes no entry. -/
theorem entries_update (hlo : lo < M) (hhi : hi < M) (hNM : N ∣ M) (hroom : count M lo hi < N) (x : α) :
    entries N M (update slot (hi % N) x) lo hi = entries N M slot lo hi := by
  rw [entries, ← add_count_mod hlo hhi hNM, window_update hroom x le_rfl]
  rfl

/-- The consumer takes the first entry. -/
theorem entries_pop (hlo : lo < M) (hhi : hi < M) (hNM : N ∣ M) (hne : lo ≠ hi) :
    entries N M slot lo hi = slot (lo % N) :: entries N M slot ((lo + 1) % M) hi := by
  rw [entries, count_pop hlo hhi hne, window_cons, entries]
  congr 1
  exact window_congr (Nat.mod_mod_of_dvd _ hNM).symm _

/-! ### A ring as a queue -/

/-- The ring holds the queue `q`, which fits into it. -/
structure Holds (N M : Nat) (slot : Nat → α) (lo hi : Nat) (q : List α) : Prop where
  lo_lt : lo < M
  hi_lt : hi < M
  room : q.length ≤ N
  eq : entries N M slot lo hi = q

variable {q : List α} {x : α}

theorem Holds.count_eq_length (h : Holds N M slot lo hi q) : count M lo hi = q.length := by
  rw [← h.eq, length_entries]

theorem Holds.empty_iff (h : Holds N M slot lo hi q) : lo = hi ↔ q = [] := by
  rw [← count_eq_zero h.lo_lt h.hi_lt, h.count_eq_length, length_eq_zero_iff]

/-- The test for a full ring compares the indices. -/
theorem Holds.full_iff (h : Holds N M slot lo hi q) (hN : N < M) : hi = (lo + N) % M ↔ q.length = N := by
  have hlo := h.lo_lt
  have hhi := h.hi_lt
  rw [← h.count_eq_length, count_eq hlo hhi]
  by_cases hwrap : lo + N < M
  · rw [Nat.mod_eq_of_lt hwrap]
    split <;> omega
  · rw [Nat.mod_eq_sub_mod (by omega), Nat.mod_eq_of_lt (by omega)]
    split <;> omega

theorem holds_nil (hlo : lo < M) : Holds N M slot lo lo [] := ⟨hlo, hlo, Nat.zero_le N, entries_self hlo⟩

theorem Holds.push (h : Holds N M slot lo hi q) (hNM : N ∣ M) (hN : N < M) (hq : q.length < N) (x : α) :
    Holds N M (update slot (hi % N) x) lo ((hi + 1) % M) (q ++ [x]) := by
  have hcount : count M lo hi < N := h.count_eq_length ▸ hq
  refine ⟨h.lo_lt, Nat.mod_lt _ (by omega), by rw [length_append]; exact hq, ?_⟩
  rw [entries_push h.lo_lt h.hi_lt hNM (by omega), entries_update h.lo_lt h.hi_lt hNM hcount, h.eq,
    update_self]

theorem Holds.pop (h : Holds N M slot lo hi (x :: q)) (hNM : N ∣ M) :
    slot (lo % N) = x ∧ Holds N M slot ((lo + 1) % M) hi q := by
  have hne : lo ≠ hi := fun he => cons_ne_nil x q (h.empty_iff.mp he)
  have hcons := (entries_pop h.lo_lt h.hi_lt hNM hne).symm.trans h.eq
  have hlen : q.length + 1 ≤ N := h.room
  exact ⟨(List.cons.inj hcons).1, Nat.mod_lt _ (Nat.zero_lt_of_lt h.lo_lt), h.hi_lt, by omega, (List.cons.inj hcons).2⟩

theorem Holds.hi_eq (h : Holds N M slot lo hi q) : hi = (lo + q.length) % M := by
  rw [← h.count_eq_length, add_count_mod h.lo_lt h.hi_lt (dvd_refl M), Nat.mod_eq_of_lt h.hi_lt]

/-- The number of entries up to an index. -/
theorem count_add {n : Nat} (hlo : lo < M) (hn : n < M) : count M lo ((lo + n) % M) = n := by
  rw [count_eq hlo (Nat.mod_lt _ (by omega))]
  by_cases hwrap : lo + n < M
  · rw [Nat.mod_eq_of_lt hwrap, if_pos (by omega)]
    omega
  · rw [Nat.mod_eq_sub_mod (by omega), Nat.mod_eq_of_lt (by omega), if_neg (by omega)]
    omega

/-- Going back over the last entry. -/
theorem pred_mod {n : Nat} (hM : 0 < M) : ((lo + (n + 1)) % M + M - 1) % M = (lo + n) % M := by
  have hmod : ((lo + (n + 1)) % M + (M - 1)) % M = (lo + n) % M := by
    rw [Nat.mod_add_mod, show lo + (n + 1) + (M - 1) = lo + n + M by omega, Nat.add_mod_right]
  rw [← hmod, Nat.add_sub_assoc hM]

/-- The producer takes its last entry back. -/
theorem Holds.unpush (h : Holds N M slot lo hi (q ++ [x])) (hNM : N ∣ M) (hN : N < M) :
    slot ((hi + M - 1) % M % N) = x ∧ Holds N M slot lo ((hi + M - 1) % M) q := by
  have hM : 0 < M := Nat.zero_lt_of_lt hN
  have hroom : q.length + 1 ≤ N := by simpa using h.room
  have hback : (hi + M - 1) % M = (lo + q.length) % M := by
    rw [h.hi_eq, length_append, length_singleton, pred_mod hM]
  have hwindow : window N slot lo q.length ++ [slot ((lo + q.length) % N)] = q ++ [x] := by
    rw [← h.eq, entries, h.count_eq_length, length_append, length_singleton, window]
  obtain ⟨hq, hx⟩ := append_inj hwindow (length_window _)
  rw [hback]
  refine ⟨?_, h.lo_lt, Nat.mod_lt _ hM, by omega, ?_⟩
  · rw [Nat.mod_mod_of_dvd _ hNM]
    exact singleton_inj.mp hx
  · rw [entries, count_add h.lo_lt (by omega)]
    exact hq

end Ring

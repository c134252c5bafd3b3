
import Mathlib.Tactic

/-! Byte-addressed stores with little-endian words. A store is a total function from addresses to
bytes; a field of a C structure laid over a buffer is a word of 2, 4 or 8 bytes at its offset. The
results are the two rules every field access needs: a word reads back as it was written, and a
write leaves every word it does not overlap. -/

abbrev ByteStore := Nat → UInt8

namespace ByteStore

/-- The little-endian value of the `n` bytes at `a`. -/
def ld (m : ByteStore) (a : Nat) : Nat → Nat
  | 0 => 0
  | n + 1 => (m a).toNat + 256 * ld m (a + 1) n

/-- Writing the low `n` bytes of `v` at `a`, least significant first. -/
def st (m : ByteStore) (a n v : Nat) : ByteStore := fun x =>
  if a ≤ x ∧ x < a + n then UInt8.ofNat (v / 256 ^ (x - a)) else m x

/-- `memset`. -/
def fill (m : ByteStore) (a n : Nat) (c : UInt8) : ByteStore := fun x =>
  if a ≤ x ∧ x < a + n then c else m x

/-- `memmove` of `n` bytes from offset `b` of `src`. -/
def copy (m : ByteStore) (a : Nat) (src : ByteStore) (b n : Nat) : ByteStore := fun x =>
  if a ≤ x ∧ x < a + n then src (b + (x - a)) else m x

/-- The `n` bytes at `a`. -/
def bytes (m : ByteStore) (a n : Nat) : List UInt8 := (List.range n).map fun i => m (a + i)

/-- `memmove` from a list of bytes. -/
def put (m : ByteStore) (a : Nat) (bs : List UInt8) : ByteStore := fun x =>
  if a ≤ x ∧ x < a + bs.length then bs.getD (x - a) 0 else m x

variable {m m' : ByteStore}

theorem ld_congr : ∀ {n a : Nat}, (∀ i, i < n → m (a + i) = m' (a + i)) → ld m a n = ld m' a n
  | 0, _, _ => rfl
  | n + 1, a, h => by
    have htail : ld m (a + 1) n = ld m' (a + 1) n :=
      ld_congr fun i hi => by
        have := h (i + 1) (by omega)
        rwa [Nat.add_assoc, Nat.add_comm 1 i]
    have hhead := h 0 (by omega)
    simp only [Nat.add_zero] at hhead
    rw [ld, ld, hhead, htail]

theorem ld_lt (m : ByteStore) : ∀ (a n : Nat), ld m a n < 256 ^ n
  | _, 0 => by simp [ld]
  | a, n + 1 => by
    have h1 := (m a).toNat_lt
    have h2 := ld_lt m (a + 1) n
    rw [ld, pow_succ]
    omega

/-- A word whose bytes are the base-256 digits of `v` has the value `v`, cut to its width. -/
theorem ld_digits : ∀ {n a v : Nat}, (∀ i, i < n → (m (a + i)).toNat = v / 256 ^ i % 256) →
    ld m a n = v % 256 ^ n
  | 0, _, _, _ => by simp [ld, Nat.mod_one]
  | n + 1, a, v, h => by
    have hhead := h 0 (by omega)
    have htail : ld m (a + 1) n = v / 256 % 256 ^ n := by
      apply ld_digits
      intro i hi
      have := h (i + 1) (by omega)
      rw [Nat.add_assoc, Nat.add_comm 1 i, this, pow_succ', Nat.div_div_eq_div_mul]
    simp only [Nat.add_zero, pow_zero, Nat.div_one] at hhead
    rw [ld, hhead, htail, pow_succ', Nat.mod_mul]

theorem ld_st_self (m : ByteStore) (a n v : Nat) : ld (st m a n v) a n = v % 256 ^ n := by
  apply ld_digits
  intro i hi
  have hin : a ≤ a + i ∧ a + i < a + n := by omega
  simp only [st, hin, and_self, if_true, UInt8.toNat_ofNat', Nat.add_sub_cancel_left]

theorem st_of_not_mem {a n v x : Nat} (h : x < a ∨ a + n ≤ x) : st m a n v x = m x := by
  have hout : ¬(a ≤ x ∧ x < a + n) := by omega
  simp only [st, hout, if_false]

/-- A word is not changed by a write that does not overlap it. -/
theorem ld_st_of_disjoint {a n v b k : Nat} (h : b + k ≤ a ∨ a + n ≤ b) : ld (st m a n v) b k = ld m b k :=
  ld_congr fun _ _ => st_of_not_mem (by omega)

theorem ld_fill_zero {a n b k : Nat} (h1 : a ≤ b) (h2 : b + k ≤ a + n) : ld (fill m a n 0) b k = 0 := by
  have h : ld (fill m a n 0) b k = 0 % 256 ^ k := by
    apply ld_digits
    intro i hi
    have hin : a ≤ b + i ∧ b + i < a + n := by omega
    simp [fill, hin]
  simpa using h

theorem ld_fill_of_disjoint {a n b k : Nat} {c : UInt8} (h : b + k ≤ a ∨ a + n ≤ b) :
    ld (fill m a n c) b k = ld m b k :=
  ld_congr fun i _ => by
    have hout : ¬(a ≤ b + i ∧ b + i < a + n) := by omega
    simp only [fill, hout, if_false]

end ByteStore

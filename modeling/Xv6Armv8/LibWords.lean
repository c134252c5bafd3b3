
import Xv6Armv8.LibBytes

/-! Memory with 64-bit addresses that wrap around, and its little-endian words. Words written at offsets from
a base that lie apart read back in any order, so a structure in memory is the list of its words. -/

abbrev Word64 := BitVec 64

abbrev WordMem := Word64 → UInt8

namespace WordMem

open List

variable {m m' : WordMem} {a b v : Word64} {o n : Nat}

/-- The address `n` bytes on. -/
def off (a : Word64) (n : Nat) : Word64 := a + BitVec.ofNat 64 n

/-- The word at `a`. -/
def word (m : WordMem) (a : Word64) : Word64 := BitVec.ofNat 64 (ByteStore.ld (fun i => m (off a i)) 0 8)

/-- The memory after a store of a word. -/
def put (m : WordMem) (a v : Word64) : WordMem := fun b =>
  if (b - a).toNat < 8 then UInt8.ofNat (v.toNat / 256 ^ (b - a).toNat) else m b

/-- The words at `a` and `b` do not overlap. -/
def Apart (a b : Word64) : Prop := 8 ≤ (a - b).toNat ∧ 8 ≤ (b - a).toNat

@[simp] theorem off_zero : off a 0 = a := BitVec.add_zero a

theorem off_off : off (off a n) o = off a (n + o) := by
  unfold off
  rw [BitVec.ofNat_add, BitVec.add_assoc]

theorem off_sub (a : Word64) (n : Nat) : off (a - BitVec.ofNat 64 n) n = a := BitVec.sub_add_cancel a _

theorem sub_off (a : Word64) (n : Nat) : off a n - BitVec.ofNat 64 n = a := BitVec.add_sub_cancel a _

theorem toNat_off_sub (h : n < 2 ^ 64) : (off a n - a).toNat = n := by
  unfold off
  bv_omega

theorem word_congr (h : ∀ i, i < 8 → m' (off a i) = m (off a i)) : word m' a = word m a := by
  have hbytes : ByteStore.ld (fun i => m' (off a i)) 0 8 = ByteStore.ld (fun i => m (off a i)) 0 8 := by
    apply ByteStore.ld_congr
    intro i hi
    rw [Nat.zero_add]
    exact h i hi
  exact congrArg (BitVec.ofNat 64) hbytes

theorem word_put_self : word (put m a v) a = v := by
  have hbytes : ByteStore.ld (fun i => put m a v (off a i)) 0 8 = v.toNat % 256 ^ 8 := by
    apply ByteStore.ld_digits
    intro i hi
    have hoff : (off a i - a).toNat = i := toNat_off_sub (by omega)
    rw [Nat.zero_add, put, hoff, if_pos hi, UInt8.toNat_ofNat']
  have hlt : v.toNat % 256 ^ 8 = v.toNat := Nat.mod_eq_of_lt v.isLt
  unfold word
  rw [hbytes, hlt, BitVec.ofNat_toNat, BitVec.setWidth_eq]

theorem word_put_of_apart (h : Apart a b) : word (put m a v) b = word m b := by
  apply word_congr
  intro i hi
  unfold put
  apply if_neg
  obtain ⟨hab, hba⟩ := h
  unfold off
  bv_omega

theorem apart_off {k : Nat} (hfar : n + 8 ≤ k ∨ k + 8 ≤ n) (hn : n < 2 ^ 32) (hk : k < 2 ^ 32) :
    Apart (off a n) (off a k) := by
  unfold Apart off
  bv_omega

/-! ### Structures -/

/-- The memory after words have been written at offsets from `a`, the first of the list last. -/
def puts (m : WordMem) (a : Word64) : List (Nat × Word64) → WordMem
  | [] => m
  | p :: ps => put (puts m a ps) (off a p.1) p.2

theorem puts_append (ps qs : List (Nat × Word64)) : puts m a (ps ++ qs) = puts (puts m a qs) a ps := by
  induction ps with
  | nil => rfl
  | cons p ps ih => exact congrArg (put · (off a p.1) p.2) ih

/-- Words at these offsets do not overlap, and the offsets do not wrap around. -/
def Laid (os : List Nat) : Prop := os.Pairwise (fun o q => o + 8 ≤ q ∨ q + 8 ≤ o) ∧ ∀ o ∈ os, o < 2 ^ 32

instance (os : List Nat) : Decidable (Laid os) := inferInstanceAs (Decidable (_ ∧ _))

/-- **Words that lie apart read back.** -/
theorem word_puts {ps : List (Nat × Word64)} (h : Laid (ps.map Prod.fst)) (hmem : (o, v) ∈ ps) :
    word (puts m a ps) (off a o) = v := by
  induction ps with
  | nil => exact absurd hmem not_mem_nil
  | cons p ps ih =>
    obtain ⟨hfar, hlt⟩ := h
    obtain ⟨hhead, hrest⟩ := pairwise_cons.mp hfar
    have ho : o ∈ (p :: ps).map Prod.fst := mem_map_of_mem hmem
    unfold puts
    rcases mem_cons.mp hmem with rfl | hmem'
    · exact word_put_self
    · have hap : Apart (off a p.1) (off a o) :=
        apart_off (hhead o (mem_map_of_mem hmem')) (hlt _ mem_cons_self) (hlt o ho)
      rw [word_put_of_apart hap]
      exact ih ⟨hrest, fun q hq => hlt q (mem_cons_of_mem _ hq)⟩ hmem'

/-- Writing a structure leaves the words that it does not overlap. -/
theorem word_puts_of_apart {ps : List (Nat × Word64)} (h : ∀ p ∈ ps, Apart (off a p.1) b) :
    word (puts m a ps) b = word m b := by
  induction ps with
  | nil => rfl
  | cons p ps ih =>
    unfold puts
    rw [word_put_of_apart (h p mem_cons_self)]
    exact ih fun q hq => h q (mem_cons_of_mem p hq)

/-- The `n` bytes at `a` are the same. -/
def Same (m m' : WordMem) (a : Word64) (n : Nat) : Prop := ∀ i, i < n → m' (off a i) = m (off a i)

theorem Same.refl (m : WordMem) (a : Word64) (n : Nat) : Same m m a n := fun _ _ => rfl

theorem Same.word (h : Same m m' a n) (ho : o + 8 ≤ n) : word m' (off a o) = word m (off a o) := by
  apply word_congr
  intro i hi
  rw [off_off]
  exact h (o + i) (by omega)

end WordMem

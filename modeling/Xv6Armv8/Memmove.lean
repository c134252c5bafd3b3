import Xv6Armv8.LibBytes

/-! The two copies of `memmove`, of the kernel (`string.c`) and of the user library (`ulib.c`), over memory addressed by
64-bit pointers. They choose the direction of the loop by different tests; both are the simultaneous copy
`ByteStore.copy`, that the models of the kernel use for it. -/

namespace Xv6Armv8.Memmove

open ByteStore

/-- `while (n-- > 0) *d++ = *s++;` -/
def copyUp : Nat → Nat → Nat → ByteStore → ByteStore
  | 0, _, _, m => m
  | n + 1, d, s, m => copyUp n ((d + 1) % 2 ^ 64) ((s + 1) % 2 ^ 64) (Function.update m d (m s))

/-- `while (n-- > 0) *--d = *--s;` -/
def copyDown : Nat → Nat → Nat → ByteStore → ByteStore
  | 0, _, _, m => m
  | n + 1, d, s, m =>
    let d := (d + 2 ^ 64 - 1) % 2 ^ 64
    let s := (s + 2 ^ 64 - 1) % 2 ^ 64
    copyDown n d s (Function.update m d (m s))

namespace Kernel

def memmove (dst src n : Nat) (m : ByteStore) : ByteStore :=
  if n = 0 then m
  else if src < dst ∧ dst < (src + n) % 2 ^ 64 then copyDown n ((dst + n) % 2 ^ 64) ((src + n) % 2 ^ 64) m
  else copyUp n dst src m

end Kernel

namespace Ulib

def memmove (vdst vsrc : Nat) (n : Int) (m : ByteStore) : ByteStore :=
  if vdst < vsrc then copyUp n.toNat vdst vsrc m
  else copyDown n.toNat ((vdst + n) % 2 ^ 64).toNat ((vsrc + n) % 2 ^ 64).toNat m

end Ulib

/-- A loop upwards reads no byte it has written, unless the destination starts inside the source. -/
theorem copyUp_eq (n : Nat) : ∀ {d s : Nat} (m : ByteStore), d + n ≤ 2 ^ 64 → s + n ≤ 2 ^ 64 → ¬(s < d ∧ d < s + n) →
    copyUp n (d % 2 ^ 64) (s % 2 ^ 64) m = m.copy d m s n := by
  induction n with
  | zero =>
    intro d s m _ _ _
    funext x
    exact (if_neg (by omega)).symm
  | succ n ih =>
    intro d s m hd hs hfar
    rw [copyUp, Nat.mod_eq_of_lt (show d < 2 ^ 64 by omega), Nat.mod_eq_of_lt (show s < 2 ^ 64 by omega),
      ih _ (by omega) (by omega) (by omega)]
    funext x
    unfold copy
    by_cases hx : d + 1 ≤ x ∧ x < d + 1 + n
    · rw [if_pos hx, if_pos (by omega), Function.update_of_ne (by omega)]
      congr 1
      omega
    · rw [if_neg hx]
      by_cases hxd : x = d
      · rw [hxd, Function.update_self, if_pos (by omega), Nat.sub_self, Nat.add_zero]
      · rw [Function.update_of_ne hxd, if_neg (by omega)]

/-- A loop downwards reads no byte it has written, unless the source starts inside the destination. -/
theorem copyDown_eq (n : Nat) : ∀ {d s : Nat} (m : ByteStore), d + n ≤ 2 ^ 64 → s + n ≤ 2 ^ 64 → ¬(d < s ∧ s < d + n) →
    copyDown n ((d + n) % 2 ^ 64) ((s + n) % 2 ^ 64) m = m.copy d m s n := by
  induction n with
  | zero =>
    intro d s m _ _ _
    funext x
    exact (if_neg (by omega)).symm
  | succ n ih =>
    intro d s m hd hs hfar
    have hprev : ∀ a, a + (n + 1) ≤ 2 ^ 64 → ((a + (n + 1)) % 2 ^ 64 + 2 ^ 64 - 1) % 2 ^ 64 = (a + n) % 2 ^ 64 :=
      fun a _ => by omega
    rw [copyDown, hprev d hd, hprev s hs, ih _ (by omega) (by omega) (by omega),
      Nat.mod_eq_of_lt (show d + n < 2 ^ 64 by omega), Nat.mod_eq_of_lt (show s + n < 2 ^ 64 by omega)]
    funext x
    unfold copy
    by_cases hx : d ≤ x ∧ x < d + n
    · rw [if_pos hx, if_pos (by omega), Function.update_of_ne (by omega)]
    · rw [if_neg hx]
      by_cases hxd : x = d + n
      · rw [hxd, Function.update_self, if_pos (by omega), Nat.add_sub_cancel_left]
      · rw [Function.update_of_ne hxd, if_neg (by omega)]

variable {dst src n : Nat} {m : ByteStore}

theorem kernel_memmove_eq (hdst : dst + n ≤ 2 ^ 64) (hsrc : src + n ≤ 2 ^ 64) :
    Kernel.memmove dst src n m = m.copy dst m src n := by
  unfold Kernel.memmove
  split_ifs with h0 hback
  · rw [h0]
    funext x
    exact (if_neg (by omega)).symm
  · exact copyDown_eq n m hdst hsrc (by omega)
  · have hup := copyUp_eq n m hdst hsrc (by omega)
    rwa [Nat.mod_eq_of_lt (by omega), Nat.mod_eq_of_lt (by omega)] at hup

theorem ulib_memmove_eq (hdst : dst + n ≤ 2 ^ 64) (hsrc : src + n ≤ 2 ^ 64) :
    Ulib.memmove dst src n m = m.copy dst m src n := by
  have hcast : ∀ a : Nat, (((a : Int) + n) % 2 ^ 64).toNat = (a + n) % 2 ^ 64 := fun a => by omega
  unfold Ulib.memmove
  rw [hcast, hcast, Int.toNat_natCast]
  split_ifs with hlt
  · have hup := copyUp_eq n m hdst hsrc (by omega)
    rcases Nat.eq_zero_or_pos n with rfl | hpos
    · exact hup
    · rwa [Nat.mod_eq_of_lt (by omega), Nat.mod_eq_of_lt (by omega)] at hup
  · exact copyDown_eq n m hdst hsrc (by omega)

/-- **Overlapping moves are safe**, in the kernel and in the user library: the destination gets the bytes that the source
had before the call, no other byte changes, and so the two agree. -/
theorem overlapping_moves_safe (hdst : dst + n ≤ 2 ^ 64) (hsrc : src + n ≤ 2 ^ 64) :
    (∀ i, i < n → Kernel.memmove dst src n m (dst + i) = m (src + i)) ∧
    (∀ x, ¬(dst ≤ x ∧ x < dst + n) → Kernel.memmove dst src n m x = m x) ∧
    Ulib.memmove dst src n m = Kernel.memmove dst src n m := by
  rw [kernel_memmove_eq hdst hsrc, ulib_memmove_eq hdst hsrc]
  refine ⟨fun i hi => ?_, fun x hx => if_neg hx, rfl⟩
  rw [copy, if_pos (by omega), Nat.add_sub_cancel_left]

/-- The second half of four bytes that are moved up by two is the first. -/
theorem move_up_two : Kernel.memmove 2 0 4 (fun x => UInt8.ofNat x) 4 = 2 := by
  have h : ∀ i, i < 4 → Kernel.memmove 2 0 4 (fun x => UInt8.ofNat x) (2 + i) = UInt8.ofNat (0 + i) :=
    (overlapping_moves_safe (by decide) (by decide)).1
  exact h 2 (by decide)

end Xv6Armv8.Memmove

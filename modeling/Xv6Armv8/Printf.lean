import Mathlib

/-! The formatted output of the kernel (`printf.c`). The arguments are the 64-bit slots that `va_arg` reads, of which an
`int` takes the low half; a string argument is given by the characters at its address. `printint` widens every argument
to a signed 64-bit value, so that an `unsigned` of 32 bits with its highest bit set prints as a number of 64 bits. -/

namespace Xv6Armv8.Printf

open Option

def digit : List Char := "0123456789abcdef".toList

/-- The loop that fills `buf`, with the places left; a digit past the end of the buffer is `none`. -/
def fill (base : Nat) : Nat → Nat → List Char → Option (List Char)
  | 0, _, _ => none
  | room + 1, t, buf =>
    let buf := digit.getD (t % base) '0' :: buf
    if t / base = 0 then some buf else fill base room (t / base) buf

/-- `printint`, for an `int64`. The digits are put out from the last one stored. -/
def printint (x : Int) (base : Nat) (sign : Bool) : Option (List Char) :=
  if sign ∧ x < 0 then (fill base 64 (-x % 2 ^ 64).toNat []).map ('-' :: ·)
  else fill base 64 (x % 2 ^ 64).toNat []

/-- What a conversion puts out, with the arguments it leaves. -/
def convert (str : BitVec 64 → List Char) (l : Nat) (c : Char) (ap : List (BitVec 64)) :
    Option (List Char × List (BitVec 64)) :=
  let v := ap.headD 0
  let arg := if l = 2 then v.toInt else (v.setWidth 32).toInt
  match c with
  | 'u' => (printint arg 10 false).map (·, ap.tail)
  | 'd' => (printint arg 10 true).map (·, ap.tail)
  | 'x' => (printint arg 16 false).map (·, ap.tail)
  | 'p' => (printint v.toInt 16 false).map ('0' :: 'x' :: ·, ap.tail)
  | 'c' => some ([Char.ofNat (v.toNat % 256)], ap.tail)
  | 's' => some (if v = 0 then "(null)".toList else str v, ap.tail)
  | '%' => some (['%'], ap)
  | c => some (['%', c], ap)

/-- `vprintf` on the rest of a format; after a percent sign with the number of `l` seen. -/
def vprintf (str : BitVec 64 → List Char) : Option Nat → List Char → List (BitVec 64) → Option (List Char)
  | _, [], _ => some []
  | none, c :: fmt, ap =>
    if c = '%' then vprintf str (some 0) fmt ap else (vprintf str none fmt ap).map (c :: ·)
  | some l, c :: fmt, ap =>
    if c = 'l' then vprintf str (some (l + 1)) fmt ap
    else do
      let (out, ap) ← convert str l c ap
      return out ++ (← vprintf str none fmt ap)

variable {base room t : Nat} {str : BitVec 64 → List Char} {fmt : List Char} {ap : List (BitVec 64)} {v : BitVec 64}

theorem digit_eq : ∀ d, d < 16 → digit.getD d '0' = Nat.digitChar d := by decide

theorem fill_spec (hbase : 1 < base) (h16 : base ≤ 16) : ∀ {room t : Nat} (buf : List Char), t < base ^ (room + 1) →
    fill base (room + 1) t buf = some (Nat.toDigits base t ++ buf) := by
  intro room
  induction room with
  | zero =>
    intro t buf ht
    rw [zero_add, pow_one] at ht
    have hdiv : t / base = 0 := Nat.div_eq_of_lt ht
    rw [fill, if_pos hdiv, Nat.mod_eq_of_lt ht, digit_eq t (by omega), Nat.toDigits_of_lt_base ht]
    rfl
  | succ room ih =>
    intro t buf ht
    have hmod : t % base < base := Nat.mod_lt _ (by omega)
    rw [fill, digit_eq _ (by omega), Nat.toDigits_eq_if hbase]
    by_cases hlt : t < base
    · rw [if_pos (Nat.div_eq_of_lt hlt), if_pos hlt, Nat.mod_eq_of_lt hlt]
      rfl
    · have hdiv : t / base ≠ 0 := fun h => hlt ((Nat.div_eq_zero_iff_lt (by omega)).mp h)
      rw [if_neg hdiv, if_neg hlt, ih _ (Nat.div_lt_of_lt_mul (by rwa [← pow_succ'])), List.append_assoc]
      rfl

/-- The numeral of a signed number. -/
def signed (x : Int) : List Char := if x < 0 then '-' :: Nat.toDigits 10 x.natAbs else Nat.toDigits 10 x.toNat

theorem fill_fits (hbase : base = 10 ∨ base = 16) (ht : t < 2 ^ 64) : fill base 64 t [] = some (Nat.toDigits base t) := by
  have hpow : 2 ^ 64 ≤ base ^ (63 + 1) := Nat.pow_le_pow_left (by omega) 64
  rw [fill_spec (by omega) (by omega) _ (ht.trans_le hpow), List.append_nil]

theorem printint_unsigned {x : Int} (hbase : base = 10 ∨ base = 16) :
    printint x base false = some (Nat.toDigits base (x % 2 ^ 64).toNat) := by
  rw [printint, if_neg (by simp), fill_fits hbase (by omega)]

theorem printint_signed {x : Int} (hlo : -2 ^ 63 ≤ x) (hhi : x < 2 ^ 63) : printint x 10 true = some (signed x) := by
  unfold printint signed
  rw [fill_fits (.inl rfl) (by omega), fill_fits (.inl rfl) (by omega)]
  by_cases hneg : x < 0
  · have habs : (-x % 2 ^ 64).toNat = x.natAbs := by omega
    rw [if_pos ⟨rfl, hneg⟩, if_pos hneg, habs]
    rfl
  · have hnat : (x % 2 ^ 64).toNat = x.toNat := by omega
    rw [if_neg fun h => hneg h.2, if_neg hneg, hnat]

theorem printint_isSome {x : Int} {sign : Bool} (hbase : base = 10 ∨ base = 16) : (printint x base sign).isSome := by
  unfold printint
  rw [fill_fits hbase (by omega), fill_fits hbase (by omega)]
  split_ifs
  · rfl
  · rfl

/-- **The digits never overrun the buffer**, whatever the format and the arguments. -/
theorem vprintf_isSome : ∀ {l : Option Nat} {ap : List (BitVec 64)}, (vprintf str l fmt ap).isSome := by
  induction fmt with
  | nil =>
    intro l ap
    cases l with
    | none => rfl
    | some l => rfl
  | cons c fmt ih =>
    intro l ap
    cases l with
    | none =>
      rw [vprintf]
      split_ifs
      · exact ih
      · rw [isSome_map]
        exact ih
    | some l =>
      rw [vprintf]
      split_ifs
      · exact ih
      · have hconv : (convert str l c ap).isSome := by
          unfold convert
          dsimp only
          split <;> simp only [isSome_map, printint_isSome, isSome_some, true_or, or_true]
        obtain ⟨⟨out, ap'⟩, hr⟩ := isSome_iff_exists.mp hconv
        have hrest : (vprintf str none fmt ap').isSome := ih
        rw [hr]
        show ((vprintf str none fmt ap').bind fun rest => some (out ++ rest)).isSome
        rw [isSome_bind]
        simpa using hrest

/-- The conversions of numbers. -/
inductive Conv
  | d | u | x | lld | llu | llx | p

/-- What is written in the format, and the numeral that it is to print for an argument. -/
def Conv.text : Conv → List Char
  | .d => ['%', 'd']
  | .u => ['%', 'u']
  | .x => ['%', 'x']
  | .lld => ['%', 'l', 'l', 'd']
  | .llu => ['%', 'l', 'l', 'u']
  | .llx => ['%', 'l', 'l', 'x']
  | .p => ['%', 'p']

def Conv.numeral (v : BitVec 64) : Conv → List Char
  | .d => signed (v.setWidth 32).toInt
  | .u => Nat.toDigits 10 (v.setWidth 32).toNat
  | .x => Nat.toDigits 16 (v.setWidth 32).toNat
  | .lld => signed v.toInt
  | .llu => Nat.toDigits 10 v.toNat
  | .llx => Nat.toDigits 16 v.toNat
  | .p => '0' :: 'x' :: Nat.toDigits 16 v.toNat

/-- The conversion prints the numeral of the argument, in front of what the rest of the format prints. -/
def Prints (c : Conv) (v : BitVec 64) : Prop :=
  ∀ str fmt ap, vprintf str none (c.text ++ fmt) (v :: ap) = (vprintf str none fmt ap).map (c.numeral v ++ ·)

/-- A conversion of an unsigned number of 32 bits. -/
def Conv.narrow : Conv → Bool
  | .u | .x => true
  | _ => false

theorem toInt_mod_eq (v : BitVec 64) : (v.toInt % 2 ^ 64).toNat = v.toNat := by
  have h := BitVec.toInt_eq_toNat_cond v
  have hlt := v.isLt
  omega

theorem narrow_mod_eq (w : BitVec 32) :
    (w.toInt % 2 ^ 64).toNat = if w.toNat < 2 ^ 31 then w.toNat else w.toNat + (2 ^ 64 - 2 ^ 32) := by
  have h := BitVec.toInt_eq_toNat_cond w
  have hlt := w.isLt
  split_ifs at h ⊢ <;> omega

theorem narrow_digits_iff (hbase : base = 10 ∨ base = 16) (w : BitVec 32) :
    Nat.toDigits base (w.toInt % 2 ^ 64).toNat = Nat.toDigits base w.toNat ↔ w.toNat < 2 ^ 31 := by
  rw [narrow_mod_eq]
  refine ⟨fun h => ?_, fun h => by rw [if_pos h]⟩
  by_contra hge
  rw [if_neg hge] at h
  have hlt := w.isLt
  have hshort : (Nat.toDigits base w.toNat).length ≤ 10 :=
    (Nat.length_toDigits_le_iff (by omega) (by omega)).mpr (by rcases hbase with rfl | rfl <;> omega)
  rw [← h, Nat.length_toDigits_le_iff (by omega) (by omega)] at hshort
  rcases hbase with rfl | rfl <;> omega

/-- What the code prints. -/
def Conv.output (v : BitVec 64) : Conv → List Char
  | .u => Nat.toDigits 10 ((v.setWidth 32).toInt % 2 ^ 64).toNat
  | .x => Nat.toDigits 16 ((v.setWidth 32).toInt % 2 ^ 64).toNat
  | c => c.numeral v

theorem vprintf_convert (l : Nat) (c : Char) {out : List Char} (hc : c ≠ 'l')
    (h : convert str l c (v :: ap) = some (out, ap)) :
    vprintf str (some l) (c :: fmt) (v :: ap) = (vprintf str none fmt ap).map (out ++ ·) := by
  rw [vprintf, if_neg hc, h, map_eq_bind]
  rfl

theorem vprintf_output (c : Conv) :
    vprintf str none (c.text ++ fmt) (v :: ap) = (vprintf str none fmt ap).map (c.output v ++ ·) := by
  have hwide : ∀ {b}, b = 10 ∨ b = 16 → printint v.toInt b false = some (Nat.toDigits b v.toNat) := fun hb => by
    rw [printint_unsigned hb, toInt_mod_eq]
  cases c with
  | d =>
    have hlo := (v.setWidth 32).le_toInt
    have hhi := (v.setWidth 32).toInt_lt
    have hd : printint (v.setWidth 32).toInt 10 true = _ := printint_signed (by omega) (by omega)
    exact vprintf_convert 0 'd' (by decide) (congrArg (Option.map (·, ap)) hd)
  | u => exact vprintf_convert 0 'u' (by decide) (congrArg (Option.map (·, ap)) (printint_unsigned (.inl rfl)))
  | x => exact vprintf_convert 0 'x' (by decide) (congrArg (Option.map (·, ap)) (printint_unsigned (.inr rfl)))
  | lld =>
    have hd : printint v.toInt 10 true = _ := printint_signed v.le_toInt v.toInt_lt
    exact vprintf_convert 2 'd' (by decide) (congrArg (Option.map (·, ap)) hd)
  | llu => exact vprintf_convert 2 'u' (by decide) (congrArg (Option.map (·, ap)) (hwide (.inl rfl)))
  | llx => exact vprintf_convert 2 'x' (by decide) (congrArg (Option.map (·, ap)) (hwide (.inr rfl)))
  | p => exact vprintf_convert 0 'p' (by decide) (congrArg (Option.map ('0' :: 'x' :: ·, ap)) (hwide (.inr rfl)))

/-- **The conversions print the number they are given just when it is not an unsigned number of 32 bits with its highest
bit set**, and no number overruns the buffer. -/
theorem prints_iff (c : Conv) (v : BitVec 64) : (Prints c v ↔ (c.narrow → (v.setWidth 32).toNat < 2 ^ 31)) ∧
    ∀ str fmt ap, (vprintf str none fmt ap).isSome := by
  refine ⟨?_, fun _ _ _ => vprintf_isSome⟩
  have hout : Prints c v ↔ c.output v = c.numeral v := by
    refine ⟨fun hp => ?_, fun he str fmt ap => by rw [vprintf_output, he]⟩
    have h0 := (vprintf_output c).symm.trans (hp (fun _ => []) [] [])
    simpa [vprintf] using h0
  rw [hout]
  cases c with
  | u => exact (narrow_digits_iff (.inl rfl) _).trans (by simp [Conv.narrow])
  | x => exact (narrow_digits_iff (.inr rfl) _).trans (by simp [Conv.narrow])
  | d | lld | llu | llx | p => exact iff_of_true rfl nofun

/-- `%u` of 2^32 - 1. -/
theorem max_unsigned_wrong : ¬Prints .u (2 ^ 32 - 1) := fun h => by
  have h0 := h (fun _ => []) [] []
  revert h0
  decide +kernel

end Xv6Armv8.Printf

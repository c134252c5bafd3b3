import Xv6Armv8.KernelShape
import Xv6Armv8.VmMap

/-! `sbrk`. Growing adds zeroed pages or fails and leaves everything; shrinking to a size that is not negative keeps
the pages below it. An amount below the negated size wraps around in `growproc`: `uvmdealloc` takes the sum for a
larger size and returns the old one, and the call reports success. -/

namespace Xv6Armv8.Kernel

open Spec Vm FileTable Exec Function List

variable {k k' : Machine} {m m' : Mem} {i pt sz va : Nat} {n : Int} {l l' : List Nat}

/-- The call has failed and changed nothing, or it has moved the end by the amount: the pages below the new end are
mapped and no other, pages it has added read as zero, and the bytes that stay are as before. -/
def SbrkExact (k k' : Machine) (i pt : Nat) (n r : Int) : Prop :=
  (k'.proc i).pagetable = some pt ∧
  ((r = -1 ∧ (k'.proc i).size = (k.proc i).size ∧
      ∀ va, va < maxVa → translation k'.mem pt va = translation k.mem pt va) ∨
    (r = (k.proc i).size ∧ ((k'.proc i).size : Int) = (k.proc i).size + n ∧
      (∀ va, va < maxVa → (translation k'.mem pt va ≠ none ↔ va < pgRoundUp (k'.proc i).size)) ∧
      (∀ va, va < maxVa → translation k'.mem pt va ≠ none → translation k.mem pt va = none →
        byteAt k'.mem pt va = some 0) ∧
      ∀ va, va < maxVa → translation k'.mem pt va ≠ none → translation k.mem pt va ≠ none →
        byteAt k'.mem pt va = byteAt k.mem pt va))

/-! ### The memory before and after -/

/-- What a call makes of the pages `l`: all that the two lists have in common is kept, and what `l'` has more is
zero. -/
structure Resized (m m' : Mem) (pt : Nat) (l l' : List Nat) : Prop where
  before : Space m pt l
  after : Space m' pt l'
  entry : ∀ j (h : j < l.length) (h' : j < l'.length), l'[j] = l[j]
  kept : ∀ j (h : j < l.length), j < l'.length → m'.ram (ptePage l[j]) = m.ram (ptePage l[j])
  new : ∀ j (h' : j < l'.length), l.length ≤ j → m'.ram (ptePage l'[j]) = fun _ => 0

theorem Resized.exact {r : Int} (h : Resized k.mem k'.mem pt l l') (hpt : (k'.proc i).pagetable = some pt)
    (hcount : pgCount (k'.proc i).size = l'.length) (hr : r = (k.proc i).size)
    (hsize : ((k'.proc i).size : Int) = (k.proc i).size + n) : SbrkExact k k' i pt n r := by
  refine ⟨hpt, .inr ⟨hr, hsize, fun va hva => h.after.mapped_iff hcount hva, fun va hva hin hout => ?_,
    fun va hva hin hin' => ?_⟩⟩
  · rw [h.after.translation_ne_none hva] at hin
    have hle : l.length ≤ va / pgSize := not_lt.mp fun hlt => (h.before.translation_ne_none hva).mpr hlt hout
    rw [h.after.byteAt hva hin, h.new _ hin hle]
  · rw [h.after.translation_ne_none hva] at hin
    rw [h.before.translation_ne_none hva] at hin'
    rw [h.after.byteAt hva hin, h.before.byteAt hva hin', h.entry _ hin' hin, h.kept _ hin' hin]

theorem Resized.refl (hs : Space m pt l) : Resized m m pt l l where
  before := hs
  after := hs
  entry := fun _ _ _ => rfl
  kept := fun _ _ _ => rfl
  new := fun _ hj hle => absurd hj (not_lt.mpr hle)

theorem Resized.grow (hs : Space m pt l) (hs' : Space m' pt (l ++ l')) (hp : Pool m (tables m 3 pt + pages l))
    (hmv : Moves m m' (tables m 3 pt) (tables m' 3 pt + pages l'))
    (hzero : ∀ e ∈ l', m'.ram (ptePage e) = fun _ => 0) : Resized m m' pt l (l ++ l') where
  before := hs
  after := hs'
  entry := fun _ hj _ => getElem_append_left hj
  kept := fun j hj _ => hmv.keeps hp (mem_map_of_mem (getElem_mem hj))
  new := fun j hj hle => by
    rw [getElem_append_right hle]
    exact hzero _ (getElem_mem _)

theorem Resized.shrink {c : Nat} (hs : Space m pt l) (hs' : Space m' pt (l.take c))
    (hp : Pool m (tables m 3 pt + pages l)) (hpages : pages l = pages (l.take c) + pages (l.drop c))
    (hmv : Moves m m' (tables m 3 pt + pages (l.drop c)) (tables m' 3 pt)) : Resized m m' pt l (l.take c) where
  before := hs
  after := hs'
  entry := fun _ _ _ => getElem_take
  kept := fun j hj hj' => by
    have hp' : Pool m (tables m 3 pt + pages (l.drop c) + pages (l.take c)) :=
      hp.congr (by rw [hpages, add_assoc, add_comm (pages (l.drop c))])
    refine hmv.keeps hp' (mem_map_of_mem ?_)
    have hget : (l.take c)[j] = l[j] := getElem_take
    rw [← hget]
    exact getElem_mem _
  new := fun j hj hle => by
    rw [length_take] at hj
    omega

/-! ### The call -/

/-- **`sbrk` is exact or fails just when the new size is not negative.** -/
theorem sbrk_exact_iff (hsz : Sized k.mem pt (k.proc i).size) (hpt : (k.proc i).pagetable = some pt)
    (hn : -2 ^ 31 ≤ n ∧ n < 2 ^ 31) :
    Sat (sysSbrk i n) k (fun r k' => SbrkExact k k' i pt n r ↔ 0 ≤ (k.proc i).size + n) fun _ => False := by
  obtain ⟨l, hs, hp, hcount⟩ := hsz
  have hlen : l.length ≤ 32768 := by
    have hcard := hp.card_le
    rw [Multiset.card_add, card_pages] at hcard
    omega
  have hsize : (k.proc i).size < 2 ^ 32 := by
    unfold pgCount at hcount
    unfold pgSize at hcount
    omega
  have hold : pgRoundUp (k.proc i).size = l.length * pgSize := pgRoundUp_of_count hcount hs.len
  unfold sysSbrk growproc
  rw [sat_bind, sat_get, sat_bind, sat_bind, sat_get]
  dsimp only
  rw [hpt, sat_bind, sat_deref_some, sat_ite]
  refine ⟨fun hpos => ?_, fun hnpos => ?_⟩
  · rw [addInt_of_nonneg (by omega) (by omega), sat_bind, sat_vm]
    refine (uvmalloc_spec hs hp isFlags_rwXn hold (by omega) (by omega)).mono ?_ fun _ h => h.elim
    intro sz m₁ hext
    cases hext with
    | ok l' hs' _ hzero hcount' hmv _ =>
      rw [if_neg (by omega), sat_bind, sat_setProc, sat_pure, if_neg (by decide), sat_pure]
      refine iff_of_true ((Resized.grow hs hs' hp hmv hzero).exact ?_ ?_ rfl ?_) (by omega)
      · simpa using hpt
      · simpa using hcount'.symm
      · simp only [update_self]
        omega
    | full hs' hmv _ =>
      rw [if_pos rfl, sat_pure, if_pos (by decide), sat_pure]
      refine iff_of_true ⟨hpt, .inl ⟨rfl, rfl, fun va hva => ?_⟩⟩ (by omega)
      rw [hs'.translation hva, hs.translation hva]
  · rw [sat_ite]
    refine ⟨fun hneg => ?_, fun hz => ?_⟩
    · rw [sat_bind, sat_vm]
      by_cases h0 : 0 ≤ ((k.proc i).size : Int) + n
      · rw [addInt_of_nonneg h0 (by omega)]
        generalize hnew : ((k.proc i).size + n).toNat = newsz
        have hlt : newsz < (k.proc i).size := by omega
        refine (shrink_spec hs hp hcount hlt).mono ?_ fun _ h => h.elim
        rintro sz m₁ ⟨rfl, hs', htake, hpages, hmv, -⟩
        rw [sat_bind, sat_setProc, sat_pure, if_neg (by decide), sat_pure]
        refine iff_of_true ((Resized.shrink hs hs' hp hpages hmv).exact ?_ ?_ rfl ?_) h0
        · simpa using hpt
        · simpa using htake.symm
        · simp only [update_self]
          omega
      · rw [sat_uvmdealloc_le (le_addInt_of_neg (by omega) hn.1 hsize), sat_bind, sat_setProc, sat_pure,
          if_neg (by decide), sat_pure]
        refine iff_of_false ?_ h0
        rintro ⟨-, ⟨hr, -⟩ | ⟨-, hsize', -⟩⟩
        · omega
        · simp only [update_self] at hsize'
          omega
    · rw [sat_pure, if_neg (by decide), sat_pure]
      exact iff_of_true ((Resized.refl hs).exact hpt hcount rfl (by omega)) (by omega)

theorem boot_sized : ∃ k pt, boot [] (initial smallKernel) = .ok ((), k) ∧ (k.proc 0).pagetable = some pt ∧
    (k.proc 0).size = pgSize ∧ Sized k.mem pt (k.proc 0).size := by
  have hlen : ([] : List UInt8).length ≤ pgSize := Nat.zero_le _
  obtain ⟨k, hk, hinv, hfirst, -⟩ := boot_ok smallKernel hlen
  obtain ⟨pt, -, hpt, -⟩ := hfirst.space
  exact ⟨k, pt, hk, hpt, hfirst.size, hinv.sized (by decide) hpt⟩

/-- It may ask for a page more. -/
theorem first_page_more : ∃ k pt, boot [] (initial smallKernel) = .ok ((), k) ∧
    Sized k.mem pt (k.proc 0).size ∧ (k.proc 0).pagetable = some pt ∧
    Sat (sysSbrk 0 4096) k (fun r k' => SbrkExact k k' 0 pt 4096 r) fun _ => False := by
  obtain ⟨k, pt, hk, hpt, -, hsz⟩ := boot_sized
  refine ⟨k, pt, hk, hsz, hpt, (sbrk_exact_iff hsz hpt (by decide)).imp fun r k' h => h.mpr ?_⟩
  omega

/-- One byte less than nothing: the call returns the old size, and the size stays. -/
theorem below_zero_reported : ∃ k pt, boot [] (initial smallKernel) = .ok ((), k) ∧
    (k.proc 0).pagetable = some pt ∧
    Sat (sysSbrk 0 (-4097)) k (fun r k' => r = 4096 ∧ (k'.proc 0).size = 4096 ∧ ¬SbrkExact k k' 0 pt (-4097) r)
      fun _ => False := by
  obtain ⟨k, pt, hk, hpt, hsize, -⟩ := boot_sized
  refine ⟨k, pt, hk, hpt, ?_⟩
  have hle : (k.proc 0).size ≤ addInt (k.proc 0).size (-4097) := by
    rw [hsize]
    decide
  unfold sysSbrk growproc
  rw [sat_bind, sat_get, sat_bind, sat_bind, sat_get]
  dsimp only
  rw [hpt, sat_bind, sat_deref_some, if_neg (by decide), if_pos (by decide), sat_bind, sat_vm,
    sat_uvmdealloc_le hle, sat_bind, sat_setProc, sat_pure, if_neg (by decide), sat_pure]
  refine ⟨by rw [hsize]; rfl, by simpa [pgSize] using hsize, ?_⟩
  rintro ⟨-, ⟨hr, -⟩ | ⟨-, hsize', -⟩⟩
  · omega
  · simp only [update_self] at hsize'
    omega

end Xv6Armv8.Kernel

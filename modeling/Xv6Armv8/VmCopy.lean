import Mathlib.Data.List.TakeWhile
import Xv6Armv8.VmFree

/-! User memory as the kernel reaches it. `walkaddr` is a function of the leaf entry of the address, the
copies into the kernel change nothing, and the copies out of it change the contents of mapped user pages
and nothing else. -/

namespace Xv6Armv8.Vm

open Spec List

variable {m m' m'' : Mem} {pde va : Nat} {l : List Nat} {A B F : Multiset Nat}

/-! ### Contents -/

/-- Nothing but the contents of the pages `A` has changed. -/
structure Written (m m' : Mem) (A : Multiset Nat) : Prop where
  frame : ∀ x, x ∉ A → m'.ram x = m.ram x
  free : m'.freelist = m.freelist
  kend : m'.kend = m.kend

theorem Written.refl (m : Mem) (A : Multiset Nat) : Written m m A := ⟨fun _ _ => rfl, rfl, rfl⟩

theorem Written.trans (h : Written m m' A) (h' : Written m' m'' A) : Written m m'' A where
  frame := fun x hx => (h'.frame x hx).trans (h.frame x hx)
  free := h'.free.trans h.free
  kend := h'.kend.trans h.kend

theorem Written.mono (h : Written m m' A) (hA : A ≤ B) : Written m m' B where
  frame := fun x hx => h.frame x fun hA' => hx (Multiset.mem_of_le hA hA')
  free := h.free
  kend := h.kend

theorem Written.moves (h : Written m m' A) : Moves m m' A A where
  conserve := by rw [h.free]
  frame := fun x hx _ => h.frame x hx
  kend := h.kend

theorem written_setPage {p : Nat} {b : ByteStore} (hp : p ∈ A) : Written m (m.setPage p b) A where
  frame := fun _ hx => ram_setPage_of_ne fun h => hx (h ▸ hp)
  free := rfl
  kend := rfl

theorem Written.space (h : Written m m' A) (hs : Space m pde l) (hp : Pool m (A + tables m 3 pde)) :
    Space m' pde l ∧ tables m' 3 pde = tables m 3 pde :=
  have hsame : ∀ x ∈ tables m 3 pde, m'.ram x = m.ram x := fun x hx => h.frame x (hp.disjoint hx)
  ⟨hs.congr hsame, tables_congr hsame⟩

/-! ### walkaddr -/

/-- The page of a user address, as `walkaddr` finds it; 0 if there is none. -/
def transl (m : Mem) (pde va : Nat) : Nat :=
  if maxVa ≤ va then 0
  else if entry m 3 pde (va / pgSize) &&& mmTypeMask ≠ mmTypePage then 0
  else if entry m 3 pde (va / pgSize) &&& apUser = 0 then 0
  else ptePage (entry m 3 pde (va / pgSize))

@[simp] theorem sat_walkaddr {Q : Nat → Mem → Prop} {E : String → Prop} :
    Sat (walkaddr pde va) m Q E ↔ Q (transl m pde va) m := by
  unfold walkaddr transl
  by_cases hva : maxVa ≤ va
  · rw [if_pos hva, if_pos hva, sat_pure]
  · rw [if_neg hva, if_neg hva, sat_bind, sat_walk_false]
    cases hb : bottom m 3 pde (va / pgSize) with
    | none =>
      have hzero : entry m 3 pde (va / pgSize) = 0 := by
        by_contra h
        obtain ⟨t, ht⟩ := bottom_of_entry h
        rw [ht] at hb
        cases hb
      rw [hzero, if_pos (by decide), Option.map_none, sat_pure]
    | some t =>
      rw [Option.map_some]
      simp only [sat_bind, sat_getPte]
      rw [← entry_of_bottom hb]
      generalize entry m 3 pde (va / pgSize) = e
      split
      · rfl
      · split <;> rfl

theorem Space.transl_of_lt (hs : Space m pde l) {k : Nat} (hk : k < l.length) (h : va / pgSize = k) :
    transl m pde va = if l[k] &&& apUser = 0 then 0 else ptePage l[k] := by
  have hkm : k < maxPages := lt_of_lt_of_le hk hs.len
  have hva : ¬ maxVa ≤ va := by
    unfold maxVa
    unfold maxPages at hkm
    unfold pgSize at h
    omega
  rw [transl, if_neg hva, h, hs.entry k hkm, getD_eq_getElem _ _ hk,
    if_neg (not_not.mpr (hs.leaf _ (getElem_mem hk)))]

theorem Space.transl_of_le (hs : Space m pde l) (h : l.length ≤ va / pgSize) : transl m pde va = 0 := by
  unfold transl
  by_cases hva : maxVa ≤ va
  · rw [if_pos hva]
  · have hkm : va / pgSize < maxPages := by
      unfold maxVa at hva
      unfold maxPages pgSize
      omega
    rw [if_neg hva, hs.entry _ hkm, getD_eq_default _ _ h, if_pos (by decide)]

theorem Space.transl_mem (hs : Space m pde l) (h : transl m pde va ≠ 0) : transl m pde va ∈ pages l := by
  by_cases hlt : va / pgSize < l.length
  · rw [hs.transl_of_lt hlt rfl] at h ⊢
    split
    · next h0 => rw [if_pos h0] at h; exact absurd rfl h
    · exact mem_map_of_mem (getElem_mem hlt)
  · exact absurd (hs.transl_of_le (not_lt.mp hlt)) h

/-! ### The copies -/

theorem copyin_spec {len : Nat} {E : String → Prop} : Sat (copyin pde va len) m (fun _ m' => m' = m) E := by
  unfold copyin
  suffices h : ∀ k va len, Sat (copyinLoop pde k va len) m (fun _ m' => m' = m) E from h _ _ _
  intro k
  induction k with
  | zero => intro va len; rfl
  | succ k ih =>
    intro va len
    unfold copyinLoop
    rw [sat_ite]
    refine ⟨fun _ => rfl, fun _ => ?_⟩
    rw [sat_bind, sat_walkaddr, sat_ite]
    refine ⟨fun _ => rfl, fun _ => ?_⟩
    rw [sat_bind, sat_get, sat_bind]
    exact (ih _ _).imp fun _ t ht => ht

theorem copyinstr_spec {max : Nat} {E : String → Prop} : Sat (copyinstr pde va max) m
    (fun r m' => m' = m ∧ ∀ s, r = some s → s.length < max ∧ (0 : UInt8) ∉ s) E := by
  unfold copyinstr
  suffices h : ∀ k va max, Sat (copyinstrLoop pde k va max) m
      (fun r m' => m' = m ∧ ∀ s, r = some s → s.length < max ∧ (0 : UInt8) ∉ s) E from h _ _ _
  intro k
  induction k with
  | zero => intro va max; exact ⟨rfl, fun _ he => nomatch he⟩
  | succ k ih =>
    intro va max
    unfold copyinstrLoop
    rw [sat_ite]
    refine ⟨fun _ => ⟨rfl, fun _ he => nomatch he⟩, fun _ => ?_⟩
    rw [sat_bind, sat_walkaddr, sat_ite]
    refine ⟨fun _ => ⟨rfl, fun _ he => nomatch he⟩, fun _ => ?_⟩
    rw [sat_bind, sat_get]
    dsimp only
    generalize hn : min (pgSize - (va - pgRoundDown va)) max = n
    generalize hbs : (m.ram (transl m pde (pgRoundDown va))).bytes (va - pgRoundDown va) n = bs
    have hlen : bs.length = n := by simp [← hbs, ByteStore.bytes]
    have hle := (takeWhile_sublist (fun b : UInt8 => decide (b ≠ 0)) (l := bs)).length_le
    have hnul : (0 : UInt8) ∉ bs.takeWhile fun b => decide (b ≠ 0) := fun h => by
      simpa using mem_takeWhile_imp h
    rw [sat_ite]
    refine ⟨fun hlt => ⟨rfl, fun s he => ?_⟩, fun hlt => ?_⟩
    · cases he
      exact ⟨by omega, hnul⟩
    · refine (ih _ _).bind fun r t ⟨ht, hs⟩ => ⟨ht, fun s he => ?_⟩
      obtain ⟨s', rfl, rfl⟩ := Option.map_eq_some_iff.mp he
      obtain ⟨hlt', hnul'⟩ := hs s' rfl
      rw [length_append, mem_append]
      exact ⟨by omega, fun h => h.elim hnul hnul'⟩

theorem copyout_spec {src : List UInt8} (hs : Space m pde l) (hp : Pool m (pages l + tables m 3 pde))
    {E : String → Prop} : Sat (copyout pde va src) m (fun _ m' => Written m m' (pages l)) E := by
  unfold copyout
  suffices h : ∀ k va src (t : Mem), Written m t (pages l) →
      Sat (copyoutLoop pde k va src) t (fun _ m' => Written m m' (pages l)) E from
    h _ _ _ m (Written.refl m _)
  intro k
  induction k with
  | zero => intro va src t ht; exact ht
  | succ k ih =>
    intro va src t ht
    obtain ⟨hst, -⟩ := ht.space hs hp
    unfold copyoutLoop
    rw [sat_ite]
    refine ⟨fun _ => ht, fun _ => ?_⟩
    rw [sat_bind, sat_walkaddr, sat_ite]
    refine ⟨fun _ => ht, fun h0 => ?_⟩
    rw [sat_bind, sat_modify]
    exact ih _ _ _ (ht.trans (written_setPage (hst.transl_mem h0)))

/-! ### Leaf mappings -/

/-- The page of a leaf entry, if it is valid. -/
def mapped (e : Nat) : Multiset Nat := if e &&& mmTypeValid = 0 then 0 else {ptePage e}

/-- The pages that the leaf entries of a table map. -/
def leafPages (m : Mem) (pde : Nat) : Multiset Nat := Radix.leafSum next pxEntryCnt m.pte mapped 3 pde

theorem leafPages_eq_sum (m : Mem) (pde : Nat) :
    leafPages m pde = ∑ k ∈ Finset.range maxPages, mapped (entry m 3 pde k) := by
  rw [leafPages, Radix.leafSum_eq, cnt_pow]
  refine Finset.sum_congr rfl fun k _ => ?_
  unfold entry
  cases Radix.look next pxEntryCnt m.pte 3 pde k with
  | none => rfl
  | some e => rfl

theorem sum_getD {N : Nat} {g : Nat → Multiset Nat} (h0 : g 0 = 0) (hl : l.length ≤ N) :
    ∑ k ∈ Finset.range N, g (l.getD k 0) = (l.map g).sum := by
  induction l generalizing N with
  | nil => simp [h0]
  | cons e l ih =>
    obtain ⟨N, rfl⟩ : ∃ N', N = N' + 1 := ⟨N - 1, by simp at hl; omega⟩
    rw [Finset.sum_range_succ', add_comm, map_cons, sum_cons]
    congr 1
    exact ih (by simpa using hl)

theorem sum_pages (l : List Nat) : (l.map fun e => ({ptePage e} : Multiset Nat)).sum = pages l := by
  induction l with
  | nil => rfl
  | cons e l ih => rw [map_cons, sum_cons, ih, pages_cons]

theorem Space.leafPages_eq (hs : Space m pde l) : leafPages m pde = pages l := by
  have hsum : leafPages m pde = ∑ k ∈ Finset.range maxPages, mapped (l.getD k 0) := by
    rw [leafPages_eq_sum]
    exact Finset.sum_congr rfl fun k hk => by rw [hs.entry k (Finset.mem_range.mp hk)]
  have hmap : l.map mapped = l.map fun e => {ptePage e} :=
    map_congr_left fun e he => if_neg (valid_of_page (hs.leaf e he))
  rw [hsum, sum_getD (if_pos (by decide)) hs.len, hmap, sum_pages]

end Xv6Armv8.Vm

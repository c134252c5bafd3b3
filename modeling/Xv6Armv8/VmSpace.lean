
import Mathlib.Data.List.GetD
import Xv6Armv8.VmOwn

/-! Address spaces as lists of leaf entries. The user pages of a process are the pages `0` to `n - 1`
of its table, so a table holds exactly a list: the entry of page number `k` is the `k`-th of the list
and every other entry is zero. `uvmalloc` extends the list, `uvmdealloc` cuts it, `uvmcopy` copies it
and `uvmfree` gives back every page; none of them panics on such a table, and a failed call leaves the
list as it was. -/

namespace Xv6Armv8.Vm

open Spec List Multiset Radix

/-- The number of pages a table can map. -/
@[irreducible] def maxPages : Nat := 2 ^ 36

theorem cnt_pow : pxEntryCnt ^ 4 = maxPages := by
  unfold pxEntryCnt maxPages
  decide

/-- The table at `pde` holds the leaf entries `l`. -/
structure Space (m : Mem) (pde : Nat) (l : List Nat) : Prop where
  inner : Inner m 3 pde
  len : l.length ≤ maxPages
  entry : ∀ k, k < maxPages → entry m 3 pde k = l.getD k 0
  leaf : ∀ e ∈ l, e &&& mmTypeMask = mmTypePage

/-- The pages that a list of entries maps. -/
def pages (l : List Nat) : Multiset Nat := ↑(l.map ptePage)

variable {m m' : Mem} {pde k t e a fl : Nat} {l : List Nat} {F : Multiset Nat}

theorem Space.congr (hs : Space m pde l) (h : ∀ x ∈ tables m 3 pde, m'.ram x = m.ram x) : Space m' pde l where
  inner := inner_congr h hs.inner
  len := hs.len
  entry := fun k hk => (entry_congr h).trans (hs.entry k hk)
  leaf := hs.leaf

@[simp] theorem pages_nil : pages [] = 0 := rfl

@[simp] theorem pages_append (l l' : List Nat) : pages (l ++ l') = pages l + pages l' := by
  simp [pages]

@[simp] theorem pages_singleton (e : Nat) : pages [e] = {ptePage e} := rfl

theorem pages_cons (e : Nat) (l : List Nat) : pages (e :: l) = {ptePage e} + pages l := rfl

/-! ### One entry -/

/-- The leaf entry of page number `k` has become `e`. -/
structure Edit (m m' : Mem) (pde k e : Nat) : Prop where
  tables : tables m' 3 pde = tables m 3 pde
  inner : Inner m 3 pde → Inner m' 3 pde
  entry : ∀ j, j < maxPages → entry m' 3 pde j = if j = k then e else entry m 3 pde j
  missing : ∀ j, missing m' 3 pde j = missing m 3 pde j
  frame : ∀ x, x ∉ Vm.tables m 3 pde → m'.ram x = m.ram x
  free : m'.freelist = m.freelist
  kend : m'.kend = m.kend

theorem edit_setPte (hn : (tables m 3 pde).Nodup) (hk : k < maxPages)
    (hb : bottom m 3 pde k = some t) (he : e < 2 ^ 64) :
    Edit m (m.setPte t (k % pxEntryCnt) e) pde k e := by
  have hpte := pte_setPte m t (k % pxEntryCnt) e he
  obtain ⟨hnodes, hleaf⟩ := upd_leaf (i := k % pxEntryCnt) (e := e) cnt_pos hn hb
  rw [← hpte] at hnodes hleaf
  refine ⟨hnodes, fun hin => ?_, fun j hj => ?_, fun j => ?_, fun x hx => ?_, rfl, rfl⟩
  · have := inner_upd_leaf (i := k % pxEntryCnt) (e := e) cnt_pos hn hb hin
    rwa [← hpte] at this
  · have hlook := look_upd (e := e) cnt_pos (cnt_pow ▸ hk) (cnt_pow ▸ hj) hn hb
      (by rw [← hpte]; exact hleaf j)
    rw [← hpte] at hlook
    rw [Vm.entry, hlook]
    split
    · rfl
    · rfl
  · rw [Vm.missing, hpte]
    exact missing_upd_leaf cnt_pos hn hb
  · exact ram_setPte_of_ne fun h => hx (h ▸ leaf_mem cnt_pos hb)

/-! ### mappages -/

/-- `mappages` of one page: the missing tables are taken from the free list, and the entry is set
unless they run out. -/
structure MapPage (m m' : Mem) (pde k e : Nat) (new : List Nat) (r : Int) : Prop where
  free : m.freelist = new ++ m'.freelist
  tables : tables m' 3 pde = tables m 3 pde + ↑new
  inner : Inner m 3 pde → Inner m' 3 pde
  frame : ∀ x, x ∉ Vm.tables m 3 pde → x ∉ new → m'.ram x = m.ram x
  kend : m'.kend = m.kend
  done : (r = 0 ∧ new.length = missing m 3 pde k ∧
      (∀ j, missing m' 3 pde j = min (missing m 3 pde j) (split pxEntryCnt 3 k j)) ∧
      ∀ j, j < maxPages → entry m' 3 pde j = if j = k then e else entry m 3 pde j) ∨
    (r = -1 ∧ (Inner m 3 pde → m.freelist.length < missing m 3 pde k) ∧
      ∀ j, entry m' 3 pde j = entry m 3 pde j)

theorem mappages_spec (hp : Pool m (tables m 3 pde)) (hk : k < maxPages)
    (hfree : entry m 3 pde k = 0) (hfl : fl < 2 ^ 64) :
    Sat (mappages pde (k * pgSize) a pgSize fl) m
      (fun r m' => ∃ new, MapPage m m' pde k ((a &&& pgAddrMask) ||| fl) new r) fun _ => False := by
  have hdiv : k * pgSize / pgSize = k := Nat.mul_div_cancel k (by decide)
  have hlast : pgRoundDown (u64 (k * pgSize + pgSize + (2 ^ 64 - 1))) = k * pgSize := by
    unfold pgRoundDown u64
    unfold maxPages at hk
    unfold pgSize
    omega
  have hdown : pgRoundDown (k * pgSize) = k * pgSize := by rw [pgRoundDown, hdiv]
  have hcount : u64 (k * pgSize + (2 ^ 64 - k * pgSize)) / pgSize = 0 := by
    unfold u64
    unfold maxPages at hk
    unfold pgSize
    omega
  unfold mappages
  rw [if_neg (by decide)]
  simp only [hlast, hdown, hcount]
  unfold mappagesLoop
  refine (walk_true 3 pde m hp.nodup hp.valid_free).bind fun r m' h => ?_
  rw [hdiv] at h
  obtain ⟨new, hg, hf⟩ := h
  cases r with
  | none => exact ⟨new, hg.free, hg.tables, hg.inner, hg.frame, hg.kend, .inr ⟨rfl, hf, hg.entry⟩⟩
  | some s =>
    obtain ⟨t, i⟩ := s
    obtain ⟨hb, rfl, hlen, hmiss⟩ := hf
    have hpte : m'.pte t (k % pxEntryCnt) = 0 := by
      rw [← entry_of_bottom hb, hg.entry, hfree]
    have hn' : (tables m' 3 pde).Nodup := by
      rw [hg.tables]
      refine nodup_of_le ?_ hp.nodup
      rw [hg.free, ← coe_add]
      exact add_le_add le_rfl (Multiset.le_add_right _ _)
    have hedit := edit_setPte hn' hk hb (entry_lt (a := a) hfl)
    simp only [sat_bind, sat_getPte, hpte, Nat.zero_and, ne_eq, not_true_eq_false, if_false,
      sat_setPte, sat_pure]
    refine ⟨new, ?_, ?_, fun hin => hedit.inner (hg.inner hin), fun x hx hnew => ?_, ?_, ?done⟩
    · rw [hg.free, hedit.free]
    · rw [hedit.tables, hg.tables]
    · have hx' : x ∉ tables m' 3 pde := by
        rw [hg.tables, mem_add, mem_coe]
        exact not_or.mpr ⟨hx, hnew⟩
      rw [hedit.frame x hx', hg.frame x hx hnew]
    · exact hedit.kend.trans hg.kend
    · refine .inl ⟨rfl, hlen, fun j => (hedit.missing j).trans (hmiss j), fun j hj => ?_⟩
      rw [hedit.entry j hj, hg.entry]

theorem MapPage.moves {new : List Nat} {r : Int} (h : MapPage m m' pde k e new r) :
    Moves m m' (Vm.tables m 3 pde) (Vm.tables m' 3 pde) where
  conserve := by rw [h.tables, h.free, ← coe_add, add_assoc]
  frame := fun x hx hf => h.frame x hx fun hn => hf (h.free ▸ mem_append_left _ hn)
  kend := h.kend

/-! ### uvmunmap -/

@[simp] theorem sat_walk_false {n va : Nat} {Q : Option (Nat × Nat) → Mem → Prop} {E : String → Prop} :
    Sat (walk n pde va false) m Q E ↔
      Q ((bottom m n pde (va / pgSize)).map fun t => (t, va / pgSize % pxEntryCnt)) m := by
  unfold Sat
  rw [walk_false]

/-- The entries `r` from page number `lo` on are gone and their pages are free. -/
structure Unmapped (m m' : Mem) (pde lo : Nat) (r : List Nat) : Prop where
  tables : tables m' 3 pde = tables m 3 pde
  inner : Inner m 3 pde → Inner m' 3 pde
  entry : ∀ j, j < maxPages → entry m' 3 pde j = if lo ≤ j ∧ j < lo + r.length then 0 else entry m 3 pde j
  frame : ∀ x, x ∉ Vm.tables m 3 pde → m'.ram x = m.ram x
  free : (↑m'.freelist : Multiset Nat) = ↑m.freelist + pages r
  kend : m'.kend = m.kend

variable {b : ByteStore} {lo n newsz oldsz p : Nat} {r rest : List Nat}

theorem Unmapped.moves (h : Unmapped m m' pde lo r) :
    Moves m m' (Vm.tables m 3 pde + pages r) (Vm.tables m' 3 pde) where
  conserve := by rw [h.tables, h.free, add_assoc, add_comm (pages r)]
  frame := fun x hx _ => h.frame x fun ht => hx (mem_add.mpr (.inl ht))
  kend := h.kend

theorem entry_zero_of_page (he : e &&& mmTypeMask = mmTypePage) : e ≠ 0 := by
  rintro rfl
  exact absurd he (by decide)

theorem unmapped_one (hn : (tables m 3 pde).Nodup) (hlo : lo < maxPages)
    (hb : bottom m 3 pde lo = some t) (hval : ptePage (entry m 3 pde lo) = a) :
    Unmapped m (({ m with freelist := a :: m.freelist } : Mem).setPte t (lo % pxEntryCnt) 0) pde lo
      [entry m 3 pde lo] := by
  generalize hm₁ : ({ m with freelist := a :: m.freelist } : Mem) = m₁
  have hram : ∀ x, m₁.ram x = m.ram x := fun x => by rw [← hm₁]
  have ht₁ : tables m₁ 3 pde = tables m 3 pde := tables_congr fun x _ => hram x
  have hn₁ : (tables m₁ 3 pde).Nodup := by rwa [ht₁]
  have hb₁ : bottom m₁ 3 pde lo = some t := (bottom_congr fun x _ => hram x).trans hb
  have hedit := edit_setPte hn₁ hlo hb₁ (by decide : 0 < 2 ^ 64)
  refine ⟨hedit.tables.trans ht₁, fun hin => hedit.inner (inner_congr (fun x _ => hram x) hin),
    fun j hj => ?_, fun x hx => ?_, ?_, hedit.kend.trans (by rw [← hm₁])⟩
  · rw [hedit.entry j hj, entry_congr fun x _ => hram x, length_singleton]
    by_cases hj0 : j = lo
    · rw [if_pos hj0, if_pos (by omega)]
    · rw [if_neg hj0, if_neg (by omega)]
  · rw [hedit.frame x (by rwa [ht₁]), hram]
  · rw [hedit.free, ← hm₁, pages_singleton, hval, ← cons_coe, ← singleton_add, add_comm]

theorem Unmapped.cons {m₁ : Mem} (h : Unmapped m m₁ pde lo [e])
    (h' : Unmapped m₁ m' pde (lo + 1) r) : Unmapped m m' pde lo (e :: r) where
  tables := h'.tables.trans h.tables
  inner := fun hin => h'.inner (h.inner hin)
  entry := fun j hj => by
    rw [h'.entry j hj, h.entry j hj, length_singleton, length_cons]
    by_cases hj0 : lo ≤ j ∧ j < lo + 1
    · rw [if_neg (by omega), if_pos hj0, if_pos (by omega)]
    · rw [if_neg hj0]
      by_cases hin : lo + 1 ≤ j ∧ j < lo + 1 + r.length
      · rw [if_pos hin, if_pos (by omega)]
      · rw [if_neg hin, if_neg (by omega)]
  frame := fun x hx => by rw [h'.frame x (by rwa [h.tables]), h.frame x hx]
  free := by rw [h'.free, h.free, pages_singleton, pages_cons, add_assoc]
  kend := h'.kend.trans h.kend

theorem uvmunmapLoop_spec (pde : Nat) (r : List Nat) : ∀ (lo : Nat) (m : Mem),
    Pool m (tables m 3 pde + pages r) → lo + r.length ≤ maxPages →
    (∀ i, i < r.length → entry m 3 pde (lo + i) = r.getD i 0) →
    (∀ e ∈ r, e &&& mmTypeMask = mmTypePage) →
    Sat (uvmunmapLoop pde true r.length (lo * pgSize)) m (fun _ m' => Unmapped m m' pde lo r)
      fun _ => False := by
  induction r with
  | nil =>
    intro lo m _ _ _ _
    refine ⟨rfl, id, fun j _ => ?_, fun _ _ => rfl, by simp, rfl⟩
    rw [if_neg (by simp only [length_nil]; omega)]
  | cons e r ih =>
    intro lo m hp hlen hentry hpage
    have he := hpage e List.mem_cons_self
    have hlo : entry m 3 pde lo = e := by simpa using hentry 0 (by simp)
    rw [length_cons] at hlen
    obtain ⟨t, hb⟩ := bottom_of_entry (hlo ▸ entry_zero_of_page he)
    have hpte : m.pte t (lo % pxEntryCnt) = e := by rw [← entry_of_bottom hb, hlo]
    have hdiv : lo * pgSize / pgSize = lo := Nat.mul_div_cancel lo (by decide)
    have hval : ValidPage (ptePage e) := hp.valid_used (by
      rw [pages_cons]
      simp)
    have hone := unmapped_one (Multiset.nodup_add.mp (Multiset.nodup_add.mp hp.nodup).1).1
      (by omega) hb (congrArg ptePage hlo)
    rw [hlo] at hone
    rw [length_cons]
    unfold uvmunmapLoop
    rw [sat_bind, sat_walk_false, hdiv, hb]
    simp only [Option.map_some, sat_bind, sat_getPte, hpte, he, valid_of_page he, ne_eq,
      not_true_eq_false, if_false, if_true]
    rw [← ptePage, sat_kfree hval hp.hi hp.lo]
    simp only [sat_setPte]
    generalize ({ m with freelist := ptePage e :: m.freelist } : Mem).setPte t (lo % pxEntryCnt) 0
      = m₁ at hone ⊢
    rw [show lo * pgSize + pgSize = (lo + 1) * pgSize by rw [Nat.add_mul, Nat.one_mul]]
    refine (ih (lo + 1) m₁ ?_ (by omega) (fun i hi => ?_) fun x hx =>
      hpage x (List.mem_cons_of_mem _ hx)).imp fun _ m' h => hone.cons h
    · refine (hp.congr ?_).moves hone.moves
      rw [pages_cons, pages_singleton, add_assoc]
    · rw [hone.entry _ (by omega), if_neg (by rw [length_singleton]; omega), Nat.add_assoc,
        Nat.add_comm 1 i, hentry (i + 1) (by simpa using hi)]
      rfl

theorem uvmunmap_spec (hp : Pool m (tables m 3 pde + pages r)) (hlen : lo + r.length ≤ maxPages)
    (hentry : ∀ i, i < r.length → entry m 3 pde (lo + i) = r.getD i 0)
    (hpage : ∀ e ∈ r, e &&& mmTypeMask = mmTypePage) :
    Sat (uvmunmap pde (lo * pgSize) r.length true) m (fun _ m' => Unmapped m m' pde lo r) fun _ => False := by
  have hcount : (u64 (lo * pgSize + u64 (r.length * pgSize)) - lo * pgSize) / pgSize = r.length := by
    unfold u64
    unfold maxPages at hlen
    unfold pgSize
    omega
  unfold uvmunmap
  rw [if_neg (by simp), hcount]
  exact uvmunmapLoop_spec pde r lo m hp hlen hentry hpage

theorem getD_append_left {l : List Nat} {i : Nat} (hi : i < l.length) : (l ++ r).getD i 0 = l.getD i 0 := by
  rw [getD_eq_getElem?_getD, getD_eq_getElem?_getD, List.getElem?_append_left hi]

theorem getD_append_right {l : List Nat} {i : Nat} (hi : l.length ≤ i) :
    (l ++ r).getD i 0 = r.getD (i - l.length) 0 := by
  rw [getD_eq_getElem?_getD, getD_eq_getElem?_getD, List.getElem?_append_right hi]

theorem Unmapped.space (h : Unmapped m m' pde l.length r) (hs : Space m pde (l ++ r)) : Space m' pde l where
  inner := h.inner hs.inner
  len := by
    have := hs.len
    rw [length_append] at this
    omega
  entry := fun j hj => by
    rw [h.entry j hj, hs.entry j hj]
    split
    · next hin => rw [getD_eq_default _ _ hin.1]
    · next hin =>
        by_cases hlt : j < l.length
        · exact getD_append_left hlt
        · rw [getD_append_right (by omega), getD_eq_default _ _ (by omega : r.length ≤ j - l.length),
            getD_eq_default _ _ (by omega : l.length ≤ j)]
  leaf := fun e he => hs.leaf e (mem_append_left _ he)

theorem unmap_suffix (hs : Space m pde (l ++ r)) (hp : Pool m (tables m 3 pde + pages r)) :
    Sat (uvmunmap pde (l.length * pgSize) r.length true) m
      (fun _ m' => Space m' pde l ∧ Unmapped m m' pde l.length r) fun _ => False := by
  have hlen := hs.len
  rw [length_append] at hlen
  refine (uvmunmap_spec hp hlen (fun i hi => ?_) fun e he =>
    hs.leaf e (mem_append_right _ he)).imp fun _ m' h => ⟨h.space hs, h⟩
  rw [hs.entry _ (by omega), getD_append_right (by omega), Nat.add_sub_cancel_left]

/-! ### uvmdealloc -/

theorem sat_uvmdealloc_le {Q : Nat → Mem → Prop} {E : String → Prop}
    (h : oldsz ≤ newsz) : Sat (uvmdealloc pde oldsz newsz) m Q E ↔ Q oldsz m := by
  unfold uvmdealloc
  rw [if_pos h]
  exact Iff.rfl

theorem viaInt_of_lt (h : n < 2 ^ 31) : viaInt n = n := by
  unfold viaInt
  rw [if_pos (by omega)]
  omega

theorem uvmdealloc_spec (hs : Space m pde (l ++ r))
    (hp : Pool m (tables m 3 pde + pages r)) (hlt : newsz < oldsz)
    (hold : pgRoundUp oldsz = (l.length + r.length) * pgSize)
    (hnew : pgRoundUp newsz = l.length * pgSize) :
    Sat (uvmdealloc pde oldsz newsz) m
      (fun x m' => x = newsz ∧ Space m' pde l ∧ Unmapped m m' pde l.length r) fun _ => False := by
  have hr : r.length < 2 ^ 31 := by
    have h := hp.card_le
    have hcard : (pages r).card = r.length := by simp [pages]
    rw [card_add, hcard] at h
    omega
  have hcount : (pgRoundUp oldsz - pgRoundUp newsz) / pgSize = r.length := by
    rw [hold, hnew, ← Nat.sub_mul, Nat.add_sub_cancel_left, Nat.mul_div_cancel _ (by decide)]
  unfold uvmdealloc
  rw [if_neg (by omega)]
  dsimp only
  rw [sat_ite]
  refine ⟨fun _ => ?_, fun hge => ?_⟩
  · rw [hcount, viaInt_of_lt hr, hnew, sat_bind]
    exact (unmap_suffix hs hp).imp fun _ m' h => ⟨rfl, h.1, h.2⟩
  · have hnil : r = [] := by
      rw [hold, hnew] at hge
      refine eq_nil_of_length_eq_zero ?_
      unfold pgSize at hge
      omega
    subst hnil
    rw [append_nil] at hs
    exact ⟨rfl, hs, rfl, id, fun j _ => (if_neg (by simp only [length_nil]; omega)).symm,
      fun _ _ => rfl, by simp, rfl⟩

/-! ### uvmalloc -/

theorem Space.extend (hs : Space m pde l) (hlen : l.length < maxPages)
    (he : e &&& mmTypeMask = mmTypePage) (hin : Inner m' 3 pde)
    (hentry : ∀ j, j < maxPages → Vm.entry m' 3 pde j =
      if j = l.length then e else Vm.entry m 3 pde j) : Space m' pde (l ++ [e]) where
  inner := hin
  len := by
    rw [length_append, length_singleton]
    exact hlen
  entry := fun j hj => by
    rw [hentry j hj]
    rcases Nat.lt_trichotomy j l.length with hlt | rfl | hgt
    · rw [if_neg (Nat.ne_of_lt hlt), hs.entry j hj, getD_append_left hlt]
    · rw [if_pos rfl, getD_append_right le_rfl, Nat.sub_self]
      rfl
    · rw [if_neg (Nat.ne_of_gt hgt), hs.entry j hj, getD_eq_default _ _ hgt.le,
        getD_eq_default _ _ (by rw [length_append, length_singleton]; omega)]
  leaf := fun x hx => by
    rcases mem_append.mp hx with h | h
    · exact hs.leaf x h
    · rwa [List.mem_singleton.mp h]

theorem Space.same (hs : Space m pde l) (hin : Inner m' 3 pde)
    (hentry : ∀ j, Vm.entry m' 3 pde j = Vm.entry m 3 pde j) : Space m' pde l where
  inner := hin
  len := hs.len
  entry := fun j hj => (hentry j).trans (hs.entry j hj)
  leaf := hs.leaf

/-- The entries `uvmalloc` makes with the flags `fl`. -/
def Fresh (fl : Nat) (l : List Nat) : Prop :=
  ∀ e ∈ l, ∃ a, ValidPage a ∧ e = (a &&& pgAddrMask) ||| fl

/-! How many table pages a table with the pages `0` to `n - 1` lacks for page number `k`, and what
a page costs. -/

def lack (n k : Nat) : Nat :=
  if k / 512 * 512 < n then 0
  else if k / 512 ^ 2 * 512 ^ 2 < n then 1
  else if k / 512 ^ 3 * 512 ^ 3 < n then 2
  else 3

/-- The pages to add for page number `k` after the pages before it: itself and the tables that start
with it. -/
def cost (k : Nat) : Nat := 1 + lack k k

/-- The pages to add to grow an address space from `n` pages to `n'`. -/
def need (n n' : Nat) : Nat := ∑ k ∈ Finset.Ico n n', cost k

/-- The table has no pages but those its `n` pages need. -/
def Tight (m : Mem) (pde n : Nat) : Prop := ∀ k, k < maxPages → missing m 3 pde k = lack n k

theorem split_three (n k : Nat) : split pxEntryCnt 3 n k = if n / 512 ^ 3 % 512 = k / 512 ^ 3 % 512 then
      if n / 512 ^ 2 % 512 = k / 512 ^ 2 % 512 then
        if n / 512 % 512 = k / 512 % 512 then 0 else 1
      else 2
    else 3 := by
  unfold pxEntryCnt
  simp only [split, digit, Nat.reduceAdd, pow_one]

theorem lack_succ {k : Nat} (hn : n < maxPages) (hk : k < maxPages) :
    lack (n + 1) k = min (lack n k) (split pxEntryCnt 3 n k) := by
  unfold maxPages at hn hk
  rw [split_three]
  unfold lack
  have e1 : n / 512 ^ 2 = n / 512 / 512 := by omega
  have e2 : n / 512 ^ 3 = n / 512 / 512 / 512 := by omega
  have e3 : k / 512 ^ 2 = k / 512 / 512 := by omega
  have e4 : k / 512 ^ 3 = k / 512 / 512 / 512 := by omega
  split_ifs <;> omega

theorem need_succ {n' : Nat} (h : n ≤ n') : need n (n' + 1) = need n n' + cost n' :=
  Finset.sum_Ico_succ_top h cost

theorem need_mono {n' n'' : Nat} (h : n' ≤ n'') : need n n' ≤ need n n'' :=
  Finset.sum_le_sum_of_subset (Finset.Ico_subset_Ico_right h)

/-- The number of pages of a size. -/
def pgCount (size : Nat) : Nat := (size + pgSize - 1) / pgSize

theorem pgCount_lt (h : n * pgSize < newsz) : n + 1 ≤ pgCount newsz := by
  unfold pgCount
  unfold pgSize at *
  omega

/-- The outcome of `uvmalloc` on an address space `l`: it has the entries `l'` more, for zeroed pages, or it is as
before and 0 is returned because the pages ran out. -/
inductive Extended (m m' : Mem) (pde fl newsz : Nat) (l : List Nat) : Nat → Prop
  | ok (l' : List Nat) : Space m' pde (l ++ l') → Fresh fl l' → (∀ e ∈ l', m'.ram (ptePage e) = fun _ => 0) →
      (l ++ l').length = pgCount newsz →
      Moves m m' (tables m 3 pde) (tables m' 3 pde + pages l') →
      (Tight m pde l.length → Tight m' pde (pgCount newsz) ∧
        m'.freelist.length + need l.length (pgCount newsz) = m.freelist.length) →
      Extended m m' pde fl newsz l newsz
  | full : Space m' pde l → Moves m m' (tables m 3 pde) (tables m' 3 pde) →
      (Tight m pde l.length → m.freelist.length < need l.length (pgCount newsz)) →
      Extended m m' pde fl newsz l 0

theorem pgRoundUp_mul (hn : n ≤ maxPages) : pgRoundUp (n * pgSize) = n * pgSize := by
  unfold pgRoundUp u64
  unfold maxPages at hn
  unfold pgSize
  omega

theorem undo_spec {l' : List Nat} (hs : Space m pde (l ++ l')) (hp : Pool m (tables m 3 pde + pages l')) :
    Sat (uvmdealloc pde ((l ++ l').length * pgSize) (l.length * pgSize)) m
      (fun _ m' => Space m' pde l ∧ Moves m m' (tables m 3 pde + pages l') (tables m' 3 pde))
      fun _ => False := by
  have hlen := hs.len
  by_cases hnil : l' = []
  · subst hnil
    rw [append_nil] at hs ⊢
    rw [sat_uvmdealloc_le le_rfl]
    exact ⟨hs, (Moves.refl m _).congr (by simp) rfl⟩
  · have hpos := length_pos_iff.mpr hnil
    rw [length_append] at hlen ⊢
    refine (uvmdealloc_spec hs hp ?_ (pgRoundUp_mul hlen) (pgRoundUp_mul (by omega))).imp
      fun _ m' h => ⟨h.2.1, h.2.2.moves⟩
    unfold pgSize
    omega

theorem card_pages (l : List Nat) : (pages l).card = l.length := by simp [pages]

theorem taken_moves (hf : m.freelist = p :: rest)
    (A : Multiset Nat) : Moves m ((m.taken p rest).setPage p b) A (A + {p}) where
  conserve := by
    show A + {p} + ↑rest = A + ↑m.freelist
    rw [hf, ← cons_coe, ← singleton_add, add_assoc]
  frame := fun x _ hx => by
    have hxp : x ≠ p := fun h => hx (by rw [hf, h]; exact List.mem_cons_self)
    simp [Mem.taken, Mem.setPage, hxp]
  kend := rfl

theorem kalloc_moves (hf : m.freelist = p :: rest) (A : Multiset Nat) :
    Moves m (m.taken p rest) A (A + {p}) := by
  have h := taken_moves (b := fun _ => 5) hf A
  rwa [Mem.taken, Mem.setPage, Mem.setPage, Function.update_idem] at h

theorem taken_ram {x : Nat} (hx : x ≠ p) : ((m.taken p rest).setPage p b).ram x = m.ram x := by
  simp [Mem.taken, Mem.setPage, hx]

theorem freed_moves (p : Nat) (A : Multiset Nat) :
    Moves m { m with freelist := p :: m.freelist } (A + {p}) A where
  conserve := by
    show A + ↑(p :: m.freelist) = A + {p} + ↑m.freelist
    rw [← cons_coe, ← singleton_add, add_assoc]
  frame := fun _ _ _ => rfl
  kend := rfl

/-- A page taken from the free list and mapped after the pages `l`: the page `p` is in use in any case,
and either the list has the entry `e` more or the tables for it ran out. -/
structure NextPage (m m' : Mem) (pde p e : Nat) (b : ByteStore) (l : List Nat) (r : Int) : Prop where
  moves : Moves m m' (tables m 3 pde) (tables m' 3 pde + {p})
  page : m'.ram p = b
  less : m'.freelist.length < m.freelist.length
  done : (r = 0 ∧ Space m' pde (l ++ [e]) ∧ (Tight m pde l.length →
      Tight m' pde (l.length + 1) ∧ m'.freelist.length + cost l.length = m.freelist.length)) ∨
    (r = -1 ∧ Space m' pde l ∧ (Tight m pde l.length → m.freelist.length < cost l.length))

theorem mapNext_spec (hs : Space m pde l)
    (hp : Pool m (tables m 3 pde)) (hlen : l.length < maxPages) (hfl : IsFlags fl)
    (hcons : m.freelist = p :: rest) :
    Sat (mappages pde (l.length * pgSize) a pgSize fl) ((m.taken p rest).setPage p b)
      (fun r m' => NextPage m m' pde p ((a &&& pgAddrMask) ||| fl) b l r) fun _ => False := by
  have hpt : p ∉ tables m 3 pde := fun hmem =>
    hp.not_free hmem (by rw [hcons]; exact List.mem_cons_self)
  have htake := taken_moves (b := b) hcons (tables m 3 pde)
  have hram : ∀ x ∈ tables m 3 pde, ((m.taken p rest).setPage p b).ram x = m.ram x := fun x hx =>
    taken_ram fun h => hpt (h ▸ hx)
  have hfree : ((m.taken p rest).setPage p b).freelist = rest := rfl
  have hpage : ((m.taken p rest).setPage p b).ram p = b := Function.update_self ..
  have hrest : p ∉ rest := by
    have hnd := (Multiset.nodup_add.mp hp.nodup).2.1
    rw [hcons, coe_nodup] at hnd
    exact (List.nodup_cons.mp hnd).1
  generalize (m.taken p rest).setPage p b = m₁ at htake hram hfree hpage ⊢
  have ht₁ : tables m₁ 3 pde = tables m 3 pde := tables_congr hram
  have hs₁ : Space m₁ pde l := hs.congr hram
  have hp₁ : Pool m₁ (tables m₁ 3 pde) := by
    rw [ht₁]
    exact (hp.of_conserve htake.conserve htake.kend).mono (Multiset.le_add_right _ _)
  have hmiss₁ : ∀ j, missing m₁ 3 pde j = missing m 3 pde j := fun j => missing_congr hram
  have hzero : entry m₁ 3 pde l.length = 0 := by
    rw [hs₁.entry _ hlen, getD_eq_default _ _ le_rfl]
  refine (mappages_spec hp₁ hlen hzero hfl.lt).imp fun r m₂ h => ?_
  obtain ⟨new, hmap⟩ := h
  have hlen₂ : rest.length = new.length + m₂.freelist.length := by
    rw [← hfree, hmap.free, length_append]
  have hlen₁ : m.freelist.length = rest.length + 1 := by rw [hcons, length_cons]
  refine ⟨?_, ?_, by omega, ?_⟩
  · exact htake.trans ((hmap.moves.add {p}).congr (by rw [ht₁]) rfl)
  · rw [hmap.moves.frame p (by rwa [ht₁]) (by rwa [hfree]), hpage]
  · rcases hmap.done with ⟨rfl, hnew, hmiss, hent⟩ | ⟨rfl, hout, hent⟩
    · refine .inl ⟨rfl, hs₁.extend hlen (by rw [type_or, hfl.page]) (hmap.inner hs₁.inner) hent,
        fun ht => ⟨fun j hj => ?_, ?_⟩⟩
      · rw [hmiss j, hmiss₁, ht j hj, lack_succ hlen hj]
      · rw [hmiss₁, ht _ hlen] at hnew
        unfold cost
        omega
    · refine .inr ⟨rfl, hs₁.same (hmap.inner hs₁.inner) hent, fun ht => ?_⟩
      have hout' := hout hs₁.inner
      rw [hmiss₁, ht _ hlen, hfree] at hout'
      unfold cost
      omega

theorem Pool.length_lt (hp : Pool m (tables m 3 pde + pages l)) : l.length < maxPages := by
  have h := hp.card_le
  rw [card_add, card_pages] at h
  unfold maxPages
  omega

theorem freed_space (hs : Space m pde l) : Space { m with freelist := p :: m.freelist } pde l ∧
      tables { m with freelist := p :: m.freelist } 3 pde = tables m 3 pde :=
  ⟨hs.congr fun _ _ => rfl, tables_congr fun _ _ => rfl⟩

theorem uvmallocLoop_spec (hfl : IsFlags fl) (hnew : newsz < 2 ^ 64) {m₀ : Mem}
    (n : Nat) : ∀ (l' : List Nat) (m : Mem), m.freelist.length < n →
    Space m pde (l ++ l') → Fresh fl l' → (∀ e ∈ l', m.ram (ptePage e) = fun _ => 0) →
    Pool m (tables m 3 pde + pages (l ++ l')) →
    Moves m₀ m (tables m₀ 3 pde) (tables m 3 pde + pages l') →
    (Tight m₀ pde l.length → Tight m pde (l ++ l').length ∧
      m.freelist.length + need l.length (l ++ l').length = m₀.freelist.length) →
    ((l ++ l').length = pgCount newsz ∨ (l ++ l').length * pgSize < newsz) →
    Sat (uvmallocLoop pde (l.length * pgSize) newsz fl n ((l ++ l').length * pgSize)) m
      (fun r m' => Extended m₀ m' pde fl newsz l r) fun _ => False := by
  induction n with
  | zero => intro l' m hf; exact absurd hf (Nat.not_lt_zero _)
  | succ n ih =>
    intro l' m hf hs hfresh hzero hp hmoves htight hsize
    have hsub : Pool m (tables m 3 pde + pages l') :=
      hp.mono (add_le_add le_rfl (by rw [pages_append]; exact Multiset.le_add_left _ _))
    have hk : (l ++ l').length < maxPages := hp.length_lt
    -- what the next page costs is more than a failed call had left
    have hstep : need l.length ((l ++ l').length + 1) = _ := need_succ (by simp)
    unfold uvmallocLoop
    rw [sat_ite]
    refine ⟨fun hlt => ?_, fun hge => ?_⟩
    · have hle := need_mono (n := l.length) (pgCount_lt hlt)
      rw [sat_bind, sat_kalloc]
      refine ⟨fun hnil => ?_, fun p rest hcons => ?_⟩
      · refine (undo_spec hs hsub).bind fun _ m' h => ?_
        refine Extended.full h.1 (hmoves.trans h.2) fun ht => ?_
        have hfree := (htight ht).2
        rw [hnil, length_nil] at hfree
        unfold cost at hstep
        omega
      · simp only [sat_bind, sat_memset]
        have hval : ValidPage p := hp.valid_free p (by rw [hcons]; exact List.mem_cons_self)
        refine (mapNext_spec hs (hp.mono (Multiset.le_add_right _ _)) hk hfl hcons).imp fun r m₁ h => ?_
        have hmv : Moves m₀ m₁ (tables m₀ 3 pde) (tables m₁ 3 pde + {p} + pages l') :=
          hmoves.trans (h.moves.add _)
        have hp₁ : Pool m₁ (tables m₁ 3 pde + {p} + pages (l ++ l')) := hp.moves h.moves
        rcases h.done with ⟨rfl, hs₁, ht₁⟩ | ⟨rfl, hs₁, hout⟩
        · have hpages : pages (l' ++ [(p &&& pgAddrMask) ||| fl]) = pages l' + {p} := by
            rw [pages_append, pages_singleton, ptePage_or hval hfl.addr]
          have hlen' : (l ++ (l' ++ [(p &&& pgAddrMask) ||| fl])).length = (l ++ l').length + 1 := by
            simp only [length_append, length_singleton, Nat.add_assoc]
          have haddr : u64 ((l ++ l').length * pgSize + pgSize) =
              (l ++ (l' ++ [(p &&& pgAddrMask) ||| fl])).length * pgSize := by
            rw [hlen']
            unfold maxPages at hk
            unfold u64 pgSize
            omega
          rw [if_neg (by simp), haddr]
          refine ih _ m₁ ?_ ?_ ?_ ?_ ?_ ?_ (fun ht => ?_) ?_
          · have := h.less
            omega
          · rwa [← append_assoc]
          · intro e he
            rcases mem_append.mp he with h | h
            · exact hfresh e h
            · exact ⟨p, hval, List.mem_singleton.mp h⟩
          · intro e he
            rcases mem_append.mp he with he | he
            · rw [h.moves.keeps hsub (List.mem_map_of_mem he), hzero e he]
            · rw [List.mem_singleton.mp he, ptePage_or hval hfl.addr, h.page]
          · refine hp₁.congr ?_
            rw [pages_append, pages_append, hpages]
            abel
          · exact hmv.congr rfl (by rw [hpages]; abel)
          · obtain ⟨ht₀, hfree⟩ := htight ht
            obtain ⟨ht', hfree'⟩ := ht₁ ht₀
            rw [hlen', hstep]
            exact ⟨ht', by omega⟩
          · rw [hlen']
            unfold pgCount
            unfold pgSize at hlt ⊢
            omega
        · rw [if_pos (by decide), sat_bind, sat_kfree hval hp₁.hi hp₁.lo, sat_bind]
          obtain ⟨hs₂, ht₂⟩ := freed_space (p := p) hs₁
          have hfreed := freed_moves (m := m₁) p (tables m₁ 3 pde)
          generalize ({ m₁ with freelist := p :: m₁.freelist } : Mem) = m₂ at hs₂ ht₂ hfreed ⊢
          have hp₂ : Pool m₂ (tables m₂ 3 pde + pages (l ++ l')) := by
            rw [ht₂]
            exact hp₁.moves hfreed
          refine (undo_spec hs₂ (hp₂.mono ?_)).imp fun _ m' h' => ?_
          · rw [pages_append]
            exact add_le_add le_rfl (Multiset.le_add_left _ _)
          have hmv₂ := (hmv.trans (hfreed.add (pages l'))).congr rfl (by rw [← ht₂])
          refine Extended.full h'.1 (hmv₂.trans h'.2) fun ht => ?_
          obtain ⟨ht₀, hfree⟩ := htight ht
          have hout' := hout ht₀
          omega
    · have hlen := hsize.resolve_right hge
      rw [hlen] at htight
      exact Extended.ok l' hs hfresh hzero hlen hmoves htight

theorem uvmalloc_spec (hs : Space m pde l) (hp : Pool m (tables m 3 pde + pages l)) (hfl : IsFlags fl)
    (hold : pgRoundUp oldsz = l.length * pgSize) (hle : oldsz ≤ newsz) (hnew : newsz < 2 ^ 64) :
    Sat (uvmalloc pde oldsz newsz fl) m (fun r m' => Extended m m' pde fl newsz l r) fun _ => False := by
  unfold uvmalloc
  rw [if_neg (by omega), sat_bind, sat_get, hold]
  have h := uvmallocLoop_spec (l := l) hfl hnew (m.freelist.length + 1) [] m (Nat.lt_succ_self _)
    (by rwa [append_nil]) (by simp [Fresh]) (by simp) (by rwa [append_nil])
    ((Moves.refl m _).congr rfl (by simp)) (fun ht => by
      rw [append_nil]
      exact ⟨ht, by simp [need]⟩) ?_
  · rwa [append_nil] at h
  · rw [append_nil]
    unfold pgCount
    unfold pgRoundUp u64 at hold
    unfold pgSize at *
    omega

theorem sat_uvmalloc_lt {Q : Nat → Mem → Prop} {E : String → Prop}
    (h : newsz < oldsz) : Sat (uvmalloc pde oldsz newsz fl) m Q E ↔ Q oldsz m := by
  unfold uvmalloc
  rw [if_pos h]
  exact Iff.rfl

/-! ### uvmclear -/

theorem ptePage_clear (e : Nat) :
    ptePage ((e &&& ((2 ^ 64 - 1) ^^^ mask4kPage)) ||| kernel4kPage) = ptePage e := by
  have h : ((e &&& ((2 ^ 64 - 1) ^^^ mask4kPage)) ||| kernel4kPage) &&& pgAddrMask = e &&& pgAddrMask := by
    rw [Nat.and_or_distrib_right, Nat.and_assoc,
      show ((2 ^ 64 - 1) ^^^ mask4kPage) &&& pgAddrMask = pgAddrMask by decide,
      show kernel4kPage &&& pgAddrMask = 0 by decide, Nat.or_zero]
  rw [ptePage, h, ptePage]

theorem type_clear (e : Nat) :
    ((e &&& ((2 ^ 64 - 1) ^^^ mask4kPage)) ||| kernel4kPage) &&& mmTypeMask = mmTypePage := by
  rw [Nat.and_or_distrib_right, Nat.and_assoc,
    show ((2 ^ 64 - 1) ^^^ mask4kPage) &&& mmTypeMask = 0 by decide, Nat.and_zero, Nat.zero_or]
  decide

theorem uvmclear_spec (hs : Space m pde l) (hp : Pool m (tables m 3 pde)) (hk : k < l.length) :
    Sat (uvmclear pde (k * pgSize)) m (fun _ m' => ∃ l', Space m' pde l' ∧ l'.length = l.length ∧
        pages l' = pages l ∧ tables m' 3 pde = tables m 3 pde ∧ m'.freelist = m.freelist ∧
        (∀ j, j ≠ k → l'.getD j 0 = l.getD j 0) ∧ l'.getD k 0 &&& apUser = 0 ∧
        Moves m m' (tables m 3 pde) (tables m' 3 pde)) fun _ => False := by
  have hdiv : k * pgSize / pgSize = k := Nat.mul_div_cancel k (by decide)
  have hkm : k < maxPages := lt_of_lt_of_le hk hs.len
  have hget : l.getD k 0 = l[k] := getD_eq_getElem _ _ hk
  have hentry : entry m 3 pde k = l[k] := by rw [hs.entry k hkm, hget]
  have hpage : l[k] &&& mmTypeMask = mmTypePage := hs.leaf _ (getElem_mem hk)
  obtain ⟨t, hb⟩ := bottom_of_entry (hentry ▸ entry_zero_of_page hpage)
  have hpte : m.pte t (k % pxEntryCnt) = l[k] := by rw [← entry_of_bottom hb, hentry]
  unfold uvmclear
  rw [sat_bind, sat_walk_false, hdiv, hb]
  simp only [Option.map_some, sat_bind, sat_getPte, hpte, sat_setPte]
  have hnodup := (Multiset.nodup_add.mp hp.nodup).1
  have he64 : (l[k] &&& ((2 ^ 64 - 1) ^^^ mask4kPage)) ||| kernel4kPage < 2 ^ 64 :=
    Nat.or_lt_two_pow (Nat.lt_of_le_of_lt Nat.and_le_right (by decide)) (by decide)
  have hedit := edit_setPte hnodup hkm hb he64
  generalize m.setPte t (k % pxEntryCnt) _ = m' at hedit ⊢
  refine ⟨l.set k ((l[k] &&& ((2 ^ 64 - 1) ^^^ mask4kPage)) ||| kernel4kPage), ?_, by simp, ?_,
    hedit.tables, hedit.free, fun j hj => ?_, ?_, ?_⟩
  · refine ⟨hedit.inner hs.inner, by rw [length_set]; exact hs.len, fun j hj => ?_, fun e he => ?_⟩
    · rw [hedit.entry j hj, hs.entry j hj]
      by_cases hjk : j = k
      · subst hjk
        rw [if_pos rfl, getD_eq_getElem _ _ (by rwa [length_set]), getElem_set_self]
      · rw [if_neg hjk, getD_eq_getElem?_getD, getD_eq_getElem?_getD, List.getElem?_set_ne (Ne.symm hjk)]
    · rcases mem_or_eq_of_mem_set he with h | h
      · exact hs.leaf e h
      · rw [h]
        exact type_clear _
  · rw [pages, map_set, ptePage_clear, ← getElem_map ptePage (h := by simpa using hk), set_getElem_self]
    rfl
  · rw [getD_eq_getElem?_getD, getD_eq_getElem?_getD, List.getElem?_set_ne (Ne.symm hj)]
  · rw [getD_eq_getElem _ _ (by rwa [length_set]), getElem_set_self, Nat.and_or_distrib_right,
      Nat.and_assoc, show ((2 ^ 64 - 1) ^^^ mask4kPage) &&& apUser = 0 by decide, Nat.and_zero, Nat.zero_or]
    decide
  · exact ⟨by rw [hedit.tables, hedit.free], fun x hx _ => hedit.frame x hx, hedit.kend⟩

end Xv6Armv8.Vm

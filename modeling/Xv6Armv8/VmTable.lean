import Xv6Armv8.LibRadix
import Xv6Armv8.VmModel

/-! User page tables as radix trees. An entry of type table leads to the page whose address it holds,
so a table is a tree of pages with 512 entries each and the key of an address is its page number. The
result is what `walk` does: without `alloc` it finds the bottom page of the key, with `alloc` it adds
the missing pages, all taken from the front of the free list, and changes no translation. -/

namespace Xv6Armv8.Vm

open Spec Function List Multiset Option Radix

/-! ### Entries -/

/-- A page that `kinit` may hand to the allocator. -/
structure ValidPage (a : Nat) : Prop where
  aligned : a % pgSize = 0
  lo : kernBase + phyBase ≤ a
  hi : a < kernBase + phyStop

/-- The page whose address an entry holds. -/
def ptePage (e : Nat) : Nat := p2v (e &&& pgAddrMask)

/-- Bits of an entry that leave its address alone and make it a table or a page. -/
structure IsFlags (fl : Nat) : Prop where
  lt : fl < 2 ^ 64
  addr : fl &&& pgAddrMask = 0
  page : fl &&& mmTypeMask = mmTypePage

theorem and_typeMask (e : Nat) : e &&& mmTypeMask = e % 4 := Nat.and_two_pow_sub_one_eq_mod e 2

theorem and_typeValid (e : Nat) : e &&& mmTypeValid = e % 2 := Nat.and_one_is_mod e

variable {a e fl x : Nat}

theorem valid_of_page (h : e &&& mmTypeMask = mmTypePage) : e &&& mmTypeValid ≠ 0 := by
  rw [and_typeMask] at h
  rw [and_typeValid]
  simp only [mmTypePage] at h
  omega

theorem page_and_mask (ha : ValidPage a) : a &&& pgAddrMask = a - kernBase := by
  have h0 := ha.aligned
  have h1 := ha.lo
  have h2 := ha.hi
  have hmask : pgAddrMask = (2 ^ 36 - 1) <<< 12 := by decide
  have hshift : a = (a / pgSize) <<< 12 := by
    rw [Nat.shiftLeft_eq]
    exact (Nat.div_mul_cancel (Nat.dvd_of_mod_eq_zero h0)).symm
  rw [hmask, hshift, ← Nat.shiftLeft_and_distrib, Nat.and_two_pow_sub_one_eq_mod, ← hshift, Nat.shiftLeft_eq]
  unfold phyStop phyBase kernBase pgSize at *
  omega

theorem p2v_sub (ha : ValidPage a) : p2v (a - kernBase) = a := by
  have h1 := ha.lo
  have h2 := ha.hi
  unfold p2v u64
  unfold phyStop phyBase kernBase at *
  omega

theorem v2p_page (ha : ValidPage a) : v2p a = a &&& pgAddrMask := by
  rw [page_and_mask ha]
  have h1 := ha.lo
  have h2 := ha.hi
  unfold v2p u64
  unfold phyStop phyBase kernBase at *
  omega

theorem ptePage_or (ha : ValidPage a) (hfl : fl &&& pgAddrMask = 0) :
    ptePage ((a &&& pgAddrMask) ||| fl) = a := by
  rw [ptePage, Nat.and_or_distrib_right, hfl, Nat.or_zero, Nat.and_assoc, Nat.and_self,
    page_and_mask ha, p2v_sub ha]

theorem type_or : ((a &&& pgAddrMask) ||| fl) &&& mmTypeMask = fl &&& mmTypeMask := by
  rw [Nat.and_or_distrib_right, Nat.and_assoc, show pgAddrMask &&& mmTypeMask = 0 by decide,
    Nat.and_zero, Nat.zero_or]

theorem entry_lt (hfl : fl < 2 ^ 64) : (a &&& pgAddrMask) ||| fl < 2 ^ 64 := by
  refine Nat.or_lt_two_pow (Nat.lt_of_le_of_lt Nat.and_le_right ?_) hfl
  decide

theorem isFlags_table : IsFlags mmTypeTable := ⟨by decide, by decide, by decide⟩

theorem isFlags_rwXn : IsFlags user4kPageRwXn := ⟨by decide, by decide, by decide⟩

/-- The child an inner entry leads to. -/
def next (e : Nat) : Option Nat :=
  if e &&& mmTypeMask = mmTypeTable then some (ptePage e) else none

theorem next_or (ha : ValidPage a) (hfl : IsFlags fl) : next ((a &&& pgAddrMask) ||| fl) = some a := by
  rw [next, type_or, if_pos (show _ = mmTypeTable from hfl.page), ptePage_or ha hfl.addr]

theorem next_zero : next 0 = none := by decide

/-! ### Memory -/

theorem pte_setPte (m : Mem) (q : Nat) (i e : Nat) (he : e < 2 ^ 64) :
    (m.setPte q i e).pte = upd m.pte q i e := by
  funext p j
  by_cases hp : p = q
  · subst hp
    by_cases hj : j = i
    · subst hj
      simp only [Mem.pte, Mem.setPte, update_self, ByteStore.ld_st_self, upd_self]
      exact Nat.mod_eq_of_lt he
    · rw [upd_of_ne hj]
      simp only [Mem.pte, Mem.setPte, update_self]
      exact ByteStore.ld_st_of_disjoint (by omega)
  · rw [upd_of_node_ne hp]
    simp [Mem.pte, Mem.setPte, hp]

theorem pte_congr {m m' : Mem} (h : m'.ram x = m.ram x) : m'.pte x = m.pte x := by
  funext i
  simp only [Mem.pte, h]

theorem ram_setPte_of_ne {m : Mem} {q : Nat} {i : Nat} (h : x ≠ q) :
    (m.setPte q i e).ram x = m.ram x := update_of_ne h _ _

theorem ram_setPage_of_ne {m : Mem} {q : Nat} {b : ByteStore} (h : x ≠ q) :
    (m.setPage q b).ram x = m.ram x := update_of_ne h _ _

theorem pte_zero {m : Mem} {q : Nat} (h : m.ram q = fun _ => 0) (i : Nat) : m.pte q i = 0 := by
  have : (m.ram q).ld (8 * i) 8 = 0 % 256 ^ 8 := by
    apply ByteStore.ld_digits
    intro j _
    simp [h]
  simpa [Mem.pte] using this

/-! ### The primitive operations -/

section Primitive

variable {m : Mem} {E : String → Prop}

@[simp] theorem sat_getPte {p i : Nat} {Q : Nat → Mem → Prop} :
    Sat (getPte p i) m Q E ↔ Q (m.pte p i) m := Iff.rfl

@[simp] theorem sat_setPte {p i e : Nat} {Q : Unit → Mem → Prop} :
    Sat (setPte p i e) m Q E ↔ Q () (m.setPte p i e) := Iff.rfl

@[simp] theorem sat_memset {p : Nat} {c : UInt8} {Q : Unit → Mem → Prop} :
    Sat (memset p c) m Q E ↔ Q () (m.setPage p fun _ => c) := Iff.rfl

/-- The memory after `kalloc` has taken the page `r` and left `rest`. -/
def Mem.taken (m : Mem) (r : Nat) (rest : List Nat) : Mem :=
  { m with freelist := rest }.setPage r fun _ => 5

theorem sat_kalloc {Q : Option Nat → Mem → Prop} : Sat kalloc m Q E ↔ (m.freelist = [] → Q none m) ∧
      ∀ r rest, m.freelist = r :: rest → Q (some r) (m.taken r rest) := by
  unfold kalloc
  rw [sat_bind, sat_get]
  cases hf : m.freelist with
  | nil => simp
  | cons r rest =>
    simp only [sat_bind, sat_set, sat_memset, sat_pure, reduceCtorEq, false_implies, true_and,
      List.cons.injEq, and_imp]
    refine ⟨fun h r' rest' hr hrest => ?_, fun h => h r rest rfl rfl⟩
    rw [← hr, ← hrest]
    exact h

theorem sat_kfree {Q : Unit → Mem → Prop} (ha : ValidPage a) (hend : m.kend ≤ kernBase + phyStop)
    (hlo : kernBase ≤ m.kend) :
    Sat (kfree a) m Q E ↔ Q () { m with freelist := a :: m.freelist } := by
  have h1 := ha.lo
  have h2 := ha.hi
  have hend' : u64 (kernBase + m.kend) ≤ a := by
    unfold u64
    unfold phyStop phyBase kernBase at *
    omega
  unfold kfree
  rw [sat_bind, sat_get, if_neg]
  · rfl
  · simp only [ha.aligned, ne_eq, not_true_eq_false, false_or, not_or, not_lt, not_le]
    exact ⟨hend', h2⟩

end Primitive

/-! ### Tables -/

/-- The pages of a table with `n` levels below its root. -/
def tables (m : Mem) (n : Nat) (pde : Nat) : Multiset Nat := nodes next pxEntryCnt m.pte n pde

/-- The bottom page of a key. -/
def bottom (m : Mem) (n : Nat) (pde : Nat) (k : Nat) : Option Nat :=
  leaf next pxEntryCnt m.pte n pde k

/-- The leaf entry of a key; 0 where the table has no page for it. -/
def entry (m : Mem) (n : Nat) (pde : Nat) (k : Nat) : Nat :=
  (look next pxEntryCnt m.pte n pde k).getD 0

/-- Above the bottom, an entry that is not a table is invalid. -/
def Inner (m : Mem) (n : Nat) (pde : Nat) : Prop :=
  Radix.Inner next pxEntryCnt (fun e => next e = none → e &&& mmTypeValid = 0) m.pte n pde

/-- How many table pages the path of a key lacks. -/
def missing (m : Mem) (n : Nat) (pde : Nat) (k : Nat) : Nat :=
  Radix.missing next pxEntryCnt m.pte n pde k

theorem cnt_pos : 0 < pxEntryCnt := by
  unfold pxEntryCnt
  decide

theorem px_eq (n va : Nat) : px n va = digit pxEntryCnt n (va / pgSize) := by
  have h1 : px n va = va / 2 ^ (12 + 9 * n) % 512 := by
    rw [px, Nat.shiftRight_eq_div_pow]
    exact Nat.and_two_pow_sub_one_eq_mod _ 9
  have h2 : 2 ^ (12 + 9 * n) = pgSize * pxEntryCnt ^ n := by
    rw [pow_add, pow_mul]
    unfold pxEntryCnt
    rfl
  rw [h1, h2, ← Nat.div_div_eq_div_mul, digit]
  unfold pxEntryCnt
  rfl

theorem px_zero (va : Nat) : px 0 va = va / pgSize % pxEntryCnt := by
  rw [px_eq, digit, pow_zero, Nat.div_one]

variable {m m' : Mem} {n : Nat} {pde t : Nat} {k va : Nat}

theorem entry_of_bottom (h : bottom m n pde k = some t) : entry m n pde k = m.pte t (k % pxEntryCnt) := by
  unfold bottom at h
  simp [entry, look, h]

theorem bottom_of_entry (h : entry m n pde k ≠ 0) : ∃ t, bottom m n pde k = some t := by
  cases hb : bottom m n pde k with
  | some t => exact ⟨t, rfl⟩
  | none =>
    unfold bottom at hb
    simp [entry, look, hb] at h

section

variable (h : ∀ x ∈ tables m n pde, m'.ram x = m.ram x)
include h

theorem tables_congr : tables m' n pde = tables m n pde :=
  nodes_congr fun x hx => pte_congr (h x hx)

theorem bottom_congr : bottom m' n pde k = bottom m n pde k :=
  leaf_congr cnt_pos fun x hx => pte_congr (h x hx)

theorem entry_congr : entry m' n pde k = entry m n pde k := by
  have hb := bottom_congr (k := k) h
  cases hl : bottom m n pde k with
  | none =>
    rw [hl] at hb
    unfold bottom at hb hl
    simp [entry, look, hb, hl]
  | some t =>
    rw [hl] at hb
    rw [entry_of_bottom hb, entry_of_bottom hl, pte_congr (h t (leaf_mem cnt_pos hl))]

end

theorem missing_le : missing m n pde k ≤ n := Radix.missing_le

theorem missing_congr (h : ∀ x ∈ tables m n pde, m'.ram x = m.ram x) :
    missing m' n pde k = missing m n pde k :=
  Radix.missing_congr cnt_pos fun x hx => pte_congr (h x hx)

theorem inner_congr (h : ∀ x ∈ tables m n pde, m'.ram x = m.ram x) (hin : Inner m n pde) : Inner m' n pde :=
  Radix.inner_congr (fun x hx => pte_congr (h x hx)) hin

/-! ### walk -/

theorem walk_false : ∀ (n : Nat) (pde : Nat) (m : Mem), walk n pde va false m =
      .ok ((bottom m n pde (va / pgSize)).map fun t => (t, va / pgSize % pxEntryCnt), m)
  | 0, pde, m => by
    rw [← px_zero]
    rfl
  | n + 1, pde, m => by
    show (if m.pte pde (px (n + 1) va) &&& mmTypeMask = mmTypeTable then
        walk n (ptePage (m.pte pde (px (n + 1) va))) va false
      else _ : VmM _) m = _
    rw [px_eq]
    by_cases ht : m.pte pde (digit pxEntryCnt (n + 1) (va / pgSize)) &&& mmTypeMask = mmTypeTable
    · rw [if_pos ht, walk_false n]
      simp [bottom, leaf, next, ht]
    · rw [if_neg ht]
      have hb : bottom m (n + 1) pde (va / pgSize) = none := by simp [bottom, leaf, next, ht]
      rw [hb]
      split <;> rfl

/-- The effect of adding the pages `new` to a table. -/
structure Grown (m m' : Mem) (n : Nat) (pde : Nat) (new : List Nat) : Prop where
  free : m.freelist = new ++ m'.freelist
  tables : tables m' n pde = tables m n pde + ↑new
  frame : ∀ x, x ∉ Vm.tables m n pde → x ∉ new → m'.ram x = m.ram x
  entry : ∀ k, entry m' n pde k = entry m n pde k
  inner : Inner m n pde → Inner m' n pde
  kend : m'.kend = m.kend

theorem Grown.refl (m : Mem) (n : Nat) (pde : Nat) : Grown m m n pde [] where
  free := rfl
  tables := by simp
  frame := fun _ _ _ => rfl
  entry := fun _ => rfl
  inner := id
  kend := rfl

theorem Grown.trans {m₁ : Mem} {a b : List Nat} (h : Grown m m₁ n pde a) (h' : Grown m₁ m' n pde b) :
    Grown m m' n pde (a ++ b) where
  free := by rw [h.free, h'.free, append_assoc]
  tables := by rw [h'.tables, h.tables, add_assoc, coe_add]
  frame := fun x hx hnew => by
    obtain ⟨ha, hb⟩ := not_or.mp (mt mem_append.mpr hnew)
    have hx₁ : x ∉ Vm.tables m₁ n pde := by
      rw [h.tables, mem_add, mem_coe]
      exact not_or.mpr ⟨hx, ha⟩
    rw [h'.frame x hx₁ hb, h.frame x hx ha]
  entry := fun k => (h'.entry k).trans (h.entry k)
  inner := fun hin => h'.inner (h.inner hin)
  kend := h'.kend.trans h.kend

variable {i c q : Nat} {new : List Nat}

theorem tables_child_le (hi : i < pxEntryCnt) (hc : next (m.pte pde i) = some c) :
    {pde} + tables m n c ≤ tables m (n + 1) pde := nodes_child_le hi hc

theorem entry_child (hi : digit pxEntryCnt (n + 1) k = i) (hc : next (m.pte pde i) = some c) :
    entry m (n + 1) pde k = entry m n c k := by
  simp [entry, look, leaf, hi, hc]

theorem Grown.root (hi : i < pxEntryCnt) (hc : next (m.pte pde i) = some c)
    (hn : (Vm.tables m (n + 1) pde + ↑m.freelist).Nodup) (h : Grown m m' n c new) :
    m'.pte pde = m.pte pde := by
  have hpc := (nodup_child hi hc (Multiset.nodup_add.mp hn).1).1
  refine pte_congr (h.frame pde hpc fun hmem => ?_)
  exact Multiset.disjoint_left.mp (Multiset.nodup_add.mp hn).2.2 mem_nodes_self
    (by rw [h.free]; exact mem_append_left _ hmem)

theorem missing_child (hi : digit pxEntryCnt (n + 1) k = i) (hc : next (m.pte pde i) = some c) :
    missing m (n + 1) pde k = missing m n c k := by
  simp only [missing, Radix.missing, hi, hc]

section

variable (hi : i < pxEntryCnt) (hc : next (m.pte pde i) = some c) (hn : (Vm.tables m (n + 1) pde + ↑m.freelist).Nodup) (h : Grown m m' n c new)
include hi hc hn h

theorem Grown.child :
    Grown m m' (n + 1) pde new := by
  have hnt := (Multiset.nodup_add.mp hn).1
  have hdis := (Multiset.nodup_add.mp hn).2.2
  have hsub : ∀ x ∈ Vm.tables m n c, x ∈ Vm.tables m (n + 1) pde := fun x hx =>
    mem_of_le (tables_child_le hi hc) (mem_add.mpr (.inr hx))
  have hnew : ∀ x ∈ Vm.tables m (n + 1) pde, x ∉ new := fun x hx hmem =>
    Multiset.disjoint_left.mp hdis hx (by rw [h.free]; exact mem_append_left _ hmem)
  have hp : m'.pte pde = m.pte pde := h.root hi hc hn
  have hkeep : ∀ x ∈ Vm.tables m (n + 1) pde, x ∉ Vm.tables m n c → m'.pte x = m.pte x :=
    fun x hx hxc => pte_congr (h.frame x hxc (hnew x hx))
  refine ⟨h.free, nodes_grow hi hc hnt hp hkeep h.tables, fun x hx hxn => ?_, fun k => ?_,
    fun hin => ?_, h.kend⟩
  · exact h.frame x (fun hxc => hx (hsub x hxc)) hxn
  · have hleaf := leaf_grow (k := k) cnt_pos hi hc hnt hp hkeep
    by_cases hd : digit pxEntryCnt (n + 1) k = i
    · rw [entry_child hd (hp ▸ hc), entry_child hd hc, h.entry k]
    · rw [if_neg hd] at hleaf
      cases hb : bottom m (n + 1) pde k with
      | none => 
        unfold bottom at hb
        simp only [Vm.entry, look, hleaf, hb]
        rfl
      | some t =>
        have hb' : bottom m' (n + 1) pde k = some t := hleaf.trans hb
        rw [entry_of_bottom hb', entry_of_bottom hb]
        obtain ⟨c', hc', hl⟩ := bind_eq_some_iff.mp hb
        have htc : t ∉ Vm.tables m n c := disjoint_children (digit_lt cnt_pos _ _) hi hd
          hc' hc hnt (leaf_mem cnt_pos hl)
        rw [hkeep t (leaf_mem cnt_pos hb) htc]
  · exact inner_grow hi hc hnt hp hkeep hin (h.inner ((hin i hi).2 c hc))

theorem Grown.missing_child :
    missing m' (n + 1) pde k = if digit pxEntryCnt (n + 1) k = i then missing m' n c k
      else missing m (n + 1) pde k := by
  refine missing_grow cnt_pos hi hc (Multiset.nodup_add.mp hn).1 (h.root hi hc hn) fun x hx hxc => ?_
  refine pte_congr (h.frame x hxc fun hmem => ?_)
  exact Multiset.disjoint_left.mp (Multiset.nodup_add.mp hn).2.2 hx
    (by rw [h.free]; exact mem_append_left _ hmem)

end

section

variable (h : m.ram q = fun _ => 0)
include h

theorem next_zero_page (j : Nat) : next (m.pte q j) = none := by
  rw [pte_zero h, next_zero]

theorem tables_zero_page : tables m n q = {q} :=
  nodes_empty (next_zero_page h)

theorem entry_zero_page : entry m n q k = 0 := by
  cases n with
  | zero => simp [entry, look, leaf, pte_zero h]
  | succ n => simp [entry, look, leaf, next_zero_page h]

theorem inner_zero_page : Inner m n q := by
  cases n with
  | zero => trivial
  | succ n =>
    intro i _
    rw [pte_zero h, next_zero]
    exact ⟨fun _ => rfl, fun c hc => by cases hc⟩

theorem missing_zero_page : missing m n q k = n := by
  cases n with
  | zero => rfl
  | succ n => simp [missing, Radix.missing, next_zero_page h]

end

theorem grown_link (hi : i < pxEntryCnt) (hn : (tables m (n + 1) pde + ↑m.freelist).Nodup)
    (hfree : m.freelist = q :: m'.freelist) (hnone : next (m.pte pde i) = none)
    (he : next e = some q) (he64 : e < 2 ^ 64) (hkend : m'.kend = m.kend)
    (hram : m'.ram = ((m.setPage q fun _ => 0).setPte pde i e).ram) :
    Grown m m' (n + 1) pde [q] ∧ m'.ram q = (fun _ => 0) ∧ next (m'.pte pde i) = some q ∧
      ∀ k, digit pxEntryCnt (n + 1) k ≠ i → missing m' (n + 1) pde k = missing m (n + 1) pde k := by
  have hnt := (Multiset.nodup_add.mp hn).1
  have hdis := (Multiset.nodup_add.mp hn).2.2
  have hq : q ∉ tables m (n + 1) pde := fun hq =>
    Multiset.disjoint_left.mp hdis hq (by rw [hfree]; exact List.mem_cons_self)
  have hqp : q ≠ pde := fun h => hq (h ▸ mem_nodes_self)
  -- the memory with the zeroed page, before the link
  let z : Mem := m.setPage q fun _ => 0
  have hz : ∀ x, x ≠ q → z.ram x = m.ram x := fun x hx => ram_setPage_of_ne hx
  have hzq : z.ram q = fun _ => 0 := update_self _ _ _
  have hzt : ∀ x ∈ tables m (n + 1) pde, z.ram x = m.ram x := fun x hx =>
    hz x fun h => hq (h ▸ hx)
  have htz : tables z (n + 1) pde = tables m (n + 1) pde := tables_congr hzt
  have hpz : z.pte pde = m.pte pde := pte_congr (hz pde hqp.symm)
  have hpte : m'.pte = upd z.pte pde i e := by
    rw [← pte_setPte z pde i e he64]
    funext x j
    simp only [Mem.pte, hram, z]
  have hq' : m'.ram q = fun _ => 0 := by
    rw [hram, ram_setPte_of_ne hqp]
    exact hzq
  have hnz : (tables z (n + 1) pde).Nodup := htz.symm ▸ hnt
  have hnext : next (m'.pte pde i) = some q := by rw [hpte, upd_self, he]
  have hmiss : ∀ k, digit pxEntryCnt (n + 1) k ≠ i → missing m' (n + 1) pde k = missing m (n + 1) pde k := by
    intro k hk
    have hlink := missing_link (k := k) (i := i) cnt_pos hnz he
    rw [← hpte, if_neg hk] at hlink
    exact hlink.trans (missing_congr hzt)
  refine ⟨⟨hfree, ?_, fun x hx hxn => ?_, fun k => ?_, fun hin => ?_, hkend⟩, hq', hnext, hmiss⟩
  · have := nodes_link hi hnz (by rw [hpz, hnone]) he hqp (next_zero_page hzq)
    rw [← hpte] at this
    exact this.trans (congrArg (· + _) htz)
  · have hxp : x ≠ pde := fun h => hx (h ▸ mem_nodes_self)
    rw [hram, ram_setPte_of_ne hxp]
    exact hz x fun h => hxn (by simp [h])
  · have hleaf := leaf_link (k := k) (i := i) cnt_pos hnz he
    rw [← hpte] at hleaf
    by_cases hd : digit pxEntryCnt (n + 1) k = i
    · rw [entry_child hd hnext, entry_zero_page hq']
      simp [Vm.entry, look, leaf, hd, hnone]
    · rw [if_neg hd] at hleaf
      have hzb : bottom z (n + 1) pde k = bottom m (n + 1) pde k := bottom_congr hzt
      cases hb : bottom m (n + 1) pde k with
      | none =>
        have hb' : bottom m' (n + 1) pde k = none := hleaf.trans (hzb.trans hb)
        unfold bottom at hb hb'
        simp [Vm.entry, look, hb, hb']
      | some t =>
        have hb' : bottom m' (n + 1) pde k = some t := hleaf.trans (hzb.trans hb)
        have ht := leaf_mem cnt_pos hb
        obtain ⟨c', hc', hl⟩ := bind_eq_some_iff.mp hb
        have htp : t ≠ pde := fun h =>
          (nodup_child (digit_lt cnt_pos _ _) hc' hnt).1 (h ▸ leaf_mem cnt_pos hl)
        rw [entry_of_bottom hb', entry_of_bottom hb, hpte, upd_of_node_ne htp, pte_congr (hzt t ht)]
  · intro j hj
    by_cases hji : j = i
    · subst hji
      rw [hnext]
      refine ⟨fun h => (some_ne_none _ (hnext.symm.trans h)).elim, fun c hc => ?_⟩
      cases hc
      exact inner_zero_page hq'
    · have hpj : m'.pte pde j = m.pte pde j := by rw [hpte, upd_of_ne hji, hpz]
      rw [hpj]
      refine ⟨(hin j hj).1, fun c hc => Radix.inner_congr (fun x hx => ?_) ((hin j hj).2 c hc)⟩
      have hxt : x ∈ tables m (n + 1) pde :=
        mem_of_le (tables_child_le hj hc) (mem_add.mpr (.inr hx))
      have hxp : x ≠ pde := fun h => (nodup_child hj hc hnt).1 (h ▸ hx)
      rw [hpte, upd_of_node_ne hxp, pte_congr (hzt x hxt)]

/-- What `walk` has found when it returns. -/
def Found (m m' : Mem) (n : Nat) (pde k : Nat) (new : List Nat) : Option (Nat × Nat) → Prop
  | some (t, i) =>
    bottom m' n pde k = some t ∧ i = k % pxEntryCnt ∧ new.length = missing m n pde k ∧
      ∀ k', missing m' n pde k' = min (missing m n pde k') (split pxEntryCnt n k k')
  | none => Inner m n pde → m.freelist.length < missing m n pde k

theorem walk_true {va : Nat} (n : Nat) : ∀ (pde : Nat) (m : Mem), (tables m n pde + ↑m.freelist).Nodup →
    (∀ x ∈ m.freelist, ValidPage x) →
    Sat (walk n pde va true) m
      (fun r m' => ∃ new, Grown m m' n pde new ∧ Found m m' n pde (va / pgSize) new r)
      fun _ => False := by
  induction n with
  | zero =>
    intro pde m _ _
    refine ⟨[], Grown.refl m 0 pde, ?_⟩
    exact ⟨rfl, px_zero va, rfl, fun _ => rfl⟩
  | succ n ih =>
    intro pde m hn hval
    unfold walk
    simp only [px_eq]
    have hi := digit_lt cnt_pos (n + 1) (va / pgSize)
    generalize hd : digit pxEntryCnt (n + 1) (va / pgSize) = i at hi ⊢
    rw [sat_bind, sat_getPte, sat_ite]
    refine ⟨fun ht => ?_, fun ht => ?_⟩
    · -- the next table is there
      have hc : next (m.pte pde i) = some (ptePage (m.pte pde i)) := if_pos ht
      have hle := tables_child_le (n := n) hi hc
      have hn' : (tables m n (ptePage (m.pte pde i)) + ↑m.freelist).Nodup :=
        nodup_of_le (add_le_add (le_trans (Multiset.le_add_left _ _) hle) le_rfl) hn
      refine (ih _ m hn' hval).imp fun r m' h => ?_
      obtain ⟨new, hg, hf⟩ := h
      refine ⟨new, hg.child hi hc hn, ?_⟩
      have hp := hg.root hi hc hn
      have hmiss : missing m (n + 1) pde (va / pgSize) =
          missing m n (ptePage (m.pte pde i)) (va / pgSize) := by
        simp only [missing, Radix.missing, hd, hc]
      cases r with
      | none => exact fun hin => hmiss ▸ hf ((hin i hi).2 _ hc)
      | some s =>
        refine ⟨?_, hf.2.1, hmiss ▸ hf.2.2.1, fun k' => ?_⟩
        · rw [← hf.1]
          simp only [bottom, leaf, hd, hp, hc, bind_some]
        · rw [hg.missing_child hi hc hn, split, hd]
          by_cases hk : digit pxEntryCnt (n + 1) k' = i
          · rw [if_pos hk, if_pos hk.symm, hf.2.2.2 k', missing_child hk hc]
          · rw [if_neg hk, if_neg (Ne.symm hk), Nat.min_eq_left missing_le]
    · have hnone : next (m.pte pde i) = none := if_neg ht
      have hmiss : missing m (n + 1) pde (va / pgSize) = n + 1 := by
        simp only [missing, Radix.missing, hd, hnone]
      rw [sat_ite]
      refine ⟨fun hv => ?_, fun hv => ?_⟩
      · -- a valid entry that is no table: excluded by `Inner`
        exact ⟨[], Grown.refl m _ pde, fun hin => absurd ((hin i hi).1 hnone) hv⟩
      · rw [if_neg (by decide), sat_bind, sat_kalloc]
        refine ⟨fun hnil => ?_, fun q rest hcons => ?_⟩
        · refine ⟨[], Grown.refl m _ pde, fun _ => ?_⟩
          rw [hmiss, hnil]
          exact Nat.succ_pos n
        · simp only [sat_bind, sat_memset, sat_setPte]
          have hq : ValidPage q := hval q (by rw [hcons]; exact List.mem_cons_self)
          have he := next_or hq isFlags_table
          have he64 := entry_lt (a := q) isFlags_table.lt
          rw [← v2p_page hq] at he he64
          generalize hm₂ : ((m.taken q rest).setPage q fun _ => 0).setPte pde i (v2p q ||| mmTypeTable) = m₂
          have hram : m₂.ram = ((m.setPage q fun _ => 0).setPte pde i (v2p q ||| mmTypeTable)).ram := by
            simp [← hm₂, Mem.taken, Mem.setPage, Mem.setPte]
          have hrest : m₂.freelist = rest := by rw [← hm₂]; rfl
          have hkend : m₂.kend = m.kend := by rw [← hm₂]; rfl
          obtain ⟨hlink, hzero, hnext, hother⟩ :=
            grown_link hi hn (hrest ▸ hcons) hnone he he64 hkend hram
          have hnfree := (Multiset.nodup_add.mp hn).2.1
          have hn₂ : (tables m₂ n q + ↑m₂.freelist).Nodup := by
            rw [tables_zero_page hzero, hrest, singleton_add, cons_coe, ← hcons]
            exact hnfree
          have hn₂' : (tables m₂ (n + 1) pde + ↑m₂.freelist).Nodup := by
            rw [hlink.tables, add_assoc, hrest, coe_add, singleton_append, ← hcons]
            exact hn
          have hval₂ : ∀ x ∈ m₂.freelist, ValidPage x := fun x hx =>
            hval x (by rw [hcons]; exact List.mem_cons_of_mem _ (hrest ▸ hx))
          refine (ih q m₂ hn₂ hval₂).imp fun r m' h => ?_
          obtain ⟨new, hg, hf⟩ := h
          refine ⟨[q] ++ new, hlink.trans (hg.child hi hnext hn₂'), ?_⟩
          have hp := hg.root hi hnext hn₂'
          cases r with
          | none =>
            intro _
            have := hf (inner_zero_page hzero)
            rw [missing_zero_page hzero, hrest] at this
            rw [hmiss, hcons, length_cons]
            omega
          | some s =>
            refine ⟨?_, hf.2.1, ?_, fun k' => ?_⟩
            · rw [← hf.1]
              simp only [bottom, leaf, hd, hp, hnext, bind_some]
            · rw [hmiss, length_append, hf.2.2.1, missing_zero_page hzero, length_singleton, Nat.add_comm]
            · rw [hg.missing_child hi hnext hn₂', split, hd]
              by_cases hk : digit pxEntryCnt (n + 1) k' = i
              · have hk' : missing m (n + 1) pde k' = n + 1 := by
                  simp only [missing, Radix.missing, hk, hnone]
                rw [if_pos hk, if_pos hk.symm, hf.2.2.2 k', missing_zero_page hzero, hk']
                have hsplit : split pxEntryCnt n (va / pgSize) k' ≤ n := split_le
                omega
              · rw [if_neg hk, if_neg (Ne.symm hk), Nat.min_eq_left missing_le]
                exact hother k' hk

end Xv6Armv8.Vm

import Xv6Armv8.VmSpace

/-! Taking address spaces apart and copying them: `freewalk` gives back every page of a table without
leaf entries, `uvmfree` every page of an address space, and `uvmcopy` fills an empty table with a copy
of another or leaves it empty. -/

namespace Xv6Armv8.Vm

open Spec List Multiset Radix

variable {m m' : Mem} {pde : Nat} {n : Nat} {l : List Nat} {F : Multiset Nat}

/-! ### freewalk -/

/-- The tables below the entry `i` of a table. -/
def below (m : Mem) (n pde i : Nat) : Multiset Nat := ((next (m.pte pde i)).map (tables m n)).getD 0

theorem tables_succ (m : Mem) (n pde : Nat) :
    tables m (n + 1) pde = {pde} + ∑ i ∈ Finset.range pxEntryCnt, below m n pde i := rfl

/-- `freewalk` after `j` entries of its table. -/
structure Freeing (m : Mem) (n pde j : Nat) (t : Mem) : Prop where
  free : (↑t.freelist : Multiset Nat) = ↑m.freelist + ∑ i ∈ Finset.range j, below m n pde i
  frame : ∀ x, x ∉ tables m (n + 1) pde → x ∉ m.freelist → t.ram x = m.ram x
  root : ∀ i, j ≤ i → t.pte pde i = m.pte pde i
  rest : ∀ i, j ≤ i → i < pxEntryCnt → ∀ x ∈ below m n pde i, t.ram x = m.ram x
  kend : t.kend = m.kend

/-- A table page without leaf entries, with `n` levels below it. -/
structure Bare (m : Mem) (n pde : Nat) : Prop where
  inner : Inner m n pde
  entry : ∀ k, k < pxEntryCnt ^ (n + 1) → entry m n pde k = 0

variable {c i j size : Nat}

theorem Bare.child (h : Bare m (n + 1) pde) (hi : i < pxEntryCnt)
    (hc : next (m.pte pde i) = some c) : Bare m n c where
  inner := (h.inner i hi).2 c hc
  entry := fun k hk => by
    rw [Vm.entry, look_child hi hc hk]
    refine h.entry _ ?_
    calc i * pxEntryCnt ^ (n + 1) + k < i * pxEntryCnt ^ (n + 1) + pxEntryCnt ^ (n + 1) := by omega
      _ = (i + 1) * pxEntryCnt ^ (n + 1) := by rw [Nat.add_mul, Nat.one_mul]
      _ ≤ pxEntryCnt * pxEntryCnt ^ (n + 1) := Nat.mul_le_mul_right _ hi
      _ = pxEntryCnt ^ (n + 1 + 1) := (pow_succ' _ _).symm

theorem Bare.congr (h : Bare m n pde) (hram : ∀ x ∈ tables m n pde, m'.ram x = m.ram x) : Bare m' n pde where
  inner := inner_congr hram h.inner
  entry := fun k hk => (entry_congr hram).trans (h.entry k hk)

theorem below_some (hc : next (m.pte pde i) = some c) : below m n pde i = tables m n c := by
  simp [below, hc]

theorem below_none (hc : next (m.pte pde i) = none) : below m n pde i = 0 := by
  simp [below, hc]

theorem sum_below_le (hj : j < pxEntryCnt) :
    {pde} + (∑ i ∈ Finset.range j, below m n pde i) + below m n pde j ≤ tables m (n + 1) pde := by
  rw [tables_succ, add_assoc, ← Finset.sum_range_succ]
  exact add_le_add le_rfl (Finset.sum_le_sum_of_subset (Finset.range_subset_range.mpr hj))

theorem Freeing.start (m : Mem) (n pde : Nat) : Freeing m n pde 0 m :=
  ⟨by simp, fun _ _ _ => rfl, fun _ _ => rfl, fun _ _ _ _ _ => rfl, rfl⟩

theorem Freeing.skip {t : Mem} (h : Freeing m n pde j t) (hc : next (m.pte pde j) = none) :
    Freeing m n pde (j + 1) t where
  free := by rw [Finset.sum_range_succ, below_none hc, add_zero, h.free]
  frame := h.frame
  root := fun i hi => h.root i (Nat.le_of_succ_le hi)
  rest := fun i hi => h.rest i (Nat.le_of_succ_le hi)
  kend := h.kend

theorem Freeing.pool {t : Mem} (h : Freeing m n pde j t) (hp : Pool m (tables m (n + 1) pde))
    (hj : j < pxEntryCnt) : Pool t (below m n pde j) := by
  have hused : Pool t ({pde} + below m n pde j) := by
    refine (hp.mono (sum_below_le hj)).of_conserve ?_ h.kend
    rw [h.free]
    abel
  exact hused.mono (Multiset.le_add_left _ _)

theorem mem_below_tables {x : Nat} (hi : i < pxEntryCnt) (hx : x ∈ below m n pde i) :
    x ∈ tables m (n + 1) pde :=
  mem_of_le (sum_below_le hi) (mem_add.mpr (.inr hx))

theorem root_not_below (hn : (tables m (n + 1) pde).Nodup) (hi : i < pxEntryCnt) :
    pde ∉ below m n pde i := by
  cases hc : next (m.pte pde i) with
  | none => simp [below_none hc]
  | some c =>
    rw [below_some hc]
    exact (nodup_child hi hc hn).1

theorem below_disjoint {x : Nat} (hn : (tables m (n + 1) pde).Nodup) (hi : i < pxEntryCnt)
    (hj : j < pxEntryCnt) (hij : i ≠ j) (hx : x ∈ below m n pde i) : x ∉ below m n pde j := by
  cases hc : next (m.pte pde i) with
  | none => simp [below_none hc] at hx
  | some c =>
    rw [below_some hc] at hx
    cases hc' : next (m.pte pde j) with
    | none => simp [below_none hc']
    | some c' =>
      rw [below_some hc']
      exact disjoint_children hi hj hij hc hc' hn hx

theorem Freeing.step {t t' : Mem} (h : Freeing m n pde j t)
    (hn : (tables m (n + 1) pde).Nodup) (hj : j < pxEntryCnt) (hc : next (m.pte pde j) = some c)
    (hmv : Moves t t' (tables m n c) 0)
    (hdis : ∀ x ∈ tables m (n + 1) pde, x ∉ ∑ i ∈ Finset.range j, below m n pde i → x ∉ t.freelist) :
    Freeing m n pde (j + 1) (t'.setPte pde j 0) := by
  have hfree : (↑t'.freelist : Multiset Nat) = tables m n c + ↑t.freelist := by
    rw [← hmv.conserve, zero_add]
  have hlate : ∀ i, j ≤ i → i < pxEntryCnt → ∀ x ∈ below m n pde i,
      x ∉ ∑ i ∈ Finset.range j, below m n pde i := by
    intro i hi hi' x hx hsum
    obtain ⟨i', hi'', hx'⟩ := mem_sum.mp hsum
    have hlt := Finset.mem_range.mp hi''
    exact below_disjoint hn (by omega) hi' (by omega) hx' hx
  have hpde : pde ∉ ∑ i ∈ Finset.range j, below m n pde i := by
    intro hsum
    obtain ⟨i', hi', hx'⟩ := mem_sum.mp hsum
    exact root_not_below hn (lt_trans (Finset.mem_range.mp hi') hj) hx'
  have hroot : t'.ram pde = t.ram pde := by
    refine hmv.frame pde ?_ (hdis pde mem_nodes_self hpde)
    rw [← below_some hc]
    exact root_not_below hn hj
  refine ⟨?_, fun x hx hxm => ?_, fun i hi => ?_, fun i hi hi' x hx => ?_, ?_⟩
  · show (↑t'.freelist : Multiset Nat) = _
    rw [hfree, h.free, Finset.sum_range_succ, below_some hc]
    abel
  · have hxp : x ≠ pde := fun e => hx (e ▸ mem_nodes_self)
    have hxb : ∀ i, i < pxEntryCnt → x ∉ below m n pde i := fun i hi hmem => hx (mem_below_tables hi hmem)
    have hxf : x ∉ t.freelist := by
      rw [← mem_coe, h.free, mem_add, mem_coe, not_or]
      refine ⟨hxm, fun hsum => ?_⟩
      obtain ⟨i', hi', hx'⟩ := mem_sum.mp hsum
      exact hxb i' (lt_trans (Finset.mem_range.mp hi') hj) hx'
    rw [ram_setPte_of_ne hxp, ← h.frame x hx hxm]
    refine hmv.frame x ?_ hxf
    rw [← below_some hc]
    exact hxb j hj
  · rw [pte_setPte _ _ _ _ (by decide), upd_of_ne (by omega), pte_congr hroot, h.root i (by omega)]
  · have hxp : x ≠ pde := by
      intro e
      rw [e] at hx
      exact root_not_below hn hi' hx
    rw [ram_setPte_of_ne hxp, ← h.rest i (by omega) hi' x hx]
    refine hmv.frame x ?_ (hdis x (mem_below_tables hi' hx) (hlate i (by omega) hi' x hx))
    rw [← below_some hc]
    exact below_disjoint hn hi' hj (by omega) hx
  · exact hmv.kend.trans h.kend

theorem freewalk_spec (n : Nat) : ∀ (pde : Nat) (m : Mem), Pool m (tables m n pde) → Bare m n pde →
    Sat (freewalk (n + 1) pde) m (fun _ m' => Moves m m' (tables m n pde) 0) fun _ => False := by
  induction n with
  | zero =>
    intro pde m hp hb
    have hval : ValidPage pde := hp.valid_used mem_nodes_self
    unfold freewalk
    rw [sat_bind]
    refine Sat.imp (Q := fun _ t => t = m) ?_ fun _ t ht => ?_
    · refine sat_forM_range (I := fun _ t => t = m) rfl fun i hi t ht => ?_
      subst ht
      have hzero : t.pte pde i = 0 := by
        have := hb.entry i (by rwa [pow_one])
        simpa [entry, look, leaf, Nat.mod_eq_of_lt hi] using this
      rw [sat_bind, sat_getPte, hzero, if_neg (by decide), if_neg (by decide)]
      rfl
    · subst ht
      rw [sat_kfree hval hp.hi hp.lo]
      exact (freed_moves pde 0).congr (zero_add _) rfl
  | succ n ih =>
    intro pde m hp hb
    have hval : ValidPage pde := hp.valid_used mem_nodes_self
    have hn := (Multiset.nodup_add.mp hp.nodup).1
    unfold freewalk
    rw [sat_bind]
    refine Sat.imp (Q := fun _ t => Freeing m n pde pxEntryCnt t) ?_ fun _ t ht => ?_
    · refine sat_forM_range (I := fun j t => Freeing m n pde j t) (Freeing.start m n pde) fun j hj t ht => ?_
      have hdis : ∀ x ∈ tables m (n + 1) pde, x ∉ ∑ i ∈ Finset.range j, below m n pde i → x ∉ t.freelist := by
        intro x hx hsum
        rw [← mem_coe, ht.free, mem_add, mem_coe, not_or]
        exact ⟨hp.not_free hx, hsum⟩
      rw [sat_bind, sat_getPte, ht.root j le_rfl, sat_ite]
      refine ⟨fun htab => ?_, fun htab => ?_⟩
      · -- the child is still as it was at the start
        have hc : next (m.pte pde j) = some (ptePage (m.pte pde j)) := if_pos htab
        have hsame : ∀ x ∈ tables m n (ptePage (m.pte pde j)), t.ram x = m.ram x := by
          rw [← below_some hc]
          exact ht.rest j le_rfl hj
        have htc := tables_congr hsame
        have hpc : Pool t (tables t n (ptePage (m.pte pde j))) :=
          (ht.pool hp hj).congr ((below_some hc).trans htc.symm)
        refine (ih _ t hpc ((hb.child hj hc).congr hsame)).bind fun _ t' hmv => ?_
        rw [htc] at hmv
        exact ht.step hn hj hc hmv hdis
      · have hc : next (m.pte pde j) = none := if_neg htab
        rw [if_neg (not_not.mpr ((hb.inner j hj).1 hc))]
        exact ht.skip hc
    · rw [sat_kfree hval (by rw [ht.kend]; exact hp.hi) (by rw [ht.kend]; exact hp.lo)]
      refine ⟨?_, fun x hx hxf => ht.frame x hx hxf, ht.kend⟩
      show 0 + (↑(pde :: t.freelist) : Multiset Nat) = _
      rw [zero_add, ← cons_coe, ← singleton_add, ht.free, tables_succ]
      abel

/-! ### uvmfree -/

theorem Space.bare (h : Space m pde []) : Bare m 3 pde where
  inner := h.inner
  entry := fun k hk => by
    rw [cnt_pow] at hk
    rw [h.entry k hk, getD_nil]

theorem freewalk_space (hs : Space m pde []) (hp : Pool m (tables m 3 pde)) :
    Sat (freewalk 4 pde) m (fun _ m' => Moves m m' (tables m 3 pde) 0) fun _ => False :=
  freewalk_spec 3 pde m hp hs.bare

theorem unmap_all (hs : Space m pde l) (hp : Pool m (tables m 3 pde + pages l)) :
    Sat (uvmunmap pde 0 l.length true) m (fun _ m' => Space m' pde [] ∧ tables m' 3 pde = tables m 3 pde ∧
        Moves m m' (tables m 3 pde + pages l) (tables m' 3 pde)) fun _ => False := by
  have h := unmap_suffix (l := []) hs hp
  rw [length_nil, Nat.zero_mul] at h
  exact h.imp fun _ m' h => ⟨h.1, h.2.tables, h.2.moves⟩

/-- **`uvmfree` gives back every page of an address space**: its tables and its user pages. -/
theorem uvmfree_spec (hs : Space m pde l) (hsz : pgRoundUp size = l.length * pgSize)
    (hp : Pool m (tables m 3 pde + pages l)) :
    Sat (uvmfree pde size) m (fun _ m' => Moves m m' (tables m 3 pde + pages l) 0) fun _ => False := by
  have hcount : pgRoundUp size / pgSize = l.length := by rw [hsz, Nat.mul_div_cancel _ (by decide)]
  unfold uvmfree
  dsimp only
  rw [sat_ite, hcount]
  refine ⟨fun _ => ?_, fun h0 => ?_⟩
  · refine (unmap_all hs hp).bind fun _ m₁ h => ?_
    obtain ⟨hs₁, ht₁, hmv⟩ := h
    have hp₁ : Pool m₁ (tables m₁ 3 pde) := hp.of_conserve hmv.conserve hmv.kend
    exact (freewalk_space hs₁ hp₁).imp fun _ m' h => hmv.trans h
  · have hnil : l = [] := by
      rw [show size = 0 by omega] at hcount
      exact eq_nil_of_length_eq_zero (hcount.symm.trans (by decide))
    subst hnil
    rw [pages_nil, add_zero] at hp
    rw [pages_nil, add_zero]
    exact freewalk_space hs hp

/-! ### uvmcreate -/

theorem space_of_zero {q : Nat} (hzero : m.ram q = fun _ => 0) :
    Space m q [] ∧ tables m 3 q = {q} ∧ Tight m q 0 := by
  refine ⟨⟨inner_zero_page hzero, Nat.zero_le _, fun k _ => ?_, fun e he => ?_⟩, tables_zero_page hzero,
    fun k _ => ?_⟩
  · rw [entry_zero_page hzero, getD_nil]
  · cases he
  · rw [missing_zero_page hzero, lack, if_neg (Nat.not_lt_zero _), if_neg (Nat.not_lt_zero _),
      if_neg (Nat.not_lt_zero _)]

theorem uvmcreate_spec (A : Multiset Nat) :
    Sat uvmcreate m (fun r m' => (r = none → m.freelist = [] ∧ m' = m) ∧ ∀ pde, r = some pde →
        Space m' pde [] ∧ tables m' 3 pde = {pde} ∧ Tight m' pde 0 ∧
        m.freelist = pde :: m'.freelist ∧ Moves m m' A (A + {pde})) fun _ => False := by
  unfold uvmcreate
  rw [sat_bind, sat_kalloc]
  refine ⟨fun hnil => ?_, fun p rest hcons => ?_⟩
  · exact ⟨fun _ => ⟨hnil, rfl⟩, fun pde h => by cases h⟩
  · simp only [sat_bind, sat_memset, sat_pure]
    refine ⟨fun h => (Option.some_ne_none _ h).elim, fun pde h => ?_⟩
    cases h
    obtain ⟨hs, ht, htight⟩ := space_of_zero (m := (m.taken p rest).setPage p fun _ => 0)
      (Function.update_self p _ _)
    exact ⟨hs, ht, htight, hcons, taken_moves hcons A⟩

/-! ### uvmcopy -/

theorem isFlags_and {e : Nat} (he : e &&& mmTypeMask = mmTypePage) : IsFlags (e &&& mask4kPage) where
  lt := lt_of_le_of_lt Nat.and_le_right (by decide)
  addr := by rw [Nat.and_assoc, show mask4kPage &&& pgAddrMask = 0 by decide, Nat.and_zero]
  page := by rw [Nat.and_assoc, show mask4kPage &&& mmTypeMask = mmTypeMask by decide, he]

theorem pgRoundUp_of_count {n : Nat} (h : pgCount size = n) (hn : n ≤ maxPages) :
    pgRoundUp size = n * pgSize := by
  unfold pgCount at h
  unfold maxPages at hn
  unfold pgRoundUp u64
  unfold pgSize at *
  omega

/-- The entries `r` of a copy have the flags of the original, and their pages the contents. -/
def Alike (m m' : Mem) (l r : List Nat) : Prop := ∀ j, j < r.length →
  r.getD j 0 &&& mask4kPage = l.getD j 0 &&& mask4kPage ∧ m'.ram (ptePage (r.getD j 0)) = m.ram (ptePage (l.getD j 0))

/-- The outcome of `uvmcopy`: the copy has as many pages as the original, or it is empty again. -/
structure Copied (m m' : Mem) (new : Nat) (l r : List Nat) (x : Int) : Prop where
  space : Space m' new r
  moves : Moves m m' (tables m 3 new) (tables m' 3 new + pages r)
  done : (x = 0 ∧ r.length = l.length) ∨ (x = -1 ∧ r = [])
  alike : Alike m m' l r

theorem Alike.nil (m m' : Mem) (l : List Nat) : Alike m m' l [] := fun _ hj => absurd hj (Nat.not_lt_zero _)

theorem Alike.snoc {m₀ : Mem} {r : List Nat} {e e' : Nat} (h : Alike m₀ m l r)
    (hkeep : ∀ x ∈ pages r, m'.ram x = m.ram x) (he : l.getD r.length 0 = e) (hflags : e' &&& mask4kPage = e &&& mask4kPage)
    (hpage : m'.ram (ptePage e') = m₀.ram (ptePage e)) : Alike m₀ m' l (r ++ [e']) := by
  intro j hj
  rw [length_append, length_singleton] at hj
  by_cases hlt : j < r.length
  · obtain ⟨h1, h2⟩ := h j hlt
    have hmem : ptePage (r.getD j 0) ∈ pages r := by
      rw [getD_eq_getElem _ _ hlt]
      exact List.mem_map_of_mem (getElem_mem hlt)
    rw [getD_append _ _ _ _ hlt, hkeep _ hmem]
    exact ⟨h1, h2⟩
  · obtain rfl : j = r.length := by omega
    rw [List.getD_append_right _ _ _ _ le_rfl, Nat.sub_self, he]
    exact ⟨hflags, hpage⟩

theorem uvmcopyLoop_spec {old new : Nat} (hsz : pgCount size = l.length) {m₀ : Mem} (n : Nat) :
    ∀ (r : List Nat) (m : Mem), m.freelist.length < n → Space m old l → Space m new r →
    Pool m (tables m 3 new + pages r + (tables m 3 old + pages l)) →
    Moves m₀ m (tables m₀ 3 new) (tables m 3 new + pages r) → r.length ≤ l.length →
    (∀ x ∈ pages l, m.ram x = m₀.ram x) → Alike m₀ m l r →
    Sat (uvmcopyLoop old new size n (r.length * pgSize)) m
      (fun x m' => ∃ r', Copied m₀ m' new l r' x) fun _ => False := by
  induction n with
  | zero => intro r m hf; exact absurd hf (Nat.not_lt_zero _)
  | succ n ih =>
    intro r m hf hold hnew hp hmoves hle hkept halike
    have hdiv : r.length * pgSize / pgSize = r.length := Nat.mul_div_cancel _ (by decide)
    unfold uvmcopyLoop
    rw [sat_ite]
    refine ⟨fun hlt => ?_, fun hge => ?_⟩
    · have hr : r.length < l.length := by
        rw [← hsz]
        exact pgCount_lt hlt
      have hk : r.length < maxPages := lt_of_lt_of_le hr hold.len
      have hget : l.getD r.length 0 = l[r.length] := getD_eq_getElem _ _ hr
      have hpage : l[r.length] &&& mmTypeMask = mmTypePage := hold.leaf _ (getElem_mem hr)
      have hentry : entry m 3 old r.length = l[r.length] := by rw [hold.entry _ hk, hget]
      obtain ⟨t, hb⟩ := bottom_of_entry (hentry ▸ entry_zero_of_page hpage)
      have hpte : m.pte t (r.length % pxEntryCnt) = l[r.length] := by rw [← entry_of_bottom hb, hentry]
      have hused : Pool m (tables m 3 new + pages r) := hp.mono (Multiset.le_add_right _ _)
      rw [sat_bind, sat_walk_false, hdiv, hb]
      simp only [Option.map_some, sat_bind, sat_getPte, hpte, valid_of_page hpage, if_false]
      have hmem : ptePage l[r.length] ∈ pages l := List.mem_map_of_mem (getElem_mem hr)
      generalize l[r.length] = e at hpage hget hmem
      have hfl := isFlags_and hpage
      rw [sat_kalloc]
      refine ⟨fun hnil => ?_, fun p rest hcons => ?_⟩
      · rw [sat_bind]
        exact (unmap_all hnew hused).imp fun _ m' h =>
          ⟨[], h.1, (hmoves.trans h.2.2).congr rfl (by simp), .inr ⟨rfl, rfl⟩, .nil _ _ _⟩
      · have hval : ValidPage p := hp.valid_free p (by rw [hcons]; exact List.mem_cons_self)
        rw [sat_bind, sat_modify, sat_bind]
        refine (mapNext_spec hnew (hused.mono (Multiset.le_add_right _ _)) hk hfl hcons).imp fun x m₁ h => ?_
        have hmv : Moves m₀ m₁ (tables m₀ 3 new) (tables m₁ 3 new + {p} + pages r) :=
          hmoves.trans (h.moves.add _)
        have hmv₁ := h.moves.add (pages r)
        have hp₁ : Pool m₁ (tables m₁ 3 new + {p} + pages r + (tables m 3 old + pages l)) :=
          hp.moves hmv₁
        have hsame : ∀ x ∈ tables m 3 old, m₁.ram x = m.ram x := fun x hx =>
          hmv₁.keeps hp (mem_add.mpr (.inl hx))
        -- the step takes pages for the table only
        have hframe : ∀ x ∈ pages r + pages l, m₁.ram x = m.ram x := by
          refine fun x => h.moves.keeps (F := pages r + pages l) (hp.mono ?_)
          rw [add_assoc]
          exact add_le_add le_rfl (add_le_add le_rfl (Multiset.le_add_left _ _))
        rcases h.done with ⟨rfl, hs₁, -⟩ | ⟨rfl, hs₁, -⟩
        · have hpages : pages (r ++ [(p &&& pgAddrMask) ||| (e &&& mask4kPage)]) = pages r + {p} := by
            rw [pages_append, pages_singleton, ptePage_or hval hfl.addr]
          have haddr : u64 (r.length * pgSize + pgSize) =
              (r ++ [(p &&& pgAddrMask) ||| (e &&& mask4kPage)]).length * pgSize := by
            rw [length_append, length_singleton]
            unfold maxPages at hk
            unfold u64 pgSize
            omega
          rw [if_neg (by simp), haddr]
          refine ih _ m₁ ?_ (hold.congr hsame) hs₁ (hp₁.congr ?_) (hmv.congr rfl ?_) ?_ (fun x hx => ?_)
            (halike.snoc (fun x hx => hframe x (mem_add.mpr (.inl hx))) hget ?_ ?_)
          · have := h.less
            omega
          · rw [hpages, tables_congr hsame, add_assoc (tables m₁ 3 new), add_comm (pages r)]
          · rw [hpages, add_assoc, add_comm (pages r)]
          · rw [length_append, length_singleton]
            exact hr
          · rw [hframe x (mem_add.mpr (.inr hx)), hkept x hx]
          · rw [Nat.and_or_distrib_right, Nat.and_assoc, show pgAddrMask &&& mask4kPage = 0 by decide, Nat.and_zero,
              Nat.zero_or, Nat.and_assoc, Nat.and_self]
          · rw [ptePage_or hval hfl.addr, h.page, ← hkept _ hmem]
            have hne : ptePage e ≠ p := by
              rintro rfl
              refine hp.not_free (mem_add.mpr (.inr (mem_add.mpr (.inr hmem)))) ?_
              rw [hcons]
              exact List.mem_cons_self
            show (m.taken p rest).ram (ptePage e) = _
            simp only [Mem.taken, Mem.setPage, Function.update_of_ne hne]
        · rw [if_pos (by decide), sat_bind, sat_kfree hval hp₁.hi hp₁.lo, sat_bind]
          obtain ⟨hs₂, ht₂⟩ := freed_space (p := p) hs₁
          have hfreed := freed_moves (m := m₁) p (tables m₁ 3 new)
          generalize ({ m₁ with freelist := p :: m₁.freelist } : Mem) = m₂ at hs₂ ht₂ hfreed ⊢
          have hp₂ : Pool m₂ (tables m₂ 3 new + pages r) := by
            rw [ht₂]
            exact (hp₁.moves (hfreed.add (pages r))).mono (Multiset.le_add_right _ _)
          have hmv₂ := (hmv.trans (hfreed.add (pages r))).congr rfl (by rw [← ht₂])
          exact (unmap_all hs₂ hp₂).imp fun _ m' h =>
            ⟨[], h.1, (hmv₂.trans h.2.2).congr rfl (by simp), .inr ⟨rfl, rfl⟩, .nil _ _ _⟩
    · refine ⟨r, hnew, hmoves, .inl ⟨rfl, le_antisymm hle ?_⟩, halike⟩
      rw [← hsz]
      unfold pgCount
      unfold pgSize at *
      omega

/-- **`uvmcopy` copies an address space into an empty table or leaves that table empty.** -/
theorem uvmcopy_spec {old new : Nat} (hold : Space m old l) (hnew : Space m new [])
    (hsz : pgCount size = l.length) (hp : Pool m (tables m 3 new + (tables m 3 old + pages l))) :
    Sat (uvmcopy old new size) m (fun x m' => ∃ r, Copied m m' new l r x) fun _ => False := by
  unfold uvmcopy
  rw [sat_bind, sat_get]
  have h := uvmcopyLoop_spec hsz (m.freelist.length + 1) [] m (Nat.lt_succ_self _) hold hnew
    (hp.congr (by simp)) ((Moves.refl m _).congr rfl (by simp)) (Nat.zero_le _) (fun _ _ => rfl) (.nil _ _ _)
  rwa [length_nil, Nat.zero_mul] at h

end Xv6Armv8.Vm

import Xv6Armv8.KernelExec

/-! The machine after `main`: `kinit` has given all pages above the kernel to the allocator, the rings of the
disk have three of them and the first process has its stack, its table and one page of code. -/

namespace Xv6Armv8.Kernel

open Spec Vm FileTable Exec Function List Multiset Option

variable {T H : Multiset Nat} {P : Prop} {k k' : Machine} {i c : Nat} {E : String → Prop} {lay : Layout}

/-! ### kinit -/

/-- The pages between the end of the kernel and the end of the memory. -/
def Layout.pages (lay : Layout) : List Nat :=
  (List.range ((kernBase + phyStop - pgRoundUp lay.kend) / pgSize)).map fun j => pgRoundUp lay.kend + j * pgSize

theorem Layout.start (lay : Layout) : pgRoundUp lay.kend % pgSize = 0 ∧ lay.kend ≤ pgRoundUp lay.kend ∧
    pgRoundUp lay.kend < lay.kend + pgSize := by
  have h1 := lay.lo
  have h2 := lay.hi
  unfold pgRoundUp u64
  unfold pgSize phyStop phyBase kernBase at *
  omega

theorem Layout.validPage (lay : Layout) {j : Nat} (hj : j < (kernBase + phyStop - pgRoundUp lay.kend) / pgSize) :
    ValidPage (pgRoundUp lay.kend + j * pgSize) := by
  obtain ⟨h0, h1, -⟩ := lay.start
  have h2 := lay.lo
  refine ⟨?_, by omega, ?_⟩
  · rw [Nat.add_mul_mod_self_right, h0]
  · unfold pgSize at *
    omega

theorem Layout.nodup (lay : Layout) : lay.pages.Nodup := by
  refine (List.nodup_range).map fun a b h => ?_
  unfold pgSize at h
  omega

theorem Layout.length_le (lay : Layout) : 9 ≤ lay.pages.length := by
  obtain ⟨-, h1, h2⟩ := lay.start
  have h3 := lay.hi
  rw [Layout.pages, length_map, length_range]
  unfold pgSize at *
  omega

theorem freerange_spec (n : Nat) : ∀ (p : Nat) (m : Mem), (∀ j, j < n → ValidPage (p + j * pgSize)) →
    m.kend ≤ kernBase + phyStop → kernBase ≤ m.kend →
    Sat (freerange n p) m (fun _ m' => m'.kend = m.kend ∧
      m'.freelist.Perm (((List.range n).map fun j => p + j * pgSize) ++ m.freelist)) E := by
  induction n with
  | zero => intro p m _ _ _; exact ⟨rfl, List.Perm.refl _⟩
  | succ n ih =>
    intro p m hval hhi hlo
    have hp : ValidPage p := by simpa using hval 0 (Nat.succ_pos n)
    unfold freerange
    rw [sat_bind, sat_kfree hp hhi hlo]
    refine (ih (p + pgSize) { m with freelist := p :: m.freelist } (fun j hj => ?_) hhi hlo).imp
      fun _ m' h => ⟨h.1, h.2.trans ?_⟩
    · have h := hval (j + 1) (by omega)
      rwa [show p + (j + 1) * pgSize = p + pgSize + j * pgSize by rw [Nat.add_mul]; omega] at h
    · have hmap : ((List.range (n + 1)).map fun j => p + j * pgSize) =
          p :: (List.range n).map fun j => p + pgSize + j * pgSize := by
        rw [range_succ_eq_map, List.map_cons, List.map_map, Nat.zero_mul, Nat.add_zero]
        congr 1
        refine map_congr_left fun j _ => ?_
        show p + (j + 1) * pgSize = _
        rw [Nat.add_mul]
        omega
      rw [hmap]
      exact perm_middle

theorem kinit_spec : Sat kinit (initial lay).mem (fun _ m => m.kend = lay.kend ∧ m.freelist.Perm lay.pages) E := by
  have h1 := lay.lo
  have h2 := lay.hi
  unfold kinit
  rw [sat_bind, sat_get]
  refine (freerange_spec _ _ _ (fun j hj => lay.validPage hj) ?_ ?_).imp fun _ m h => ⟨h.1, h.2.trans ?_⟩
  · show lay.kend ≤ _
    omega
  · show _ ≤ lay.kend
    omega
  · show (lay.pages ++ []).Perm _
    rw [append_nil]

variable {initcode : List UInt8} {m : Mem}

theorem inv_kinit (hk : m.kend = lay.kend) (hf : m.freelist.Perm lay.pages) :
    Inv ↑lay.pages True { initial lay with mem := m } 0 where
  eq := by
    have hown : ∀ j ∈ Finset.range nproc, own m ((initial lay).proc j) = 0 := fun j _ => rfl
    have hlive : livePipes (initial lay).ftable = ∅ := by
      unfold livePipes
      rw [Finset.image_eq_empty, Finset.filter_eq_empty_iff]
      intro f _ h
      cases h
    have huse : inUse { initial lay with mem := m } = 0 := by
      unfold inUse
      show (↑([] : List Nat) : Multiset Nat) + ∑ j ∈ Finset.range nproc, own m ((initial lay).proc j) +
        (livePipes (initial lay).ftable).val = 0
      rw [Finset.sum_eq_zero hown, hlive]
      rfl
    rw [huse, zero_add, zero_add]
    exact coe_eq_coe.mpr hf
  nodup := coe_nodup.mpr lay.nodup
  valid := fun x hx => by
    obtain ⟨j, hj, rfl⟩ := List.mem_map.mp (mem_coe.mp hx)
    exact lay.validPage (List.mem_range.mp hj)
  lo := by
    have h1 := lay.lo
    show kernBase ≤ m.kend
    rw [hk]
    omega
  hi := by
    have h1 := lay.hi
    show m.kend ≤ _
    rw [hk]
    omega
  procs := fun j _ => ⟨fun pt h => (some_ne_none pt h.symm).elim, fun _ => rfl, fun _ => ⟨rfl, rfl⟩,
    fun h => absurd rfl h⟩
  pipes := by
    have hnone : ∀ f, ((initial lay).ftable f).type ≠ .pipe := fun f h => FdType.noConfusion h
    exact ⟨fun f _ => hnone f, fun f _ => rfl, fun f g h => absurd h (hnone f), fun f w h => absurd h (hnone f)⟩
  run := fun c j h => (some_ne_none j h.symm).elim
  inj := fun c c' j h => (some_ne_none j h.symm).elim
  tlb := fun _ c j h => (some_ne_none j h.symm).elim

/-! ### The disk and the first process -/

theorem sat_kalloc_pos {Q : Option Nat → Mem → Prop} (hpos : 0 < m.freelist.length)
    (h : ∀ p rest, m.freelist = p :: rest → Q (some p) (m.taken p rest)) : Sat kalloc m Q E := by
  rw [sat_kalloc]
  refine ⟨fun hnil => ?_, h⟩
  rw [hnil] at hpos
  exact absurd hpos (Nat.lt_irrefl 0)

theorem Inv.rings {virtio : List Nat} (h : Inv T P k ↑virtio) (hnil : k.virtio = []) :
    Inv T P { k with virtio := virtio } 0 where
  eq := by
    have heq := h.eq
    rw [inUse, hnil, coe_nil, zero_add] at heq
    rw [inUse, ← heq]
    show ↑virtio + ∑ i ∈ Finset.range nproc, own k.mem (k.proc i) + (livePipes k.ftable).val + 0 +
      ↑k.mem.freelist = _
    rw [add_zero, add_assoc (↑virtio : Multiset Nat), add_comm (↑virtio : Multiset Nat)]
  nodup := h.nodup
  valid := h.valid
  lo := h.lo
  hi := h.hi
  procs := h.procs
  pipes := h.pipes
  run := h.run
  inj := h.inj
  tlb := h.tlb

theorem virtioDiskInit_spec (h : Inv T P k 0) (hnil : k.virtio = []) (hfree : 3 ≤ k.mem.freelist.length) :
    Sat virtioDiskInit k (fun _ k' => Inv T P k' 0 ∧ k'.proc = k.proc ∧ k'.cpu = k.cpu ∧
      k'.mem.freelist.length + 3 = k.mem.freelist.length) E := by
  unfold virtioDiskInit
  rw [sat_bind, sat_vm]
  refine sat_kalloc_pos (by omega) fun desc r₁ hc₁ => ?_
  rw [sat_bind, sat_vm]
  have hl₁ : k.mem.freelist.length = r₁.length + 1 := by rw [hc₁, length_cons]
  refine sat_kalloc_pos (by show 0 < r₁.length; omega) fun avail r₂ hc₂ => ?_
  have hl₂ : r₁.length = r₂.length + 1 := by
    rw [show r₁ = avail :: r₂ from hc₂, length_cons]
  rw [sat_bind, sat_vm]
  refine sat_kalloc_pos (by show 0 < r₂.length; omega) fun used r₃ hc₃ => ?_
  have hl₃ : r₂.length = r₃.length + 1 := by
    rw [show r₂ = used :: r₃ from hc₃, length_cons]
  dsimp only
  simp only [sat_bind, sat_vm, sat_memset, sat_modify]
  -- the three pages are held, then cleared, then the disk has them
  generalize hm : ((k.mem.taken desc r₁).taken avail r₂).taken used r₃ = m
  have hmv : Moves k.mem m 0 ↑[desc, avail, used] := by
    rw [← hm]
    exact ((kalloc_moves hc₁ 0).trans (kalloc_moves hc₂ _)).trans (kalloc_moves hc₃ _)
  have hw : Written m (((m.setPage desc fun _ => 0).setPage avail fun _ => 0).setPage used fun _ => 0)
      ↑[desc, avail, used] :=
    ((written_setPage (by simp)).trans (written_setPage (by simp))).trans (written_setPage (by simp))
  refine ⟨(h.held (hmv.trans hw.moves)).rings hnil, trivial, trivial, ?_⟩
  rw [← hm]
  show r₃.length + 3 = _
  omega

/-- The first process, ready to run: one page for the user, which holds its code. -/
structure First (k : Machine) (initcode : List UInt8) : Prop where
  state : (k.proc 0).state = .runnable
  size : (k.proc 0).size = pgSize
  space : ∃ pt e, (k.proc 0).pagetable = some pt ∧ Space k.mem pt [e] ∧ e &&& apUser ≠ 0 ∧
    k.mem.ram (ptePage e) = ByteStore.put (fun _ => 0) 0 initcode

theorem firstPages {ks pt : Nat} {r₁ r₂ : List Nat} (hc₁ : m.freelist = ks :: r₁) (hc₂ : r₁ = pt :: r₂) :
    ∃ m', ((((m.taken ks r₁).setPage ks fun _ => 0).taken pt r₂).setPage pt fun _ => 0) = m' ∧
      Moves m m' 0 ({ks} + {pt}) ∧ m'.freelist = r₂ ∧ m'.ram pt = fun _ => 0 := by
  refine ⟨_, rfl, ?_, rfl, ?_⟩
  · have h₁ := taken_moves (b := fun _ => 0) hc₁ 0
    have h₂ := taken_moves (b := fun _ => 0) (m := (m.taken ks r₁).setPage ks fun _ => 0) hc₂ (0 + {ks})
    exact (h₁.trans h₂).congr rfl (by rw [zero_add])
  · simp [Mem.setPage]

theorem uvmfirst_spec {pt : Nat} (hzero : m.ram pt = fun _ => 0)
    (hp : Pool m {pt}) (hfree : 4 ≤ m.freelist.length) :
    Sat (uvmfirst pt initcode) m (fun _ m' => ∃ e, Space m' pt [e] ∧ e &&& apUser ≠ 0 ∧
        m'.ram (ptePage e) = ByteStore.put (fun _ => 0) 0 initcode ∧
        m'.freelist.length + 4 = m.freelist.length ∧ Moves m m' {pt} (tables m' 3 pt + pages [e]))
      fun _ => pgSize < initcode.length := by
  obtain ⟨hs, ht, htight⟩ := space_of_zero hzero
  unfold uvmfirst
  rw [sat_ite]
  refine ⟨fun h => h, fun _ => ?_⟩
  rw [sat_bind]
  refine sat_kalloc_pos (by omega) fun pg rest hcons => ?_
  have hval : ValidPage pg := hp.valid_free pg (by rw [hcons]; exact List.mem_cons_self)
  dsimp only
  rw [sat_bind, sat_memset, sat_bind]
  have hlen : ([] : List Nat).length < maxPages := by
    unfold maxPages
    decide
  have hfl : IsFlags user4kPageRo := ⟨by decide, by decide, by decide⟩
  have hmap := mapNext_spec (a := v2p pg) (b := fun _ => 0) hs (hp.congr ht.symm) hlen hfl hcons
  rw [length_nil, Nat.zero_mul] at hmap
  refine hmap.mono ?_ fun _ h => h.elim
  intro r m₁ hn
  have hcost : cost 0 = 4 := by decide
  rcases hn.done with ⟨-, hs₁, hdone⟩ | ⟨-, -, hfail⟩
  · obtain ⟨-, hfree₁⟩ := hdone htight
    rw [length_nil, hcost] at hfree₁
    rw [sat_modify]
    have hpg : ptePage ((v2p pg &&& pgAddrMask) ||| user4kPageRo) = pg := by
      rw [v2p_page hval, Nat.and_assoc, Nat.and_self, ptePage_or hval hfl.addr]
    have hmv₁ : Moves m m₁ {pt} (tables m₁ 3 pt + {pg}) := hn.moves.congr ht rfl
    have hp₁ : Pool m₁ ({pg} + tables m₁ 3 pt) :=
      (hp.of_conserve hmv₁.conserve hmv₁.kend).congr (add_comm _ _)
    have hw : Written m₁ (m₁.setPage pg ((m₁.ram pg).put 0 initcode)) {pg} :=
      written_setPage (Multiset.mem_singleton_self pg)
    rw [nil_append] at hs₁
    obtain ⟨hs₂, ht₂⟩ := hw.space hs₁ hp₁
    refine ⟨_, hs₂, ?_, ?_, hfree₁, ?_⟩
    · rw [Nat.and_or_distrib_right, Nat.and_assoc, show pgAddrMask &&& apUser = 0 by decide, Nat.and_zero,
        Nat.zero_or]
      decide
    · rw [hpg, hn.page]
      exact update_self ..
    · refine hmv₁.trans ((hw.moves.add (tables m₁ 3 pt)).congr (add_comm _ _) ?_)
      rw [ht₂, pages_singleton, hpg, add_comm]
  · have := hfail htight
    rw [length_nil, hcost] at this
    omega

theorem userinit_spec (h : Inv T P k 0) (hempty : ∀ j, k.proc j = emptyProc)
    (hcpu : ∀ c, (k.cpu c).proc = none) (hfree : 6 ≤ k.mem.freelist.length) :
    Sat (userinit initcode) k (fun _ k' => Inv T P k' 0 ∧ First k' initcode ∧ (∀ c, (k'.cpu c).proc = none) ∧
        k'.mem.freelist.length + 6 = k.mem.freelist.length)
      fun _ => pgSize < initcode.length := by
  have hfind : ((List.range nproc).find? fun j => (k.proc j).state = .unused) = some 0 := by
    simp only [hempty]
    decide
  unfold userinit allocproc
  rw [sat_bind, sat_bind, sat_get, hfind]
  dsimp only
  rw [sat_bind, sat_setProc, sat_bind, sat_modify, sat_bind, sat_vm]
  refine sat_kalloc_pos (by show 0 < k.mem.freelist.length; omega) fun ks r₁ hc₁ => ?_
  have hl₁ : k.mem.freelist.length = r₁.length + 1 := by rw [show k.mem.freelist = ks :: r₁ from hc₁, length_cons]
  dsimp only
  rw [sat_bind, sat_setProc, sat_bind, sat_vm, sat_memset, sat_bind, sat_vm]
  refine sat_kalloc_pos (by show 0 < r₁.length; omega) fun pt r₂ hc₂ => ?_
  have hl₂ : r₁.length = r₂.length + 1 := by rw [show r₁ = pt :: r₂ from hc₂, length_cons]
  dsimp only
  rw [sat_bind, sat_setProc, sat_bind, sat_vm, sat_memset, sat_pure, sat_bind, sat_modify, sat_bind, sat_get]
  obtain ⟨m₂, hm₂, hmv₂, hfree₂, hzero⟩ := firstPages hc₁ hc₂
  simp only [update_self, update_idem]
  rw [sat_bind, sat_deref_some, sat_bind, sat_vm]
  dsimp only
  rw [hm₂]
  have hp₀ : Pool k.mem 0 := h.pool.mono (Multiset.zero_le _)
  have hp₂ : Pool m₂ ({ks} + {pt}) := hp₀.of_conserve hmv₂.conserve hmv₂.kend
  refine (uvmfirst_spec hzero (hp₂.mono (Multiset.le_add_left _ _)) (by rw [hfree₂]; omega)).imp fun _ m₃ h₃ => ?_
  obtain ⟨e, hs₃, huser, hcode, hfree₃, hmv₃⟩ := h₃
  rw [sat_bind, sat_get]
  simp only [update_self]
  rw [sat_bind, sat_deref_some, sat_bind, sat_vm]
  refine written_setTf fun m₄ hw₄ _ => ?_
  rw [sat_bind, sat_vm]
  refine written_setTf fun m₅ hw₅ _ => ?_
  rw [sat_setProc]
  have hw : Written m₃ m₅ {ks} := hw₄.trans hw₅
  have hmv₃' : Moves m₂ m₃ ({ks} + {pt}) ({ks} + (tables m₃ 3 pt + pages [e])) :=
    (hmv₃.add {ks}).congr (add_comm _ _) (add_comm _ _)
  have hp₃ := hp₂.of_conserve hmv₃'.conserve hmv₃'.kend
  obtain ⟨hs₅, ht₅⟩ := hw.space hs₃ (hp₃.mono (add_le_add le_rfl (Multiset.le_add_right _ _)))
  have hmv : Moves k.mem m₅ 0 ({ks} + (tables m₅ 3 pt + pages [e])) :=
    (hmv₂.trans hmv₃').trans ((hw.moves.add _).congr rfl (by rw [ht₅]))
  have hpage : m₅.ram (ptePage e) = m₃.ram (ptePage e) := by
    refine hw.frame _ (hp₃.disjoint ?_)
    rw [pages_singleton]
    exact mem_add.mpr (.inr (Multiset.mem_singleton_self _))
  have hown : own k.mem (k.proc 0) = 0 := by
    rw [hempty]
    rfl
  have hst : (k.proc 0).state ≠ .running := by
    rw [hempty]
    decide
  refine ⟨?_, ⟨?_, ?_, pt, e, ?_, hs₅, huser, ?_⟩, hcpu, ?_⟩
  · simp only [update_self, update_idem]
    refine Inv.counters (k := { k with mem := m₅, proc := update k.proc 0 _ }) ?_ _ 0
    refine h.update (by decide) ?_ ?_ (fun hr => absurd hr hst) fun _ hr => absurd hr hst
    · refine hmv.congr (by rw [hown, zero_add]) ?_
      rw [own, add_zero, stackPages, spacePages, hs₅.leafPages_eq]
    · refine ⟨fun pt' hpt' => ?_, fun hnone => ?_, fun hun => ?_, fun _ _ => ⟨rfl, rfl⟩⟩
      · cases hpt'
        exact ⟨[e], hs₅, (by decide : pgCount pgSize = 1)⟩
      · cases hnone
      · cases hun
  · simp only [update_self]
  · simp only [update_self]
  · simp only [update_self]
  · show m₅.ram (ptePage e) = _
    rw [hpage, hcode]
  · show m₅.freelist.length + 6 = _
    rw [hw.free]
    rw [hfree₂] at hfree₃
    omega

/-- **The machine boots**: all pages are free or in use, each once, and only code of more than a page makes
it panic. -/
theorem boot_spec :
    Sat (boot initcode) (initial lay) (fun _ k => Inv ↑lay.pages True k 0 ∧ First k initcode ∧
        (∀ c, (k.cpu c).proc = none) ∧ k.mem.freelist.length + 9 = lay.pages.length)
      fun _ => pgSize < initcode.length := by
  have hlen := lay.length_le
  unfold boot
  rw [sat_bind, sat_vm]
  refine kinit_spec.imp fun _ m hm => ?_
  have hl : m.freelist.length = lay.pages.length := hm.2.length_eq
  refine (virtioDiskInit_spec (inv_kinit hm.1 hm.2) rfl ?_).bind fun _ k₁ h₁ => ?_
  · show 3 ≤ m.freelist.length
    omega
  obtain ⟨hinv₁, hproc₁, hcpu₁, hfree₁⟩ := h₁
  have hfree₁' : k₁.mem.freelist.length + 3 = m.freelist.length := hfree₁
  refine (userinit_spec hinv₁ ?_ ?_ (by omega)).imp fun _ k₂ h₂ => ?_
  · intro j
    rw [hproc₁]
    rfl
  · intro c
    rw [hcpu₁]
    rfl
  · exact ⟨h₂.1, h₂.2.1, h₂.2.2.1, by omega⟩

theorem boot_ok (lay : Layout) (hlen : initcode.length ≤ pgSize) :
    ∃ k, boot initcode (initial lay) = .ok ((), k) ∧ Inv ↑lay.pages True k 0 ∧ First k initcode ∧
      (∀ c, (k.cpu c).proc = none) ∧ k.mem.freelist.length + 9 = lay.pages.length := by
  have h : Sat (boot initcode) (initial lay) _ fun _ => False :=
    boot_spec.mono (fun _ _ h => h) fun _ h => absurd h (not_lt.mpr hlen)
  obtain ⟨_, k, hk, hQ⟩ := h.ok
  exact ⟨k, hk, hQ⟩

end Xv6Armv8.Kernel

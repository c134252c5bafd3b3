import Xv6Armv8.LibBytes
import Xv6Armv8.LibRun
import Xv6Armv8.LibSpec
import Xv6Armv8.VmModel

/-! The page allocator down to its link words (`kalloc.c`). A free page holds the address of the next one in its
first eight bytes, and `kmem.freelist` is the address of the first; here a page may be freed that is on the list
already, and a link word is whatever the memory holds. The results are what `kfree` accepts, and that a run in which
nobody frees a page twice or a page below `end` keeps the list inside the range `kinit` gave. For such runs the list
of pages of the other modules is the list the link words spell out. -/

namespace Xv6Armv8.Kalloc

open Spec Vm List StepRun

structure Kmem where
  ram : ByteStore
  /-- The first page, 0 for none. -/
  freelist : Nat
  /-- The symbol `end`, as a virtual address. -/
  kend : Nat

abbrev KmemM := StateT Kmem (Except String)

/-- `KERN_BASE + end` is computed in 64 bits. -/
def kfree (paddr : Nat) : KmemM Unit := do
  let s ← get
  if paddr % pgSize ≠ 0 ∨ paddr < u64 (kernBase + s.kend) ∨ kernBase + phyStop ≤ paddr then throw "kfree"
  else set { s with ram := s.ram.st paddr 8 s.freelist, freelist := paddr }

def kalloc : KmemM Nat := do
  let r := (← get).freelist
  if r ≠ 0 then
    modify fun s => { s with freelist := s.ram.ld r 8 }
    modify fun s => { s with ram := s.ram.fill r pgSize 5 }
  else pure ()
  return r

/-- `freerange` from the page `p` on, `n` pages. -/
def freerange : Nat → Nat → KmemM Unit
  | 0, _ => return ()
  | n + 1, p => do
    kfree p
    freerange n (p + pgSize)

def kinit : KmemM Unit := do
  let p := pgRoundUp (← get).kend
  freerange ((kernBase + phyStop - p) / pgSize) p

inductive Event
  | kalloc
  | kfree (paddr : Nat)

def step (s : Kmem) : Event → Option Kmem
  | .kalloc =>
    match kalloc s with
    | .ok (_, t) => some t
    | .error _ => none
  | .kfree paddr =>
    match kfree paddr s with
    | .ok (_, t) => some t
    | .error _ => none

/-! ### The range -/

/-- The pages the allocator is for. -/
structure InRange (kend a : Nat) : Prop where
  aligned : a % pgSize = 0
  lo : kend ≤ a
  hi : a < kernBase + phyStop

/-- The symbol `end` lies in the memory, above the addresses the linker script starts at. -/
structure InMemory (kend : Nat) : Prop where
  lo : kernBase + phyBase ≤ kend
  hi : kend ≤ kernBase + phyStop

/-- The page-aligned addresses below `end` that the test of `kfree` lets pass. -/
structure BelowEnd (kend a : Nat) : Prop where
  aligned : a % pgSize = 0
  lo : kend - 2 ^ 48 ≤ a
  hi : a < kend

variable {s t : Kmem} {a kend : Nat} {E : String → Prop}

theorem wrapped_end (hk : InMemory kend) : u64 (kernBase + kend) = kend - 2 ^ 48 := by
  have h1 := hk.lo
  have h2 := hk.hi
  unfold u64
  unfold phyStop phyBase kernBase at *
  omega

theorem kfree_eq (hk : InMemory s.kend) (a : Nat) : kfree a s =
    if a % pgSize = 0 ∧ s.kend - 2 ^ 48 ≤ a ∧ a < kernBase + phyStop then
      .ok ((), { s with ram := s.ram.st a 8 s.freelist, freelist := a })
    else .error "kfree" := by
  show (if a % pgSize ≠ 0 ∨ a < u64 (kernBase + s.kend) ∨ kernBase + phyStop ≤ a then throw "kfree"
    else set { s with ram := s.ram.st a 8 s.freelist, freelist := a } : KmemM Unit) s = _
  rw [wrapped_end hk]
  by_cases h : a % pgSize = 0 ∧ s.kend - 2 ^ 48 ≤ a ∧ a < kernBase + phyStop
  · rw [if_pos h, if_neg (by omega)]
    rfl
  · rw [if_neg h, if_pos (by omega)]
    rfl

/-- What `kfree` accepts: the range, and the addresses below `end` that pass because `end` is offset twice. -/
theorem kfree_ok_iff (hk : InMemory s.kend) (a : Nat) :
    (∃ t, kfree a s = .ok ((), t)) ↔ InRange s.kend a ∨ BelowEnd s.kend a := by
  have hstop : s.kend ≤ kernBase + phyStop := hk.hi
  rw [kfree_eq hk]
  split
  · next h =>
      refine iff_of_true ⟨_, rfl⟩ ?_
      by_cases hend : s.kend ≤ a
      · exact .inl ⟨h.1, hend, h.2.2⟩
      · exact .inr ⟨h.1, h.2.1, not_le.mp hend⟩
  · next h =>
      refine iff_of_false (fun ⟨t, ht⟩ => by cases ht) ?_
      rintro (hin | hbelow)
      · exact h ⟨hin.aligned, le_trans (Nat.sub_le _ _) hin.lo, hin.hi⟩
      · exact h ⟨hbelow.aligned, hbelow.lo, lt_of_lt_of_le hbelow.hi hstop⟩

theorem kfree_guard (hk : InMemory s.kend) (a : Nat) :
    ((∃ t, kfree a s = .ok ((), t)) ↔ InRange s.kend a) ↔ ¬BelowEnd s.kend a := by
  rw [kfree_ok_iff hk]
  constructor
  · intro h hbelow
    exact absurd (h.mp (.inr hbelow)).lo (not_le.mpr hbelow.hi)
  · intro h
    exact or_iff_left h

/-! ### The list the link words spell out -/

/-- A page that can be reached from the head of the list. -/
inductive OnList (ram : ByteStore) : Nat → Nat → Prop
  | head {p : Nat} : p ≠ 0 → OnList ram p p
  | next {p x : Nat} : p ≠ 0 → OnList ram (ram.ld p 8) x → OnList ram p x

/-- The link words from `p` on lead through the pages of the list. -/
def Chain (ram : ByteStore) : Nat → List Nat → Prop
  | p, [] => p = 0
  | p, q :: l => p = q ∧ q ≠ 0 ∧ Chain ram (ram.ld q 8) l

variable {ram ram' : ByteStore} {p x : Nat} {l : List Nat}

theorem Chain.mem (hc : Chain ram p l) (h : OnList ram p x) : x ∈ l := by
  induction l generalizing p with
  | nil =>
    cases h with
    | head h => exact absurd hc h
    | next h _ => exact absurd hc h
  | cons q l ih =>
    obtain ⟨rfl, -, hrest⟩ := hc
    cases h with
    | head _ => exact mem_cons_self
    | next _ h => exact mem_cons_of_mem _ (ih hrest h)

theorem Chain.congr (h : ∀ q ∈ l, ram'.ld q 8 = ram.ld q 8) (hc : Chain ram p l) : Chain ram' p l := by
  induction l generalizing p with
  | nil => exact hc
  | cons q l ih =>
    obtain ⟨rfl, h0, hrest⟩ := hc
    refine ⟨rfl, h0, ?_⟩
    rw [h p mem_cons_self]
    exact ih (fun q hq => h q (mem_cons_of_mem _ hq)) hrest

/-- The list is made of pages of the range, each once. -/
structure Good (s : Kmem) (l : List Nat) : Prop where
  memory : InMemory s.kend
  chain : Chain s.ram s.freelist l
  nodup : l.Nodup
  range : ∀ x ∈ l, InRange s.kend x

theorem InRange.ne_zero (hk : InMemory kend) (h : InRange kend a) : a ≠ 0 := by
  have h1 := hk.lo
  have h2 := h.lo
  unfold kernBase phyBase at h1
  omega

theorem InRange.apart {b : Nat} (ha : InRange kend a) (hb : InRange kend b) (hne : a ≠ b) :
    a + pgSize ≤ b ∨ b + pgSize ≤ a := by
  have h1 := ha.aligned
  have h2 := hb.aligned
  unfold pgSize at *
  omega

theorem Good.kfree (h : Good s l) (ha : InRange s.kend a) (hnew : a ∉ l) :
    Sat (kfree a) s (fun _ t => t.kend = s.kend ∧ Good t (a :: l)) E := by
  have hok : a % pgSize = 0 ∧ s.kend - 2 ^ 48 ≤ a ∧ a < kernBase + phyStop :=
    ⟨ha.aligned, le_trans (Nat.sub_le _ _) ha.lo, ha.hi⟩
  rw [sat_of_eq ((kfree_eq h.memory a).trans (if_pos hok))]
  have hlink : (s.ram.st a 8 s.freelist).ld a 8 = s.freelist % 256 ^ 8 := ByteStore.ld_st_self ..
  have hhead : s.freelist < 256 ^ 8 := by
    cases l with
    | nil =>
      rw [show s.freelist = 0 from h.chain]
      decide
    | cons q l =>
      have hq := (h.range q mem_cons_self).hi
      rw [h.chain.1]
      unfold kernBase phyStop phyBase at hq
      omega
  refine ⟨rfl, h.memory, ⟨rfl, ha.ne_zero h.memory, ?_⟩, nodup_cons.mpr ⟨hnew, h.nodup⟩, fun x hx => ?_⟩
  · show Chain (s.ram.st a 8 s.freelist) ((s.ram.st a 8 s.freelist).ld a 8) l
    rw [hlink, Nat.mod_eq_of_lt hhead]
    refine h.chain.congr fun q hq => ByteStore.ld_st_of_disjoint ?_
    have := (h.range q hq).apart ha fun heq => hnew (heq ▸ hq)
    unfold pgSize at this
    omega
  · rcases mem_cons.mp hx with rfl | hx
    · exact ha
    · exact h.range x hx

theorem Good.kalloc (h : Good s l) : Sat kalloc s (fun r t => t.kend = s.kend ∧
    ((r = 0 ∧ l = [] ∧ Good t []) ∨ ∃ l', l = r :: l' ∧ Good t l')) E := by
  unfold Kalloc.kalloc
  rw [sat_bind, sat_get]
  dsimp only
  rw [sat_ite]
  refine ⟨fun h0 => ?_, fun h0 => ?_⟩
  · simp only [sat_bind, sat_modify, sat_pure]
    cases l with
    | nil => exact absurd h.chain h0
    | cons q l =>
      obtain ⟨hq, -, hrest⟩ := h.chain
      obtain ⟨hql, hnd⟩ := nodup_cons.mp h.nodup
      refine ⟨trivial, .inr ⟨l, by rw [hq], h.memory, ?_, hnd, fun x hx => h.range x (mem_cons_of_mem _ hx)⟩⟩
      show Chain (s.ram.fill s.freelist pgSize 5) (s.ram.ld s.freelist 8) l
      rw [hq]
      refine hrest.congr fun x hx => ByteStore.ld_fill_of_disjoint ?_
      have := (h.range x (mem_cons_of_mem _ hx)).apart (h.range q mem_cons_self) fun heq => hql (heq ▸ hx)
      unfold pgSize at this ⊢
      omega
  · simp only [sat_pure]
    have hz : s.freelist = 0 := not_not.mp h0
    cases l with
    | nil => exact ⟨trivial, .inl ⟨hz, rfl, h⟩⟩
    | cons q l => exact absurd (h.chain.1.symm.trans hz) h.chain.2.1

/-! ### kinit -/

theorem freerange_good (n : Nat) : ∀ (p : Nat) (s : Kmem) (l : List Nat), Good s l →
    (∀ j, j < n → InRange s.kend (p + j * pgSize)) → (∀ x ∈ l, x < p) →
    Sat (freerange n p) s (fun _ t => t.kend = s.kend ∧ ∃ l', Good t l') E := by
  induction n with
  | zero => intro p s l h _ _; exact ⟨rfl, l, h⟩
  | succ n ih =>
    intro p s l h hrange hlt
    have hp : InRange s.kend p := by simpa using hrange 0 (Nat.succ_pos n)
    unfold freerange
    refine (h.kfree hp fun hmem => Nat.lt_irrefl p (hlt p hmem)).bind fun _ t ht => ?_
    obtain ⟨hkend, hgood⟩ := ht
    refine (ih (p + pgSize) t (p :: l) hgood (fun j hj => ?_) fun x hx => ?_).imp fun _ u hu =>
      ⟨hu.1.trans hkend, hu.2⟩
    · have hr := hrange (j + 1) (by omega)
      rw [hkend]
      rwa [show p + (j + 1) * pgSize = p + pgSize + j * pgSize by rw [Nat.add_mul]; omega] at hr
    · unfold pgSize
      rcases mem_cons.mp hx with rfl | hx
      · omega
      · have := hlt x hx
        omega

theorem kinit_good (hk : InMemory s.kend) (hempty : s.freelist = 0) :
    Sat kinit s (fun _ t => t.kend = s.kend ∧ ∃ l, Good t l) E := by
  unfold kinit
  rw [sat_bind, sat_get]
  have hgood : Good s [] := ⟨hk, hempty, nodup_nil, fun x hx => by cases hx⟩
  refine freerange_good _ _ s [] hgood (fun j hj => ?_) fun x hx => by cases hx
  have h1 := hk.lo
  have h2 := hk.hi
  have hround : pgRoundUp s.kend % pgSize = 0 ∧ s.kend ≤ pgRoundUp s.kend := by
    unfold pgRoundUp u64
    unfold pgSize phyStop phyBase kernBase at *
    omega
  refine ⟨?_, ?_, ?_⟩
  · rw [Nat.add_mul_mod_self_right, hround.1]
  · omega
  · unfold pgSize at *
    omega

/-! ### The list of pages of the other modules -/

/-- The link words spell out the list of a memory whose free pages are kept as a list. -/
structure Abs (s : Kmem) (m : Mem) : Prop where
  good : Good s m.freelist
  kend : m.kend = s.kend

theorem Abs.kfree {m : Mem} (h : Abs s m) (ha : InRange s.kend a) (hnew : a ∉ m.freelist) :
    ∃ t m', kfree a s = .ok ((), t) ∧ Vm.kfree a m = .ok ((), m') ∧ Abs t m' := by
  obtain ⟨_, t, ht, hkend, hg⟩ := (h.good.kfree ha hnew).ok
  refine ⟨t, { m with freelist := a :: m.freelist }, ht, ?_, hg, h.kend.trans hkend.symm⟩
  have hlo := le_trans (Nat.sub_le _ (2 ^ 48)) ha.lo
  have hwrap := wrapped_end h.good.memory
  show (if a % pgSize ≠ 0 ∨ a < u64 (kernBase + m.kend) ∨ kernBase + phyStop ≤ a then throw "kfree"
    else set { m with freelist := a :: m.freelist } : VmM Unit) m = _
  have hhi := ha.hi
  rw [h.kend, hwrap, if_neg (by rw [ha.aligned]; omega)]
  rfl

theorem Abs.kalloc {m : Mem} (h : Abs s m) : ∃ r t m', kalloc s = .ok (r, t) ∧
    Vm.kalloc m = .ok (if r = 0 then none else some r, m') ∧ Abs t m' := by
  obtain ⟨r, t, ht, hkend, hout⟩ := h.good.kalloc.ok
  rcases hout with ⟨rfl, hnil, hg⟩ | ⟨l, hcons, hg⟩
  · refine ⟨0, t, m, ht, ?_, by rwa [hnil], h.kend.trans hkend.symm⟩
    obtain ⟨ram, freelist, kend⟩ := m
    obtain rfl : freelist = [] := hnil
    rfl
  · have hr : r ≠ 0 := (h.good.range r (hcons ▸ mem_cons_self)).ne_zero h.good.memory
    refine ⟨r, t, { m with freelist := l }.setPage r fun _ => 5, ht, ?_, hg, h.kend.trans hkend.symm⟩
    rw [if_neg hr]
    obtain ⟨ram, freelist, kend⟩ := m
    obtain rfl : freelist = r :: l := hcons
    rfl

/-! ### Runs -/

/-- A page is freed that is not below `end` and not on the list. -/
def Fair (s : Kmem) : Event → Prop
  | .kalloc => True
  | .kfree paddr => ¬BelowEnd s.kend paddr ∧ ¬OnList s.ram s.freelist paddr

theorem Chain.onList (hc : Chain ram p l) (hx : x ∈ l) : OnList ram p x := by
  induction l generalizing p with
  | nil => cases hx
  | cons q l ih =>
    obtain ⟨rfl, h0, hrest⟩ := hc
    rcases mem_cons.mp hx with rfl | hx
    · exact .head h0
    · exact .next h0 (ih hrest hx)

theorem Good.step {e : Event} (h : Good s l) (hfair : Fair s e) (hs : step s e = some t) :
    t.kend = s.kend ∧ ∃ l', Good t l' := by
  cases e with
  | kalloc =>
    simp only [Kalloc.step] at hs
    split at hs
    · next r u hu =>
        cases hs
        obtain ⟨hkend, hr⟩ := (h.kalloc (E := fun _ => False)).of_ok hu
        rcases hr with ⟨-, -, hg⟩ | ⟨l', -, hg⟩
        · exact ⟨hkend, _, hg⟩
        · exact ⟨hkend, _, hg⟩
    · cases hs
  | kfree paddr =>
    simp only [Kalloc.step] at hs
    split at hs
    · next r u hu =>
        cases hs
        have hin : InRange s.kend paddr :=
          ((kfree_ok_iff h.memory paddr).mp ⟨_, hu⟩).resolve_right hfair.1
        obtain ⟨hkend, hg⟩ := (h.kfree (E := fun _ => False) hin fun hmem =>
          hfair.2 (h.chain.onList hmem)).of_ok hu
        exact ⟨hkend, _, hg⟩
    · cases hs

theorem run_good {tr : List Event} (h : Good s l) (hr : Run step Fair s tr t) :
    t.kend = s.kend ∧ ∃ l', Good t l' := by
  refine hr.invariant (P := fun u => u.kend = s.kend ∧ ∃ l', Good u l') ⟨rfl, l, h⟩ ?_
  rintro a e b ⟨hkend, l', hl'⟩ hfair hs
  obtain ⟨hkend', hg⟩ := hl'.step hfair hs
  exact ⟨hkend'.trans hkend, hg⟩

/-- `kfree` accepts exactly the pages of the range if its argument is not one of the addresses below `end` that its
test lets pass, and panics on all others. In a run that frees no such page and none that is free already, the list
stays inside the range, and so does what `kalloc` hands out. -/
theorem allocator_keeps_range (s : Kmem) (hk : InMemory s.kend) :
    (∀ a, (((∃ t, kfree a s = .ok ((), t)) ↔ InRange s.kend a) ↔ ¬BelowEnd s.kend a) ∧
      ((∃ t, kfree a s = .ok ((), t)) ∨ kfree a s = .error "kfree")) ∧
    (s.freelist = 0 → ∃ t, kinit s = .ok ((), t) ∧ ∀ tr u, Run step Fair t tr u →
      (∀ x, OnList u.ram u.freelist x → InRange s.kend x) ∧
      ∃ r v, kalloc u = .ok (r, v) ∧ (r = 0 ∨ InRange s.kend r)) := by
  refine ⟨fun a => ⟨kfree_guard hk a, ?_⟩, fun hempty => ?_⟩
  · rw [kfree_eq hk]
    split
    · exact .inl ⟨_, rfl⟩
    · exact .inr rfl
  · obtain ⟨_, t, hinit, hkend, l, hg⟩ := (kinit_good hk hempty).ok
    refine ⟨t, hinit, fun tr u hrun => ?_⟩
    obtain ⟨hkend', l', hg'⟩ := run_good hg hrun
    rw [hkend] at hkend'
    refine ⟨fun x hx => hkend' ▸ hg'.range x (hg'.chain.mem hx), ?_⟩
    obtain ⟨r, v, hr, -, hout⟩ := (hg'.kalloc).ok
    refine ⟨r, v, hr, ?_⟩
    rcases hout with ⟨h0, -, -⟩ | ⟨l'', hl'', -⟩
    · exact .inl h0
    · exact .inr (hkend' ▸ hg'.range r (hl'' ▸ mem_cons_self))

/-- A kernel that ends two pages below the end of the memory. -/
def small : Kmem := ⟨fun _ => 0, 0, kernBase + phyStop - 2 * pgSize⟩

theorem inMemory_small : InMemory small.kend := ⟨by decide, by decide⟩

/-- One of its two pages is taken and given back. -/
theorem allocator_keeps_range_small : ∃ t u, kinit small = .ok ((), t) ∧
    Run step Fair t [.kalloc, .kfree (kernBase + phyStop - pgSize)] u ∧
    ∀ x, OnList u.ram u.freelist x → InRange small.kend x := by
  obtain ⟨t, hinit, hruns⟩ := (allocator_keeps_range small inMemory_small).2 rfl
  have hhead : (kinit small).toOption.map (fun p => p.2.freelist) = some (kernBase + phyStop - pgSize) := by
    decide +kernel
  rw [hinit] at hhead
  have hhead : t.freelist = kernBase + phyStop - pgSize := Option.some.inj hhead
  obtain ⟨hkend, l, hg⟩ := (kinit_good (E := fun _ => False) inMemory_small rfl).of_ok hinit
  obtain ⟨r, v, hv, hkend', hout⟩ := hg.kalloc.ok
  rcases hout with ⟨-, rfl, -⟩ | ⟨l', rfl, hg'⟩
  · exact absurd (hhead.symm.trans hg.chain) (by decide)
  · have hr : r = kernBase + phyStop - pgSize := hg.chain.1.symm.trans hhead
    have hrange : InRange v.kend r := by
      rw [hkend']
      exact hg.range r mem_cons_self
    have hnew : r ∉ l' := (nodup_cons.mp hg.nodup).1
    obtain ⟨_, u, hu, -, -⟩ := (hg'.kfree hrange hnew).ok
    have h1 : step t .kalloc = some v := by simp only [step, hv]
    have h2 : step v (.kfree r) = some u := by simp only [step, hu]
    have hfair : Fair v (.kfree r) :=
      ⟨fun h => absurd hrange.lo (not_le.mpr h.hi), fun h => hnew (hg'.chain.mem h)⟩
    have hfirst : Run step Fair t [.kalloc] v := .snoc .nil trivial h1
    have hrun : Run step Fair t [.kalloc, .kfree r] u := .snoc hfirst hfair h2
    exact ⟨t, u, hinit, hr ▸ hrun, (hruns _ u hrun).1⟩

/-- A page of the kernel itself is freed and handed out; and a page that is freed while it is free leaves the bytes
`kalloc` writes into it as the head of the list. -/
theorem kernel_page_handed_out : ¬InRange small.kend (kernBase + phyBase) ∧
    ((do kfree (kernBase + phyBase); kalloc) small).toOption.map Prod.fst = some (kernBase + phyBase) ∧
    ((do kinit; kfree (kernBase + phyStop - pgSize); let _ ← kalloc; kalloc) small).toOption.map
      (fun p : Nat × Kmem => p.2.freelist) = some 0x0505050505050505 := by
  refine ⟨fun h => absurd h.lo (by decide), by decide +kernel, by decide +kernel⟩

/-! ### The list of pages -/

/-- A call on the allocator that keeps a list. -/
def listStep (m : Mem) : Event → Option Mem
  | .kalloc => (Vm.kalloc m).toOption.map Prod.snd
  | .kfree paddr => (Vm.kfree paddr m).toOption.map Prod.snd

theorem kfree_of_step (hs : step s (.kfree a) = some t) : kfree a s = .ok ((), t) := by
  simp only [step] at hs
  split at hs
  · next hu =>
      cases hs
      exact hu
  · cases hs

theorem Abs.step {m : Mem} {e : Event} (h : Abs s m) (hfair : Fair s e) (hs : step s e = some t) :
    ∃ m', listStep m e = some m' ∧ Abs t m' := by
  cases e with
  | kalloc =>
    obtain ⟨r, u, m', hu, hm, habs⟩ := h.kalloc
    simp only [Kalloc.step, hu] at hs
    cases hs
    refine ⟨m', ?_, habs⟩
    rw [listStep, hm]
    rfl
  | kfree paddr =>
    have hok := kfree_of_step hs
    have hin : InRange s.kend paddr :=
      ((kfree_ok_iff h.good.memory paddr).mp ⟨_, hok⟩).resolve_right hfair.1
    obtain ⟨u, m', hu, hm, habs⟩ := h.kfree hin fun hmem => hfair.2 (h.good.chain.onList hmem)
    cases hu.symm.trans hok
    refine ⟨m', ?_, habs⟩
    rw [listStep, hm]
    rfl

/-- **The link words are a list of pages.** What the allocator does in a run of calls that free no page twice and
none below `end`, the allocator that keeps a list does as well: the words spell out its list, which has every page
once, and `kalloc` hands out the page that is first in it. -/
theorem link_words_refined (hk : InMemory s.kend) (hempty : s.freelist = 0) (ram : Nat → ByteStore) :
    ∃ t l, kinit s = .ok ((), t) ∧ ∀ tr u, Run step Fair t tr u →
      ∃ m, Run listStep (fun _ _ => True) ⟨ram, l, s.kend⟩ tr m ∧
        Chain u.ram u.freelist m.freelist ∧ m.freelist.Nodup ∧
        ∃ r v m', kalloc u = .ok (r, v) ∧ Vm.kalloc m = .ok (if r = 0 then none else some r, m') := by
  obtain ⟨_, t, hinit, hkend, l, hg⟩ := (kinit_good hk hempty).ok
  refine ⟨t, l, hinit, fun tr u hrun => ?_⟩
  obtain ⟨m, hm, habs⟩ : ∃ m, Run listStep (fun _ _ => True) ⟨ram, l, s.kend⟩ tr m ∧ Abs u m := by
    refine hrun.invariant_trace (P := fun tr u => ∃ m, Run listStep _ _ tr m ∧ Abs u m)
      ⟨_, .nil, hg, hkend.symm⟩ ?_
    rintro tr a e b ⟨m, hm, habs⟩ hfair hs
    obtain ⟨m', hstep, habs'⟩ := habs.step hfair hs
    exact ⟨m', .snoc hm trivial hstep, habs'⟩
  obtain ⟨r, v, m', hv, hm', -⟩ := habs.kalloc
  exact ⟨m, hm, habs.good.chain, habs.good.nodup, r, v, m', hv, hm'⟩

theorem link_words_refined_small : ∃ t u l m, kinit small = .ok ((), t) ∧ Run step Fair t [.kalloc] u ∧
    Run listStep (fun _ _ => True) ⟨fun _ _ => 0, l, small.kend⟩ [.kalloc] m ∧
    Chain u.ram u.freelist m.freelist := by
  obtain ⟨t, l, hinit, hruns⟩ := link_words_refined inMemory_small rfl fun _ _ => 0
  obtain ⟨-, l', hg⟩ := (kinit_good (E := fun _ => False) inMemory_small rfl).of_ok hinit
  obtain ⟨r, u, hu, -⟩ := hg.kalloc.ok
  have hrun : Run step Fair t [.kalloc] u := .snoc .nil trivial (by simp only [step, hu])
  obtain ⟨m, hm, hchain, -⟩ := hruns _ u hrun
  exact ⟨t, u, l, m, hinit, hrun, hm, hchain⟩

end Xv6Armv8.Kalloc

import Xv6Armv8.KernelSurvive

/-! Isolation of user memory. A user access goes through an entry that the hardware finds from `TTBR0` or that
the TLB has kept since it was last emptied, which is when `TTBR0` was last written. As long as `sbrk` gives up
no page, all of these lead to pages of the running process. A page that `sbrk` does give up is on the free
list while the TLB still maps it. -/

namespace Xv6Armv8.Kernel

open Spec Vm FileTable Exec Function List StepRun

variable {T H : Multiset Nat} {P : Prop} {k k₀ : Machine} {i c : Nat} {lay : Layout} {initcode : List UInt8}
  {tr : List Event}

/-- An entry that a user access on CPU `c` may go through. -/
def Usable (k : Machine) (c e : Nat) : Prop :=
  (e &&& mmTypeValid ≠ 0 ∧ ∃ va, hwWalk k.mem (k.cpu c).ttbr0 va = e) ∨ ∃ vpn, (vpn, e) ∈ (k.cpu c).tlb

/-- All that a running process can reach are pages of its own: they are mapped in its table, not free, and
neither a page of another process nor of a pipe or the disk. -/
def Isolated (k : Machine) : Prop :=
  ∀ c i e, (k.cpu c).proc = some i → Usable k c e →
    (∃ pt, (k.proc i).pagetable = some pt ∧ ptePage e ∈ leafPages k.mem pt) ∧ ptePage e ∉ k.mem.freelist ∧
      ptePage e ∉ others k i

theorem Inv.own_only {x : Nat} (h : Inv T P k H) (hi : i < nproc) (hx : x ∈ own k.mem (k.proc i)) :
    x ∉ k.mem.freelist ∧ x ∉ others k i := by
  have hpool : Pool k.mem (others k i + own k.mem (k.proc i)) := by
    refine h.pool.mono ?_
    rw [inUse_split hi, add_comm (others k i)]
    exact Multiset.le_add_right _ _
  exact ⟨(hpool.mono (Multiset.le_add_left _ _)).not_free hx, hpool.disjoint hx⟩

theorem Inv.isolated (h : Inv T True k H) : Isolated k := by
  intro c i e hc huse
  obtain ⟨hi, hrun⟩ := h.run c i hc
  have hok := h.tlb trivial c i hc
  have hlive := (h.procs i hi).live (by rw [hrun]; decide) (by rw [hrun]; decide)
  obtain ⟨pt, hpt⟩ := Option.isSome_iff_exists.mp hlive.2
  have hmem : ptePage e ∈ leafPages k.mem pt := by
    rcases huse with ⟨hvalid, va, hva⟩ | ⟨vpn, htlb⟩
    · obtain ⟨l, hs, -⟩ := (h.procs i hi).space pt hpt
      rw [hok.ttbr0 pt hpt] at hva
      rw [← hva] at hvalid ⊢
      exact hwWalk_mem hs (h.root_valid hi hpt) hvalid
    · exact hok.tlb pt hpt (vpn, e) htlb
  refine ⟨⟨pt, hpt, hmem⟩, h.own_only hi ?_⟩
  rw [own, hpt, spacePages]
  exact Multiset.mem_add.mpr (.inr (Multiset.mem_add.mpr (.inr hmem)))

/-! ### A shrinking address space -/

/-- The entry of a page that `sbrk` gives up: the page is free afterwards, and the CPUs are as they were. -/
theorem growproc_frees {n : Int} {pt e : Nat} {l : List Nat} (hpt : (k.proc i).pagetable = some pt)
    (hs : Space k.mem pt l) (hpool : Pool k.mem (tables k.mem 3 pt + pages l))
    (hcount : pgCount (k.proc i).size = l.length) (hsize : (k.proc i).size < 2 ^ 32) (hneg : n < 0)
    (h0 : 0 ≤ (k.proc i).size + n) (he : e ∈ l.drop (pgCount ((k.proc i).size + n).toNat)) :
    Sat (growproc i n) k (fun r k' => r = 0 ∧ k'.cpu = k.cpu ∧ (k'.proc i).kstack = (k.proc i).kstack ∧
      ptePage e ∈ k'.mem.freelist) fun _ => False := by
  unfold growproc
  rw [sat_bind, sat_get]
  dsimp only
  rw [hpt, sat_bind, sat_deref_some, if_neg (by omega), if_pos hneg, sat_bind, sat_vm,
    addInt_of_nonneg h0 (by omega)]
  generalize hnew : ((k.proc i).size + n).toNat = newsz at he
  have hlt : newsz < (k.proc i).size := by omega
  refine (shrink_spec hs hpool hcount hlt).imp ?_
  rintro sz m₁ ⟨rfl, -, -, -, -, hfree⟩
  rw [sat_bind, sat_setProc, sat_pure]
  refine ⟨rfl, rfl, ?_, ?_⟩
  · simp only [update_self]
  · show ptePage e ∈ m₁.freelist
    rw [← Multiset.mem_coe, hfree]
    exact Multiset.mem_add.mpr (.inr (mem_map_of_mem he))

theorem sbrk_frees {n pt ks e : Nat} {l : List Nat} (hpt : (k.proc i).pagetable = some pt)
    (hks : (k.proc i).kstack = some ks) (hs : Space k.mem pt l)
    (hpool : Pool k.mem (tables k.mem 3 pt + pages l)) (hcount : pgCount (k.proc i).size = l.length)
    (hsize : (k.proc i).size < 2 ^ 32) (hneg : argint n < 0) (h0 : 0 ≤ (k.proc i).size + argint n)
    (he : e ∈ l.drop (pgCount ((k.proc i).size + argint n).toNat)) :
    Sat (syscall c i (.sbrk n)) k (fun r k' => (∃ v, r = .value v) ∧ k'.cpu = k.cpu ∧
      ptePage e ∈ k'.mem.freelist) fun _ => False := by
  unfold syscall syscalls sysSbrk
  rw [sat_bind, sat_map, sat_bind, sat_get, sat_bind]
  refine (growproc_frees hpt hs hpool hcount hsize hneg h0 he).imp ?_
  rintro r k₂ ⟨rfl, hcpu₂, hks₂, hfree₂⟩
  rw [if_neg (by decide), sat_pure]
  dsimp only
  rw [sat_bind, sat_get, hks₂, hks, sat_bind, sat_deref_some, sat_bind, sat_vm]
  refine written_setTf fun m' hw _ => ⟨⟨_, rfl⟩, hcpu₂, ?_⟩
  show ptePage e ∈ m'.freelist
  rw [hw.free]
  exact hfree₂

theorem access_caches {pt j : Nat} {l : List Nat} (h : Inv T True k H) (hc : (k.cpu c).proc = some i)
    (hpt : (k.proc i).pagetable = some pt) (hs : Space k.mem pt l) (hj : j < l.length) :
    ∃ cpu', Kernel.step k (.access c (j * pgSize)) = some { k with cpu := cpu' } ∧ (cpu' c).proc = some i ∧
      (j, l[j]) ∈ (cpu' c).tlb := by
  have hi := (h.run c i hc).1
  have hva : j * pgSize < maxVa := by
    have hjm : j < maxPages := lt_of_lt_of_le hj hs.len
    unfold maxVa pgSize maxPages at *
    omega
  have hwalk : hwWalk k.mem (k.cpu c).ttbr0 (j * pgSize) = l[j] := by
    rw [(h.tlb trivial c i hc).ttbr0 pt hpt, hwWalk_eq hs (h.root_valid hi hpt) hva,
      Nat.mul_div_cancel _ (by decide), getD_eq_getElem _ _ hj]
  have hvalid : l[j] &&& mmTypeValid ≠ 0 := valid_of_page (hs.leaf _ (getElem_mem hj))
  have haccess : (k.cpu c).access k.mem (j * pgSize) = { k.cpu c with tlb := (j, l[j]) :: (k.cpu c).tlb } := by
    rw [Cpu.access, hwalk, if_neg hvalid, Nat.mul_div_cancel _ (by decide)]
  refine ⟨update k.cpu c ((k.cpu c).access k.mem (j * pgSize)), ?_, ?_, ?_⟩
  · show (k.cpu c).proc.bind _ = _
    rw [hc]
    rfl
  · rw [update_self, haccess]
    exact hc
  · rw [update_self, haccess]
    exact mem_cons_self

/-- An access to the first page after the new end and the call of `sbrk` that gives it up. -/
theorem shrink_not_isolated {n : Nat} (h : Inv T True k 0) (hc : (k.cpu c).proc = some i)
    (hshrink : ¬KeepsSpace k i (.sbrk n)) :
    ∃ k', Run Kernel.step (fun _ _ => True) k
      [.access c (pgCount ((k.proc i).size + argint n).toNat * pgSize), .call c (.sbrk n)] k' ∧ ¬Isolated k' := by
  obtain ⟨hi, hrun⟩ := h.run c i hc
  have hlive := (h.procs i hi).live (by rw [hrun]; decide) (by rw [hrun]; decide)
  obtain ⟨pt, hpt⟩ := Option.isSome_iff_exists.mp hlive.2
  obtain ⟨ks, hks⟩ := Option.isSome_iff_exists.mp hlive.1
  obtain ⟨l, hs, hcount, hpool, hsize⟩ := h.live_space hi hpt
  -- the amount is negative and the first page after the new end is given up
  unfold KeepsSpace KeepsPages at hshrink
  push Not at hshrink
  obtain ⟨hneg, h0, hne⟩ := hshrink
  generalize hj : pgCount ((k.proc i).size + argint n).toNat = j at hne
  have hjl : j < l.length := by
    have hle : pgCount ((k.proc i).size + argint n).toNat ≤ pgCount (k.proc i).size := pgCount_mono (by omega)
    omega
  have he : l[j] ∈ l.drop (pgCount ((k.proc i).size + argint n).toNat) := by
    rw [hj]
    exact mem_drop_iff_getElem.mpr ⟨0, by simpa using hjl, by simp⟩
  obtain ⟨cpu', hstep₁, hc₁, htlb⟩ := access_caches h hc hpt hs hjl
  have hsat : Sat (syscall c i (.sbrk n)) { k with cpu := cpu' } _ fun _ => False :=
    sbrk_frees hpt hks hs hpool hcount hsize hneg h0 he
  obtain ⟨r, k₂, hk₂, ⟨v, rfl⟩, hcpu₂, hfree₂⟩ := hsat.ok
  have hstep₂ : Kernel.step { k with cpu := cpu' } (.call c (.sbrk n)) = some k₂ := by
    simp only [Kernel.step, hc₁, Option.bind_eq_bind, Option.bind_some, hk₂]
  refine ⟨k₂, .snoc (.snoc .nil trivial hstep₁) trivial hstep₂, fun hiso => ?_⟩
  have huse : Usable k₂ c l[j] := .inr ⟨j, by rw [hcpu₂]; exact htlb⟩
  exact (hiso c i l[j] (by rw [hcpu₂]; exact hc₁) huse).2.1 hfree₂

/-- **User memory is isolated as long as `sbrk` gives up no page.** In every state of a run whose calls of
`sbrk` give up none, all a process can reach is its own; and in each such state every other call of `sbrk`,
after an access to a page it gives up, leaves that page free and in reach. -/
theorem isolated_iff_keeps (hboot : boot initcode (initial lay) = .ok ((), k₀))
    (hrun : Run Kernel.step Keeps k₀ tr k) :
    Isolated k ∧ ∀ c i n, (k.cpu c).proc = some i → ¬KeepsSpace k i (.sbrk n) →
      ∃ va k', Run Kernel.step (fun _ _ => True) k [.access c va, .call c (.sbrk n)] k' ∧ ¬Isolated k' := by
  have h : Inv ↑lay.pages True k 0 := Inv.run_of_boot hboot hrun fun _ _ _ hC => hC
  exact ⟨h.isolated, fun c i n hc hshrink => ⟨_, shrink_not_isolated h hc hshrink⟩⟩

theorem firstRun : ∃ k₀ k, boot [] (initial smallKernel) = .ok ((), k₀) ∧
    Run Kernel.step Keeps k₀ [.schedule 0 0] k ∧ (k.cpu 0).proc = some 0 ∧ (k.proc 0).size = pgSize := by
  have hlen : ([] : List UInt8).length ≤ pgSize := Nat.zero_le _
  obtain ⟨k₀, hk₀, -, hfirst, hcpu, -⟩ := boot_ok smallKernel hlen
  obtain ⟨k, hs, hc, -, -, hsize⟩ := schedule_first hfirst hcpu
  exact ⟨k₀, k, hk₀, .snoc .nil trivial hs, hc, hsize.trans hfirst.size⟩

theorem firstProcess_isolated : ∃ k₀ k, boot [] (initial smallKernel) = .ok ((), k₀) ∧
    Run Kernel.step Keeps k₀ [.schedule 0 0] k ∧ (k.cpu 0).proc = some 0 ∧ Isolated k := by
  obtain ⟨k₀, k, hk₀, hrun, hc, -⟩ := firstRun
  exact ⟨k₀, k, hk₀, hrun, hc, (isolated_iff_keeps hk₀ hrun).1⟩

/-- **The first process gives up its only page with `sbrk(-4096)` and can still reach it.** -/
theorem sbrkBack_not_isolated : ∃ k₀ k, boot [] (initial smallKernel) = .ok ((), k₀) ∧
    Run Kernel.step (fun _ _ => True) k₀
      [.schedule 0 0, .access 0 0, .call 0 (.sbrk (2 ^ 64 - 4096))] k ∧ ¬Isolated k := by
  obtain ⟨k₀, k₁, hk₀, hrun, hc, hsize⟩ := firstRun
  have h : Inv ↑smallKernel.pages True k₁ 0 := Inv.run_of_boot hk₀ hrun fun _ _ _ hC => hC
  have hshrink : ¬KeepsSpace k₁ 0 (.sbrk (2 ^ 64 - 4096)) := by
    unfold KeepsSpace
    rw [hsize]
    exact fun hkeep => absurd (hkeep (by decide) (by decide)) (by decide)
  obtain ⟨k, hrun', hnot⟩ := shrink_not_isolated h hc hshrink
  have hva : pgCount ((k₁.proc 0).size + argint (2 ^ 64 - 4096)).toNat * pgSize = 0 := by
    rw [hsize]
    decide
  rw [hva] at hrun'
  exact ⟨k₀, k, hk₀, (hrun.mono fun _ _ _ => trivial).trans hrun', hnot⟩

end Xv6Armv8.Kernel

import Xv6Armv8.KernelBoot

/-! Whole runs of the machine. Every call keeps the pages together, so does every switch, and an access of
the user only fills the TLB; by induction every state of a run has each page in one place. As long as no call
shrinks a live address space, the TLBs are right as well. -/

namespace Xv6Armv8.Kernel

open Spec Vm FileTable Exec Function Option StepRun

variable {T H : Multiset Nat} {P : Prop} {k k' : Machine} {i c : Nat} {lay : Layout} {initcode : List UInt8}

/-! ### Calls -/

theorem argint_range (x : Nat) : -2 ^ 31 ≤ argint x ∧ argint x < 2 ^ 31 := by
  unfold argint
  split <;> omega

/-- The call does not shrink the address space of the process that makes it. -/
def KeepsSpace (k : Machine) (i : Nat) : Syscall → Prop
  | .sbrk n => KeepsPages (k.proc i).size (argint n)
  | _ => True

theorem sysSbrk_spec {n : Int} (h : Inv T P k H) (hi : i < nproc) (hn : -2 ^ 31 ≤ n ∧ n < 2 ^ 31)
    (hkeep : P → KeepsPages (k.proc i).size n) :
    Sat (sysSbrk i n) k (fun _ k' => Inv T P k' H) otherPanic := by
  unfold sysSbrk
  rw [sat_bind, sat_get]
  refine (growproc_spec h hi hn hkeep).bind fun r k' h' => ?_
  rw [sat_ite]
  exact ⟨fun _ => h', fun _ => h'⟩

theorem syscalls_spec {sys : Syscall} (h : Inv T P k H) (hc : (k.cpu c).proc = some i)
    (hkeep : P → KeepsSpace k i sys) :
    Sat (syscalls c i sys) k (fun _ k' => Inv T P k' H) otherPanic := by
  obtain ⟨hi, hrun⟩ := h.run c i hc
  cases sys with
  | fork => exact sat_map.mpr ((fork_spec h hi hrun).imp fun _ _ hk => hk.1)
  | exec path argv file => exact sat_map.mpr ((sysExec_spec h hc).imp fun _ _ hk => hk.1)
  | sbrk n => exact sat_map.mpr (sysSbrk_spec h hi (argint_range n) hkeep)
  | pipe fdarray => exact sat_map.mpr (sysPipe_spec h hi)
  | close fd => exact sat_map.mpr (sysClose_spec h)
  | dup fd => exact sat_map.mpr (sysDup_spec h)
  | exit status => exact sat_map.mpr (exit_spec h hc)
  | wait addr => exact sat_map.mpr (wait_spec h hi)
  | kill pid => exact sat_map.mpr (kill_spec h)

theorem syscall_spec {sys : Syscall} (h : Inv T P k H) (hc : (k.cpu c).proc = some i)
    (hkeep : P → KeepsSpace k i sys) :
    Sat (syscall c i sys) k (fun _ k' => Inv T P k' H) otherPanic := by
  have hi := (h.run c i hc).1
  unfold syscall
  refine (syscalls_spec h hc hkeep).bind fun r k₁ h₁ => ?_
  cases r with
  | gone => exact h₁
  | sleeps => exact h₁
  | value v =>
    dsimp only
    rw [sat_bind, sat_get, sat_bind]
    refine sat_deref fun ks hks => ?_
    rw [sat_bind, sat_vm]
    exact written_setTf fun m' hw _ => h₁.write_kstack hi hks hw

/-! ### Switches and accesses -/

theorem dispatch_spec (h : Inv T P k H) (hi : i < nproc) (hc : (k.cpu c).proc = none)
    (hst : (k.proc i).state = .runnable) : Sat (dispatch c i) k (fun _ k' => Inv T P k' H) otherPanic := by
  have hok := h.procs i hi
  have hnot : ∀ c' j, (k.cpu c').proc = some j → j ≠ i := by
    rintro c' j hj rfl
    rw [(h.run c' j hj).2] at hst
    cases hst
  unfold dispatch uvmswitch
  rw [sat_bind, sat_setProc, sat_bind, sat_modify, sat_bind, sat_get]
  simp only [update_self]
  split
  · show otherPanic "uvmswitch"
    simp [otherPanic]
  rename_i pt hpt
  rw [sat_modify]
  simp only [update_self, update_idem]
  -- the CPU that is changed runs the process, the others what they ran
  have hcpu : ∀ c' j, (update k.cpu c { k.cpu c with proc := some i, ttbr0 := v2p pt, tlb := [] } c').proc =
      some j → (c' = c ∧ j = i) ∨ (c' ≠ c ∧ (k.cpu c').proc = some j) := by
    intro c' j hj
    by_cases hne : c' = c
    · subst hne
      rw [update_self] at hj
      exact .inl ⟨rfl, (some.inj hj).symm⟩
    · rw [update_of_ne hne] at hj
      exact .inr ⟨hne, hj⟩
  have hmv : Moves k.mem k.mem (own k.mem (k.proc i) + H) (own k.mem { k.proc i with state := .running } + H) :=
    Moves.refl _ _
  refine h.change hi hmv ?_ (fun c' j hj => ?_) (fun c' c'' j hj hj' => ?_) fun hP c' j hj => ?_
  · exact ⟨hok.space, hok.null, fun hun => ProcState.noConfusion hun,
      fun _ _ => hok.live (by rw [hst]; decide) (by rw [hst]; decide)⟩
  · rcases hcpu c' j hj with ⟨-, rfl⟩ | ⟨-, hj'⟩
    · rw [update_self]
      exact ⟨hi, rfl⟩
    · rw [update_of_ne (hnot c' j hj')]
      exact h.run c' j hj'
  · rcases hcpu c' j hj with ⟨rfl, rfl⟩ | ⟨-, h₁⟩
    · rcases hcpu c'' j hj' with ⟨rfl, -⟩ | ⟨-, h₂⟩
      · rfl
      · exact absurd rfl (hnot c'' j h₂)
    · rcases hcpu c'' j hj' with ⟨-, rfl⟩ | ⟨-, h₂⟩
      · exact absurd rfl (hnot c' j h₁)
      · exact h.inj c' c'' j h₁ h₂
  · rcases hcpu c' j hj with ⟨rfl, rfl⟩ | ⟨hne, h₁⟩
    · rw [update_self, update_self]
      refine ⟨fun pt' hpt' => ?_, fun _ _ x hx => ?_⟩
      · cases hpt.symm.trans hpt'
        rfl
      · cases hx
    · rw [update_of_ne hne]
      exact h.tlb_other hi hmv hP h₁ (hnot c' j h₁)

theorem yield_spec (h : Inv T P k H) (hc : (k.cpu c).proc = some i) :
    Sat (yield c i) k (fun _ k' => Inv T P k' H) otherPanic := by
  unfold yield leave
  rw [sat_bind, sat_setProc, sat_modify]
  exact h.leave hc (.inl rfl)

theorem hwWalk_eq {m : Mem} {pt va : Nat} {l : List Nat} (hs : Space m pt l) (hpt : ValidPage pt)
    (hva : va < maxVa) : hwWalk m (v2p pt) va = l.getD (va / pgSize) 0 := by
  have hkm : va / pgSize < maxPages := by
    unfold maxVa pgSize maxPages at *
    omega
  rw [hwWalk, if_neg (not_le.mpr hva), v2p_page hpt, page_and_mask hpt, p2v_sub hpt, walk_false, ← hs.entry _ hkm]
  cases hb : bottom m 3 pt (va / pgSize) with
  | none =>
    by_contra hne
    obtain ⟨t, ht⟩ := bottom_of_entry (Ne.symm hne)
    exact some_ne_none t (ht.symm.trans hb)
  | some t => exact (entry_of_bottom hb).symm

/-- What the hardware walks to through the table of a process is a page of the process. -/
theorem hwWalk_mem {m : Mem} {pt va : Nat} {l : List Nat} (hs : Space m pt l) (hpt : ValidPage pt)
    (hvalid : hwWalk m (v2p pt) va &&& mmTypeValid ≠ 0) : ptePage (hwWalk m (v2p pt) va) ∈ leafPages m pt := by
  have hva : ¬maxVa ≤ va := fun hge => hvalid (by rw [hwWalk, if_pos hge]; rfl)
  rw [hwWalk_eq hs hpt (not_le.mp hva)] at hvalid ⊢
  rw [hs.leafPages_eq]
  by_cases hlt : va / pgSize < l.length
  · rw [List.getD_eq_getElem _ _ hlt]
    exact List.mem_map_of_mem (List.getElem_mem _)
  · rw [List.getD_eq_default _ _ (not_lt.mp hlt)] at hvalid
    exact absurd rfl hvalid

theorem Inv.root_valid {pt : Nat} (h : Inv T P k H) (hi : i < nproc) (hpt : (k.proc i).pagetable = some pt) :
    ValidPage pt :=
  (h.pool_own hi).valid_used (mem_own_of_tables hpt Radix.mem_nodes_self)

theorem Inv.access {va : Nat} (h : Inv T P k H) (hc : (k.cpu c).proc = some i) :
    Inv T P { k with cpu := Function.update k.cpu c ((k.cpu c).access k.mem va) } H := by
  have hi := (h.run c i hc).1
  have hproc : ∀ c', (Function.update k.cpu c ((k.cpu c).access k.mem va) c').proc = (k.cpu c').proc := by
    intro c'
    by_cases hne : c' = c
    · subst hne
      rw [update_self, Cpu.access]
      split <;> rfl
    · rw [update_of_ne hne]
  refine ⟨h.eq, h.nodup, h.valid, h.lo, h.hi, h.procs, h.pipes, fun c' j hj => ?_, fun c' c'' j hj hj' => ?_,
    fun hP c' j hj => ?_⟩
  · exact h.run c' j ((hproc c').symm.trans hj)
  · exact h.inj c' c'' j ((hproc c').symm.trans hj) ((hproc c'').symm.trans hj')
  · have hj' := (hproc c').symm.trans hj
    have hold := h.tlb hP c' j hj'
    show TlbOk k.mem (k.proc j) (Function.update k.cpu c ((k.cpu c).access k.mem va) c')
    by_cases hne : c' = c
    · subst hne
      rw [update_self, Cpu.access]
      obtain rfl : j = i := some.inj (hj'.symm.trans hc)
      split
      · exact hold
      · rename_i hvalid
        refine ⟨hold.ttbr0, fun pt hpt x hx => ?_⟩
        obtain ⟨l, hs, -⟩ := (h.procs j hi).space pt hpt
        rw [hold.ttbr0 pt hpt] at hvalid hx
        rcases List.mem_cons.mp hx with rfl | hx
        · exact hwWalk_mem hs (h.root_valid hi hpt) hvalid
        · exact hold.tlb pt hpt x hx
    · rwa [update_of_ne hne]

/-! ### Runs -/

/-- The calls of the run do not shrink the address space of the caller. -/
def Keeps (k : Machine) : Event → Prop
  | .call c sys => ∀ i, (k.cpu c).proc = some i → KeepsSpace k i sys
  | _ => True

/-- **One step keeps the pages together**, and the TLBs right unless it shrinks a live address space. -/
theorem Inv.step {e : Event} (h : Inv T P k 0) (hkeep : P → Keeps k e) (hstep : step k e = some k') :
    Inv T P k' 0 := by
  cases e with
  | schedule c i =>
    change (if _ then _ else _) = some k' at hstep
    split_ifs at hstep with hif
    · split at hstep
      · next hd =>
          cases hstep
          exact (dispatch_spec h hif.2.1 hif.2.2.1 hif.2.2.2).of_ok hd
      · cases hstep
  | yield c =>
    obtain ⟨i, hc, hstep⟩ := bind_eq_some_iff.mp hstep
    split at hstep
    · next hy =>
        cases hstep
        exact (yield_spec h hc).of_ok hy
    · cases hstep
  | call c sys =>
    obtain ⟨i, hc, hstep⟩ := bind_eq_some_iff.mp hstep
    have hspec := syscall_spec h hc fun hP => hkeep hP i hc
    split at hstep
    · cases hstep
    · next hy =>
        cases hstep
        exact hspec.of_ok hy
    · cases hstep
  | access c va =>
    obtain ⟨i, hc, hstep⟩ := bind_eq_some_iff.mp hstep
    cases hstep
    exact h.access hc

theorem Inv.run_of_boot {C : Machine → Event → Prop} {k₀ : Machine} {tr : List Event}
    (hboot : boot initcode (initial lay) = .ok ((), k₀)) (hrun : Run Kernel.step C k₀ tr k)
    (hC : P → ∀ k e, C k e → Keeps k e) : Inv ↑lay.pages P k 0 := by
  have h₀ : Inv ↑lay.pages True k₀ 0 := (boot_spec.of_ok hboot).1
  refine hrun.invariant (P := fun k => Inv ↑lay.pages P k 0) ?_ fun a e b ha hCe hs =>
    ha.step (fun hP => hC hP a e hCe) hs
  exact ⟨h₀.eq, h₀.nodup, h₀.valid, h₀.lo, h₀.hi, h₀.procs, h₀.pipes, h₀.run, h₀.inj, fun _ => h₀.tlb trivial⟩

/-- **Every page is in one place.** In every state that a machine reaches by completed calls, switches and
accesses, the pages of the processes (stacks, tables, mapped pages), the live pipes, the rings of the disk
and the free list are together the pages that `kinit` put on the free list, and no page occurs twice. -/
theorem pages_conserved {k₀ : Machine} {tr : List Event} (hboot : boot initcode (initial lay) = .ok ((), k₀))
    (hrun : Run Kernel.step (fun _ _ => True) k₀ tr k) :
    ∃ m, kinit (initial lay).mem = .ok ((), m) ∧ m.freelist.Nodup ∧
      inUse k + ↑k.mem.freelist = (↑m.freelist : Multiset Nat) := by
  have hkinit : Sat kinit (initial lay).mem _ fun _ => False := kinit_spec
  obtain ⟨_, m, hm, -, hperm⟩ := hkinit.ok
  have h : Inv ↑lay.pages False k 0 := Inv.run_of_boot hboot hrun fun hP => hP.elim
  refine ⟨m, hm, hperm.nodup_iff.mpr lay.nodup, ?_⟩
  rw [Multiset.coe_eq_coe.mpr hperm, ← h.eq, add_zero]

/-- A kernel that ends at the start of the memory. -/
def smallKernel : Layout := ⟨kernBase + phyBase, by decide, by decide⟩

theorem schedule_first {k₀ : Machine} (hfirst : First k₀ initcode) (hcpu : ∀ c, (k₀.cpu c).proc = none) :
    ∃ k, Kernel.step k₀ (.schedule 0 0) = some k ∧ (k.cpu 0).proc = some 0 ∧ k.mem = k₀.mem ∧
      (k.proc 0).pagetable = (k₀.proc 0).pagetable ∧ (k.proc 0).size = (k₀.proc 0).size := by
  have hif : 0 < ncpu ∧ 0 < nproc ∧ (k₀.cpu 0).proc = none ∧ (k₀.proc 0).state = .runnable :=
    ⟨by decide, by decide, hcpu 0, hfirst.state⟩
  obtain ⟨pt, -, hpt, -⟩ := hfirst.space
  have hok : ∃ k, dispatch 0 0 k₀ = .ok ((), k) ∧ (k.cpu 0).proc = some 0 ∧ k.mem = k₀.mem ∧
      (k.proc 0).pagetable = (k₀.proc 0).pagetable ∧ (k.proc 0).size = (k₀.proc 0).size := by
    have hsat : Sat (dispatch 0 0) k₀ (fun _ k => (k.cpu 0).proc = some 0 ∧ k.mem = k₀.mem ∧
        (k.proc 0).pagetable = (k₀.proc 0).pagetable ∧ (k.proc 0).size = (k₀.proc 0).size) fun _ => False := by
      unfold dispatch uvmswitch
      rw [sat_bind, sat_setProc, sat_bind, sat_modify, sat_bind, sat_get]
      simp only [update_self]
      split
      · next hnone => exact (some_ne_none pt (hpt.symm.trans hnone)).elim
      · rw [sat_modify]
        simp only [update_self, and_self]
    obtain ⟨_, k, hk, hQ⟩ := hsat.ok
    exact ⟨k, hk, hQ⟩
  obtain ⟨k, hk, hQ⟩ := hok
  refine ⟨k, ?_, hQ⟩
  show (if _ then _ else _) = some k
  rw [if_pos hif, hk]

/-- The machine boots and its first process gets CPU 0 and uses its first page. -/
theorem firstAccess_conserved : ∃ k₀ k, boot [] (initial smallKernel) = .ok ((), k₀) ∧
    Run Kernel.step (fun _ _ => True) k₀ [.schedule 0 0, .access 0 0] k ∧
    ∃ m, kinit (initial smallKernel).mem = .ok ((), m) ∧ m.freelist.Nodup ∧
      inUse k + ↑k.mem.freelist = (↑m.freelist : Multiset Nat) := by
  have hlen : ([] : List UInt8).length ≤ pgSize := Nat.zero_le _
  obtain ⟨k₀, hk₀, -, hfirst, hcpu, -⟩ := boot_ok smallKernel hlen
  obtain ⟨k₁, hs₁, hc₁, -⟩ := schedule_first hfirst hcpu
  have hs₂ : Kernel.step k₁ (.access 0 0) =
      some { k₁ with cpu := update k₁.cpu 0 ((k₁.cpu 0).access k₁.mem 0) } := by
    show (k₁.cpu 0).proc.bind _ = _
    rw [hc₁]
    rfl
  have hrun : Run Kernel.step (fun _ _ => True) k₀ ([] ++ [.schedule 0 0] ++ [.access 0 0]) _ :=
    .snoc (.snoc .nil trivial hs₁) trivial hs₂
  exact ⟨k₀, _, hk₀, hrun, pages_conserved hk₀ hrun⟩

end Xv6Armv8.Kernel

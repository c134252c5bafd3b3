import Xv6Armv8.KernelCalls

/-! Processes come and go with their pages: `allocproc` and `freeproc`, and over them `fork`, `exit`,
`wait` and `growproc`. A process that is taken apart is never one that runs, and a call changes the
mappings of no running process but its own. -/

namespace Xv6Armv8.Kernel

open Spec Vm FileTable Function List Multiset Option

variable {T H A : Multiset Nat} {P : Prop} {k k' : Machine} {i c : Nat} {E : String → Prop}

/-! ### freeproc -/

theorem Inv.pool_own (h : Inv T P k H) (hi : i < nproc) : Pool k.mem (own k.mem (k.proc i)) :=
  h.pool.mono (by
    rw [inUse_split hi, add_assoc]
    exact Multiset.le_add_right _ _)

variable {ks new np pt size : Nat} {m m' : Mem} {n : Int} {o : Option Nat}

theorem freeStack_spec (hp : Pool k.mem (stackPages o)) :
    Sat (ifSome o fun ks => vm (kfree ks)) k (fun _ k' => ∃ m', k' = { k with mem := m' } ∧
      Moves k.mem m' (stackPages o) 0 ∧ m'.ram = k.mem.ram) E := by
  cases o with
  | none => exact ⟨k.mem, rfl, Moves.refl _ _, rfl⟩
  | some ks =>
    have hval : ValidPage ks := hp.valid_used (Multiset.mem_singleton_self ks)
    show Sat (vm (kfree ks)) k _ _
    rw [sat_vm, sat_kfree hval hp.hi hp.lo]
    exact ⟨_, rfl, (freed_moves ks 0).congr (zero_add _) rfl, rfl⟩

theorem freeSpace_spec (hp : Pool k.mem (spacePages k.mem o))
    (hs : ∀ pt, o = some pt → ∃ l, Space k.mem pt l ∧ pgCount size = l.length) :
    Sat (ifSome o fun pt => vm (uvmfree pt size)) k (fun _ k' => ∃ m', k' = { k with mem := m' } ∧
      Moves k.mem m' (spacePages k.mem o) 0) otherPanic := by
  cases o with
  | none => exact ⟨k.mem, rfl, Moves.refl _ _⟩
  | some pt =>
    obtain ⟨l, hsp, hcount⟩ := hs pt rfl
    rw [spacePages, hsp.leafPages_eq] at hp ⊢
    show Sat (vm (uvmfree pt size)) k _ _
    rw [sat_vm]
    refine (uvmfree_spec hsp (pgRoundUp_of_count hcount hp.length_lt.le) hp).mono ?_ fun _ h => h.elim
    intro _ m' hmv
    exact ⟨m', rfl, hmv⟩

theorem spacePages_congr (h : m'.ram = m.ram) : spacePages m' o = spacePages m o := by
  cases o with
  | none => rfl
  | some pt =>
    have hx : ∀ x ∈ tables m 3 pt, m'.ram x = m.ram x := fun x _ => by rw [h]
    rw [spacePages, spacePages, tables_congr hx, leafPages_congr hx]

/-- The slot of a process after `freeproc`. -/
def Proc.freed (p : Proc) : Proc :=
  { p with
    kstack := none, pagetable := none, size := 0, pid := 0, parent := none, name := [], killed := false, xstate := 0
    state := .unused }

theorem own_freed (m : Mem) (p : Proc) : own m p.freed = 0 := by
  rw [own, Proc.freed, stackPages, spacePages, add_zero]

/-- **`freeproc` gives back every page of a process that does not run.** -/
theorem freeproc_spec (h : Inv T P k H) (hi : i < nproc) (hrun : (k.proc i).state ≠ .running) :
    Sat (freeproc i) k (fun _ k' => Inv T P k' H ∧ ∃ m', Moves k.mem m' (own k.mem (k.proc i)) 0 ∧
      k' = { k with mem := m', proc := update k.proc i (k.proc i).freed }) otherPanic := by
  have hpool := h.pool_own hi
  unfold freeproc
  rw [sat_bind, sat_get, sat_bind]
  refine (freeStack_spec (hpool.mono (Multiset.le_add_right _ _))).imp ?_
  rintro _ _ ⟨m₁, rfl, hmv₁, hram⟩
  rw [sat_bind, sat_setProc, sat_bind, sat_get]
  simp only [update_self]
  rw [sat_bind]
  have hspace : spacePages m₁ (k.proc i).pagetable = spacePages k.mem (k.proc i).pagetable :=
    spacePages_congr hram
  have hmv₁' : Moves k.mem m₁ (own k.mem (k.proc i)) (spacePages m₁ (k.proc i).pagetable) :=
    (hmv₁.add (spacePages k.mem (k.proc i).pagetable)).congr rfl (by rw [zero_add, hspace])
  refine (freeSpace_spec (k := { k with mem := m₁, proc := _ })
    (hpool.of_conserve hmv₁'.conserve hmv₁'.kend) fun pt hpt => ?_).imp ?_
  · obtain ⟨l, hs, hl⟩ := (h.procs i hi).space pt hpt
    exact ⟨l, hs.congr fun x _ => by rw [hram], hl⟩
  · rintro _ _ ⟨m₂, rfl, hmv₂⟩
    simp only [sat_setProc, update_self, update_idem]
    refine ⟨h.update hi ?_ ?_ (fun hr => absurd hr hrun) (fun _ hr => absurd hr hrun), m₂, hmv₁'.trans hmv₂, rfl⟩
    · exact ((hmv₁'.trans hmv₂).add H).congr rfl (by rw [own, stackPages, spacePages, add_zero])
    · exact ⟨fun pt hpt => (some_ne_none pt hpt.symm).elim, fun _ => rfl, fun _ => ⟨rfl, rfl⟩,
        fun hne => absurd rfl hne⟩

/-! ### allocproc -/

/-- What `allocproc` has got for the slot `np`: a kernel stack and an empty table, or nothing. -/
inductive NewProc (m : Mem) (p : Proc) : Option Nat → Proc → Prop
  | none : NewProc m p none p.freed
  | some (np ks pt : Nat) (hspace : Space m pt []) :
      NewProc m p (some np) { p with kstack := some ks, pagetable := some pt }

theorem sat_find_unused {α : Type} {Q : α → Machine → Prop} {x : KM α} {f : Nat → KM α} (hnone : Sat x k Q E)
    (hsome : ∀ np, np < nproc → (k.proc np).state = .unused → Sat (f np) k Q E) :
    Sat (match (List.range nproc).find? fun j => (k.proc j).state = .unused with
      | none => x
      | some np => f np) k Q E := by
  cases hfind : (List.range nproc).find? fun j => (k.proc j).state = .unused with
  | none => exact hnone
  | some np =>
    exact hsome np (List.mem_range.mp (List.mem_of_find?_eq_some hfind))
      (by simpa using List.find?_some hfind)

/-- What the stages of `allocproc` come to. -/
def Allocated (T : Multiset Nat) (P : Prop) (H : Multiset Nat) (k : Machine) (np : Nat) (r : Option Nat)
    (k' : Machine) : Prop :=
  Inv T P k' H ∧ ∃ m' p', k' = { k with mem := m', proc := update k.proc np p' } ∧
    Moves k.mem m' (own k.mem (k.proc np)) (own m' p') ∧ NewProc m' (k.proc np) r p' ∧ ∀ x ∈ r, x = np

theorem allocFail_spec (h : Inv T P k H) (hlt : np < nproc) (hst : (k.proc np).state = .used) : Sat (do
        freeproc np
        return none) k (fun r k' => Allocated T P H k np r k') otherPanic := by
  refine (freeproc_spec h hlt (by rw [hst]; decide)).bind fun _ k' ⟨hinv, m', hmv, hk'⟩ => ?_
  exact ⟨hinv, m', _, hk', hmv.congr rfl (own_freed ..).symm, .none, nofun⟩

theorem allocTable_spec (ks : Nat) (h : Inv T P k H) (hlt : np < nproc) (hst : (k.proc np).state = .used)
    (hks : (k.proc np).kstack = some ks) (hpt : (k.proc np).pagetable = none) :
    Sat (do
        match ← vm kalloc with
        | none =>
          freeproc np
          return none
        | some pt =>
          setProc np fun p => { p with pagetable := some pt }
          vm (memset pt 0)
          return some np) k (fun r k' => Allocated T P H k np r k') otherPanic := by
  have hsize := (h.procs np hlt).null hpt
  have hown : own k.mem (k.proc np) = stackPages (k.proc np).kstack := by
    rw [own, hpt, spacePages, add_zero]
  have hrun : (k.proc np).state ≠ .running := by rw [hst]; decide
  rw [sat_bind, sat_vm, sat_kalloc]
  refine ⟨fun _ => allocFail_spec h hlt hst, fun pt rest hcons => ?_⟩
  obtain ⟨hs, ht, -⟩ := space_of_zero (m := (k.mem.taken pt rest).setPage pt fun _ => 0) (update_self pt _ _)
  simp only [sat_bind, sat_setProc, sat_vm, sat_memset, sat_pure]
  have hmv := (taken_moves (b := fun _ => 0) hcons (own k.mem (k.proc np))).congr rfl
    (show own k.mem (k.proc np) + {pt} = own ((k.mem.taken pt rest).setPage pt fun _ => 0)
      { k.proc np with pagetable := some pt } by
      rw [hown, own, spacePages, ht, hs.leafPages_eq, pages_nil]
      rfl)
  refine ⟨h.update hlt (hmv.add H) ?_ (fun hr => absurd hr hrun) (fun _ hr => absurd hr hrun), _, _, rfl, hmv, ?_,
    fun _ hx => (some.inj hx).symm⟩
  · refine ⟨fun pt' hpt' => ?_, fun hnone => (some_ne_none pt hnone).elim, fun hun => ?_,
      fun _ hus => absurd hst hus⟩
    · cases hpt'
      exact ⟨[], hs, by rw [hsize]; decide⟩
    · rw [hst] at hun
      cases hun
  · have hslot : ({ k.proc np with pagetable := some pt } : Proc) =
        { k.proc np with kstack := some ks, pagetable := some pt } := by rw [← hks]
    rw [hslot]
    exact .some np ks pt hs

theorem allocStack_spec (h : Inv T P k H) (hlt : np < nproc) (hst : (k.proc np).state = .used)
    (hks : (k.proc np).kstack = none) (hpt : (k.proc np).pagetable = none) :
    Sat (do
        match ← vm kalloc with
        | none =>
          freeproc np
          return none
        | some ks =>
          setProc np fun p => { p with kstack := some ks }
          vm (memset ks 0)
          match ← vm kalloc with
          | none =>
            freeproc np
            return none
          | some pt =>
            setProc np fun p => { p with pagetable := some pt }
            vm (memset pt 0)
            return some np) k (fun r k' => Allocated T P H k np r k') otherPanic := by
  have hsize := (h.procs np hlt).null hpt
  have hown : own k.mem (k.proc np) = 0 := by rw [own, hks, hpt, stackPages, spacePages, add_zero]
  have hrun : (k.proc np).state ≠ .running := by rw [hst]; decide
  rw [sat_bind, sat_vm, sat_kalloc]
  refine ⟨fun _ => allocFail_spec h hlt hst, fun ks rest hcons => ?_⟩
  dsimp only
  rw [sat_bind, sat_setProc, sat_bind, sat_vm, sat_memset]
  have hmv := (taken_moves (b := fun _ => 0) hcons (own k.mem (k.proc np))).congr rfl
    (show own k.mem (k.proc np) + {ks} = own ((k.mem.taken ks rest).setPage ks fun _ => 0)
      { k.proc np with kstack := some ks } by rw [hown, own, stackPages, hpt, spacePages, add_comm])
  have h₁ : Inv T P { k with mem := (k.mem.taken ks rest).setPage ks fun _ => 0,
                             proc := update k.proc np { k.proc np with kstack := some ks } } H := by
    refine h.update hlt (hmv.add H) ?_ (fun hr => absurd hr hrun) (fun _ hr => absurd hr hrun)
    refine ⟨fun pt hpt' => ?_, fun _ => hsize, fun hun => ?_, fun _ hus => absurd hst hus⟩
    · exact (some_ne_none pt (hpt'.symm.trans hpt)).elim
    · rw [hst] at hun
      cases hun
  refine (allocTable_spec ks h₁ hlt ?_ ?_ ?_).imp fun r k' hk' => ?_
  · simp only [update_self]
    exact hst
  · simp only [update_self]
  · simp only [update_self]
    exact hpt
  · obtain ⟨hinv, m', p', rfl, hmv', hnew, hr⟩ := hk'
    simp only [update_self, update_idem] at hinv hmv' hnew ⊢
    refine ⟨hinv, m', p', rfl, hmv.trans hmv', ?_, hr⟩
    cases hnew with
    | none => exact .none
    | some np ks' pt hspace => exact .some np ks' pt hspace

/-- The machine with a new process, or with the slot as a failed call leaves it. -/
def Machine.born (k : Machine) (m' : Mem) (np : Nat) (p' : Proc) : Machine :=
  { k with mem := m', nextpid := k.nextpid + 1, proc := update k.proc np p' }

/-- The slot that `allocproc` has chosen. -/
def Proc.chosen (p : Proc) (pid : Nat) : Proc := { p with pid := pid, state := .used }

theorem allocproc_spec (h : Inv T P k H) :
    Sat allocproc k (fun r k' => Inv T P k' H ∧ (r = none ∧ k' = k ∨ ∃ np m' p', np < nproc ∧
      (k.proc np).state = .unused ∧ k' = k.born m' np p' ∧ Moves k.mem m' 0 (own m' p') ∧
      NewProc m' ((k.proc np).chosen k.nextpid) r p' ∧ ∀ x ∈ r, x = np)) otherPanic := by
  unfold allocproc
  rw [sat_bind, sat_get]
  refine sat_find_unused ⟨h, .inl ⟨rfl, rfl⟩⟩ fun np hlt hst => ?_
  obtain ⟨hks, hpt⟩ := (h.procs np hlt).unused hst
  have hsize := (h.procs np hlt).null hpt
  have hrun : (k.proc np).state ≠ .running := by rw [hst]; decide
  rw [sat_bind, sat_setProc, sat_bind, sat_modify]
  -- the slot is marked used
  have h₁ : Inv T P { k with proc := update k.proc np { k.proc np with pid := k.nextpid, state := .used } }
      H := by
    refine h.update hlt ((Moves.refl k.mem _).congr rfl rfl) ?_ (fun hr => absurd hr hrun)
      (fun _ hr => absurd hr hrun)
    refine ⟨fun pt hpt' => ?_, fun _ => hsize, fun hun => ?_, fun _ hus => absurd rfl hus⟩
    · exact (some_ne_none pt (hpt'.symm.trans hpt)).elim
    · cases hun
  refine (allocStack_spec (h₁.counters (k.nextpid + 1) k.initproc) hlt ?_ ?_ ?_).imp fun r k' hk' => ?_
  · simp only [update_self]
  · simp only [update_self]
    exact hks
  · simp only [update_self]
    exact hpt
  · obtain ⟨hinv, m', p', rfl, hmv, hnew, hr⟩ := hk'
    simp only [update_self, update_idem] at hinv hmv hnew ⊢
    refine ⟨hinv, .inr ⟨np, m', p', hlt, hst, rfl, hmv.congr ?_ rfl, hnew, hr⟩⟩
    rw [own, hks, hpt, stackPages, spacePages, add_zero]

/-! ### fork -/

theorem SameProc.refl (p : Proc) : SameProc p p := ⟨rfl, rfl, rfl, rfl⟩

theorem Inv.pool_two {j : Nat} (h : Inv T P k H) (hi : i < nproc) (hj : j < nproc) (hne : j ≠ i) :
    Pool k.mem (own k.mem (k.proc i) + own k.mem (k.proc j)) := by
  refine h.pool.mono (le_trans ?_ (Multiset.le_add_right _ _))
  rw [inUse_split hi, others, add_assoc]
  refine add_le_add le_rfl (le_trans ?_ (Multiset.le_add_left _ _))
  refine le_trans ?_ (Multiset.le_add_right _ _)
  exact Finset.single_le_sum (f := fun j => own k.mem (k.proc j)) (fun _ _ => Multiset.zero_le _)
    (Finset.mem_erase.mpr ⟨hne, Finset.mem_range.mpr hj⟩)

theorem Inv.copied {l r : List Nat} {x : Int} (h : Inv T P k H) (p' : Proc)
    (hlt : np < nproc) (hst : (k.proc np).state = .used) (hpt : (k.proc np).pagetable = some new)
    (hnew : Space k.mem new []) (hc : Copied k.mem m' new l r x) (hst' : p'.state = .used)
    (hks' : p'.kstack = (k.proc np).kstack) (hpt' : p'.pagetable = some new)
    (hsz' : pgCount p'.size = r.length) :
    Inv T P { k with mem := m', proc := Function.update k.proc np p' } H := by
  have hrun : (k.proc np).state ≠ .running := by rw [hst]; decide
  refine h.update hlt ?_ ?_ (fun hr => absurd hr hrun) (fun _ hr => absurd hr hrun)
  · refine ((hc.moves.add (stackPages (k.proc np).kstack)).add H).congr ?_ ?_
    · rw [own, hpt, spacePages, hnew.leafPages_eq, pages_nil, add_zero, add_comm (tables k.mem 3 new)]
    · rw [own, hks', hpt', spacePages, hc.space.leafPages_eq, add_comm (stackPages _)]
  · refine ⟨fun pt hpt'' => ?_, fun hnone => ?_, fun hun => ?_, fun _ hus => absurd hst' hus⟩
    · cases hpt'.symm.trans hpt''
      exact ⟨r, hc.space, hsz'⟩
    · rw [hpt'] at hnone
      cases hnone
    · rw [hst'] at hun
      cases hun

theorem dupFiles_spec {ofile : Ofile} (h : Inv T P k H) :
    Sat (dupFiles np ofile) k (fun _ k' => Inv T P k' H ∧ k'.mem = k.mem ∧
      ∃ o, k'.proc = update k.proc np { k.proc np with ofile := o }) otherPanic := by
  unfold dupFiles
  refine sat_forM_range (I := fun _ t => Inv T P t H ∧ t.mem = k.mem ∧
    ∃ o, t.proc = update k.proc np { k.proc np with ofile := o })
    ⟨h, rfl, (k.proc np).ofile, (update_eq_self ..).symm⟩ fun fd _ t ⟨ht, hmem, o, ho⟩ => ?_
  cases ofile fd with
  | none => exact ⟨ht, hmem, o, ho⟩
  | some f =>
    show Sat (do kfiledup f; setProc np _) t _ _
    refine (kfiledup_spec ht).bind fun _ t₁ ⟨h₁, hmem₁⟩ => ?_
    rw [sat_setProc]
    refine ⟨h₁.1.relabel_one ⟨rfl, rfl, rfl, rfl⟩, hmem₁.trans hmem, update o fd (some f), ?_⟩
    simp only [h₁.2.1, ho, update_self, update_idem]

theorem written_setTf {reg v : Nat} {Q : Unit → Mem → Prop}
    (h : ∀ m', Written m m' {ks} → m'.ram ks = (m.ram ks).st (tfOff + 8 * reg) 8 v → Q () m') :
    Sat (setTf ks reg v) m Q E :=
  h _ (written_setPage (Multiset.mem_singleton_self ks)) (update_self ..)

theorem written_copyTf {dst src : Nat} {Q : Unit → Mem → Prop}
    (h : ∀ m', Written m m' {dst} → m'.ram dst = (m.ram dst).copy tfOff (m.ram src) tfOff sizeofTrapframe → Q () m') :
    Sat (copyTf dst src) m Q E :=
  h _ (written_setPage (Multiset.mem_singleton_self dst)) (update_self ..)

/-- The trapframe of the child: that of the parent, with `x0` zero. -/
def ChildFrame (b b' : ByteStore) : Prop :=
  ∀ x, x < sizeofTrapframe → b' (tfOff + x) = if x / 8 = tfX0 then 0 else b (tfOff + x)

theorem childFrame_copy (b c : ByteStore) :
    ChildFrame b ((c.copy tfOff b tfOff sizeofTrapframe).st (tfOff + 8 * tfX0) 8 0) := by
  intro x hx
  unfold ByteStore.st ByteStore.copy tfX0
  by_cases h8 : x / 8 = 0
  · rw [if_pos (by omega), if_pos h8, Nat.zero_div]
    rfl
  · rw [if_neg (by omega), if_neg h8, if_pos (by omega), Nat.add_sub_cancel_left]

theorem forkRest_spec {p : Proc} (h : Inv T P k H) (hlt : np < nproc)
    (hst : (k.proc np).state = .used) (hpt : (k.proc np).pagetable.isSome) :
    Sat (do
        let src ← deref p.kstack
        let dst ← deref ((← get).proc np).kstack
        vm (copyTf dst src)
        vm (setTf dst tfX0 0)
        dupFiles np p.ofile
        let pid := ((← get).proc np).pid
        setProc np fun q => { q with name := p.name, parent := some i, state := .runnable }
        return (pid : Int)) k (fun r k' => Inv T P k' H ∧ r = (k.proc np).pid ∧ ∃ src dst o, p.kstack = some src ∧
      (k.proc np).kstack = some dst ∧ Written k.mem k'.mem {dst} ∧ ChildFrame (k.mem.ram src) (k'.mem.ram dst) ∧
      k'.proc = update k.proc np
        { k.proc np with ofile := o, name := p.name, parent := some i, state := .runnable }) otherPanic := by
  rw [sat_bind]
  refine sat_deref fun src hsrc => ?_
  rw [sat_bind, sat_get, sat_bind]
  refine sat_deref fun dst hdst => ?_
  rw [sat_bind, sat_vm]
  refine written_copyTf fun m₁ hw₁ htf₁ => ?_
  have h₁ := h.write_kstack hlt hdst hw₁
  rw [sat_bind, sat_vm]
  refine written_setTf fun m₂ hw₂ htf₂ => ?_
  have h₂ := h₁.write_kstack hlt hdst hw₂
  refine (dupFiles_spec h₂).bind fun _ k₃ ⟨h₃, hmem, o, hproc⟩ => ?_
  have hslot : k₃.proc np = { k.proc np with ofile := o } := by rw [hproc, update_self]
  have hrun : (k₃.proc np).state ≠ .running := by
    rw [hslot]
    exact fun hr => absurd (hst.symm.trans hr) (by decide)
  have hok := h₃.procs np hlt
  rw [sat_bind, sat_get, sat_bind, sat_setProc, sat_pure]
  refine ⟨h₃.update hlt ((Moves.refl k₃.mem _).congr rfl rfl) ?_ (fun hr => absurd hr hrun)
    (fun _ hr => absurd hr hrun), by rw [hslot], src, dst, o, hsrc, hdst, ?_, ?_, ?_⟩
  · refine ⟨hok.space, hok.null, nofun, fun _ _ => ?_⟩
    show (k₃.proc np).kstack.isSome ∧ (k₃.proc np).pagetable.isSome
    rw [hslot]
    exact ⟨by rw [hdst]; rfl, hpt⟩
  · show Written k.mem k₃.mem {dst}
    rw [hmem]
    exact hw₁.trans hw₂
  · show ChildFrame _ (k₃.mem.ram dst)
    rw [hmem, htf₂, htf₁]
    exact childFrame_copy _ _
  · show update k₃.proc np { k₃.proc np with name := p.name, parent := some i, state := .runnable } = _
    rw [hslot, hproc, update_idem]

/-- The page at an address of the child: it was free, and has the contents and the flags of the parent's. -/
structure Twin (k k' : Machine) (old new va : Nat) : Prop where
  flags : entry k'.mem 3 new (va / pgSize) &&& mask4kPage = entry k.mem 3 old (va / pgSize) &&& mask4kPage
  fresh : ptePage (entry k'.mem 3 new (va / pgSize)) ∈ k.mem.freelist
  contents : k'.mem.ram (ptePage (entry k'.mem 3 new (va / pgSize))) = k.mem.ram (ptePage (entry k.mem 3 old (va / pgSize)))
  distinct : ∀ va', va' / pgSize < va / pgSize →
    ptePage (entry k'.mem 3 new (va' / pgSize)) ≠ ptePage (entry k'.mem 3 new (va / pgSize))

/-- The process `np` is a new child of `i`. -/
structure Forked (k k' : Machine) (i np : Nat) : Prop where
  slot : np < nproc ∧ (k.proc np).state = .unused
  others : ∀ j, j ≠ np → k'.proc j = k.proc j
  child : (k'.proc np).state = .runnable ∧ (k'.proc np).parent = some i ∧ (k'.proc np).pid = k.nextpid ∧
    (k'.proc np).size = (k.proc i).size ∧ (k'.proc np).name = (k.proc i).name
  frame : ∀ x, x ∉ k.mem.freelist → k'.mem.ram x = k.mem.ram x
  memory : ∃ old new, (k.proc i).pagetable = some old ∧ (k'.proc np).pagetable = some new ∧
    ∀ va, va < (k.proc i).size → Twin k k' old new va
  registers : ∃ src dst, (k.proc i).kstack = some src ∧ (k'.proc np).kstack = some dst ∧
    ChildFrame (k.mem.ram src) (k'.mem.ram dst)

/-- A failed `fork`: the pages are back, and a free slot has at most been reset. -/
def Unforked (k k' : Machine) : Prop :=
  k' = k ∨ ∃ m' np, Moves k.mem m' 0 0 ∧ np < nproc ∧ (k.proc np).state = .unused ∧ k' = k.born m' np (k.proc np).freed

theorem twin_of_copied {m₁ m₂ : Mem} {old : Nat} {l r : List Nat} (h : Inv T P k H)
    (hs : Space k.mem old l) (hl : tables k.mem 3 old + pages l ≤ inUse k) (hcount : pgCount size = l.length)
    (hkeep : ∀ x, x ∉ k.mem.freelist → m₁.ram x = k.mem.ram x) (hc : Copied m₁ m₂ new l r 0)
    (hmv₂ : Moves k.mem m₂ 0 ({ks} + (tables m₂ 3 new + pages r))) (hw : Written m₂ k'.mem {ks}) :
    (∀ x, x ∉ k.mem.freelist → k'.mem.ram x = k.mem.ram x) ∧ ∀ va, va < size → Twin k k' old new va := by
  have hlen : r.length = l.length := by
    rcases hc.done with ⟨-, hlen⟩ | ⟨hx, -⟩
    · exact hlen
    · cases hx
  have hpool₂ : Pool m₂ ({ks} + (tables m₂ 3 new + pages r)) :=
    (h.pool.mono (Multiset.zero_le _)).of_conserve hmv₂.conserve hmv₂.kend
  have hfresh : ∀ x ∈ {ks} + (tables m₂ 3 new + pages r), x ∈ k.mem.freelist := fun x hx => by
    have hmem : x ∈ ({ks} + (tables m₂ 3 new + pages r)) + ↑m₂.freelist := mem_add.mpr (.inl hx)
    rwa [hmv₂.conserve, zero_add, mem_coe] at hmem
  have hsp : Space k'.mem new r := (hw.space hc.space (hpool₂.mono (by
    rw [← add_assoc]
    exact Multiset.le_add_right _ _))).1
  refine ⟨fun x hx => ?_, fun va hva => ?_⟩
  · have hne : x ∉ ({ks} : Multiset Nat) := fun h => hx (hfresh x (mem_add.mpr (.inl h)))
    rw [hw.frame x hne, hmv₂.frame x (notMem_zero x) hx]
  have hn : va / pgSize < r.length := by
    rw [hlen, ← hcount]
    exact pgCount_lt (lt_of_le_of_lt (Nat.div_mul_le_self va pgSize) hva)
  have hmax : ∀ n, n < r.length → n < maxPages := fun n hn => lt_of_lt_of_le hn hsp.len
  have hpage : ∀ n, n < r.length → ptePage (r.getD n 0) ∈ pages r := fun n hn => by
    rw [getD_eq_getElem _ _ hn]
    exact List.mem_map_of_mem (getElem_mem hn)
  obtain ⟨hflags, hcont⟩ := hc.alike _ hn
  have hentry := hsp.entry _ (hmax _ hn)
  have hentry₀ := hs.entry _ (hmax _ hn)
  have hown : ptePage (l.getD (va / pgSize) 0) ∉ k.mem.freelist := by
    refine h.pool.not_free (mem_add.mpr (.inl (mem_of_le hl (mem_add.mpr (.inr ?_)))))
    rw [getD_eq_getElem _ _ (hlen ▸ hn)]
    exact List.mem_map_of_mem (getElem_mem _)
  refine ⟨by rw [hentry, hentry₀, hflags], ?_, ?_, fun va' hlt heq => ?_⟩
  · rw [hentry]
    exact hfresh _ (mem_add.mpr (.inr (mem_add.mpr (.inr (hpage _ hn)))))
  · rw [hentry, hentry₀, hw.frame _ (hpool₂.disjoint (mem_add.mpr (.inr (hpage _ hn)))), hcont, hkeep _ hown]
  · have hnd : (r.map ptePage).Nodup := coe_nodup.mp (nodup_of_le (le_trans
      (Multiset.le_add_left (pages r) (tables m₂ 3 new)) (le_trans (Multiset.le_add_left _ {ks})
        (Multiset.le_add_right _ _))) hpool₂.nodup)
    have hlt' := hlt.trans hn
    rw [hentry, hsp.entry _ (hmax _ hlt'), getD_eq_getElem _ _ hlt', getD_eq_getElem _ _ hn] at heq
    have hlen' : (r.map ptePage).length = r.length := length_map ..
    have heq' : (r.map ptePage)[va' / pgSize] = (r.map ptePage)[va / pgSize] := by simpa using heq
    exact Nat.ne_of_lt hlt (hnd.getElem_inj_iff.mp heq')

/-- What `fork` comes to. -/
def ForkEnd (k : Machine) (i : Nat) (r : Int) (k' : Machine) : Prop :=
  r = -1 ∧ Unforked k k' ∨ ∃ np, r = k.nextpid ∧ Forked k k' i np

section

variable (h : Inv T P k H)
include h

theorem forkChild_spec {m₁ : Mem} {p₁ : Proc} (h₁ : Inv T P (k.born m₁ np p₁) H)
    (hi : i < nproc) (hlt : np < nproc) (hne : i ≠ np) (hun : (k.proc np).state = .unused)
    (hmv₁ : Moves k.mem m₁ 0 (own m₁ p₁)) (hns : Space m₁ new [])
    (hp₁ : p₁ = { (k.proc np).chosen k.nextpid with kstack := some ks, pagetable := some new }) :
    Sat (do
        let p := (← get).proc i
        let old ← deref p.pagetable
        let new ← deref ((← get).proc np).pagetable
        if (← vm (uvmcopy old new p.size)) < 0 then
          freeproc np
          return -1
        else
          setProc np fun q => { q with size := p.size }
          let src ← deref p.kstack
          let dst ← deref ((← get).proc np).kstack
          vm (copyTf dst src)
          vm (setTf dst tfX0 0)
          dupFiles np p.ofile
          let pid := ((← get).proc np).pid
          setProc np fun q => { q with name := p.name, parent := some i, state := .runnable }
          return (pid : Int)) (k.born m₁ np p₁) (fun r k' => Inv T P k' H ∧ ForkEnd k i r k') otherPanic := by
  have hi₁ : (k.born m₁ np p₁).proc i = k.proc i := update_of_ne hne ..
  have hslot : (k.born m₁ np p₁).proc np = p₁ := update_self ..
  have hpt₁ : p₁.pagetable = some new := by rw [hp₁]
  have hst₁ : p₁.state = .used := by rw [hp₁]; rfl
  have hown : ∀ (m : Mem) (l : List Nat), Space m new l → own m p₁ = {ks} + (tables m 3 new + pages l) := by
    intro m l hs
    rw [hp₁, own, stackPages, spacePages, hs.leafPages_eq]
  rw [hown m₁ [] hns, pages_nil, add_zero] at hmv₁
  rw [sat_bind, sat_get, hi₁, sat_bind]
  refine sat_deref fun old hold => ?_
  rw [sat_bind, sat_get, hslot, hpt₁, sat_bind, sat_deref_some]
  obtain ⟨l, hs, hcount⟩ := (h.procs i hi).space old hold
  have hl : tables k.mem 3 old + pages l ≤ inUse k := by
    rw [inUse_split hi, own, hold, spacePages, hs.leafPages_eq]
    exact le_trans (Multiset.le_add_left _ _) (Multiset.le_add_right _ _)
  have hkeep : ∀ x, x ∉ k.mem.freelist → m₁.ram x = k.mem.ram x := fun x =>
    hmv₁.frame x (notMem_zero x)
  have hs₁ : Space m₁ old l := hs.congr fun x hx => hkeep x (h.pool.not_free (mem_add.mpr (.inl
    (mem_of_le hl (mem_add.mpr (.inl hx))))))
  have hpool : Pool m₁ (tables m₁ 3 new + (tables m₁ 3 old + pages l)) := by
    refine (h₁.pool_two hlt hi hne).mono ?_
    rw [hslot, hi₁, own, own, hpt₁, hold, spacePages, spacePages, ← hs₁.leafPages_eq]
    refine add_le_add ?_ (Multiset.le_add_left _ _)
    exact le_trans (Multiset.le_add_right _ _) (Multiset.le_add_left _ _)
  rw [sat_bind, sat_vm]
  refine (uvmcopy_spec hs₁ hns hcount hpool).mono ?_ fun _ h => h.elim
  rintro x m₂ ⟨r, hcopied⟩
  have hmv₂ : Moves k.mem m₂ 0 ({ks} + (tables m₂ 3 new + pages r)) :=
    hmv₁.trans ((hcopied.moves.add {ks}).congr (add_comm _ _) (add_comm _ _))
  rw [sat_ite]
  refine ⟨fun hneg => ?_, fun hpos => ?_⟩
  · have hr : r = [] := by
      rcases hcopied.done with ⟨hx, -⟩ | ⟨-, hr⟩
      · omega
      · exact hr
    subst hr
    have hsz₁ : p₁.size = 0 := by
      rw [hp₁]
      exact (h.procs np hlt).null ((h.procs np hlt).unused hun).2
    have h₂ := h₁.copied ((k.born m₁ np p₁).proc np) hlt (by rw [hslot, hst₁]) (by rw [hslot, hpt₁]) hns hcopied
      (by rw [hslot, hst₁]) rfl (by rw [hslot, hpt₁]) (by rw [hslot, hsz₁]; decide)
    rw [update_eq_self] at h₂
    refine (freeproc_spec h₂ hlt (by rw [hslot, hst₁]; decide)).bind fun _ k₃ hfreed => ?_
    obtain ⟨h₃, m₃, hmv₃, hk₃⟩ := hfreed
    rw [hslot, hown m₂ [] hcopied.space] at hmv₃
    refine ⟨h₃, .inl ⟨rfl, .inr ⟨m₃, np, hmv₂.trans hmv₃, hlt, hun, ?_⟩⟩⟩
    rw [hk₃, hslot, hp₁]
    simp only [Machine.born, update_idem]
    rfl
  · obtain rfl : x = 0 := by
      rcases hcopied.done with ⟨hx, -⟩ | ⟨hx, -⟩
      · exact hx
      · omega
    have hlen : r.length = l.length := by
      rcases hcopied.done with ⟨-, hlen⟩ | ⟨hx, -⟩
      · exact hlen
      · cases hx
    have h₂ := h₁.copied { (k.born m₁ np p₁).proc np with size := (k.proc i).size } hlt (by rw [hslot, hst₁])
      (by rw [hslot, hpt₁]) hns hcopied (by rw [hslot, hst₁]) rfl (by rw [hslot, hpt₁]) (by rw [hlen]; exact hcount)
    rw [sat_bind, sat_setProc]
    refine (forkRest_spec h₂ hlt ?_ ?_).imp fun r' k' hrest => ?_
    · simp only [update_self, hslot, hst₁]
    · simp only [update_self, hslot, hpt₁, isSome_some]
    obtain ⟨hinv, hr', src, dst, o, hsrc, hdst, hw, htf, hproc⟩ := hrest
    simp only [update_self, update_idem, hslot] at hr' hdst hproc hw htf
    obtain rfl : ks = dst := by
      rw [hp₁] at hdst
      exact some.inj hdst
    have hself := congrFun hproc np
    rw [update_self] at hself
    obtain ⟨hframe, htwin⟩ := twin_of_copied h hs hl hcount hkeep hcopied hmv₂ hw
    have hsrcfree : src ∉ k.mem.freelist := by
      refine h.pool.not_free (mem_add.mpr (.inl ?_))
      rw [inUse_split hi, own, hsrc]
      exact mem_add.mpr (.inl (mem_add.mpr (.inl (Multiset.mem_singleton_self src))))
    refine ⟨hinv, .inr ⟨np, by rw [hr', hp₁]; rfl, ⟨hlt, hun⟩, fun j hj => ?_, ?_, hframe, ?_, ?_⟩⟩
    · rw [hproc, update_of_ne hj]
      exact update_of_ne hj ..
    · rw [hself, hp₁]
      exact ⟨rfl, rfl, rfl, rfl, rfl⟩
    · exact ⟨old, new, hold, by rw [hself]; exact hpt₁, htwin⟩
    · refine ⟨src, ks, hsrc, by rw [hself]; exact hdst, ?_⟩
      rwa [hmv₂.frame src (notMem_zero src) hsrcfree] at htf

theorem fork_spec (hi : i < nproc) (hrun : (k.proc i).state = .running) :
    Sat (fork i) k (fun r k' => Inv T P k' H ∧ ForkEnd k i r k') otherPanic := by
  unfold fork
  refine (allocproc_spec h).bind fun r k₁ ⟨h₁, hk₁⟩ => ?_
  rcases hk₁ with ⟨rfl, rfl⟩ | ⟨np, m₁, p₁, hlt, hun, rfl, hmv₁, hnew, hr⟩
  · exact ⟨h₁, .inl ⟨rfl, .inl rfl⟩⟩
  cases hnew with
  | none => exact ⟨h₁, .inl ⟨rfl, .inr ⟨m₁, np, hmv₁.congr rfl (own_freed ..), hlt, hun, rfl⟩⟩⟩
  | some np' ks new hns =>
    obtain rfl := hr np' rfl
    have hne : i ≠ np' := by
      rintro rfl
      rw [hun] at hrun
      cases hrun
    exact forkChild_spec h h₁ hi hlt hne hun hmv₁ hns rfl

/-! ### exit and wait -/

theorem closeFiles_spec :
    Sat (closeFiles i) k (fun _ k' => Inv T P k' H ∧ k'.cpu = k.cpu) otherPanic := by
  unfold closeFiles
  refine sat_forM_range (I := fun _ t => Inv T P t H ∧ t.cpu = k.cpu) ⟨h, rfl⟩ fun fd _ t ht => ?_
  rw [sat_bind, sat_get]
  cases (t.proc i).ofile fd with
  | none => exact ht
  | some f =>
    show Sat (do fileclose f; setProc i _) t _ _
    refine (fileclose_spec ht.1).bind fun _ t₁ h₁ => ?_
    rw [sat_setProc]
    exact ⟨h₁.1.relabel_one ⟨rfl, rfl, rfl, rfl⟩, h₁.2.2.trans ht.2⟩

theorem Inv.leave {st : ProcState} {x : Int} (hc : (k.cpu c).proc = some i)
    (hst : st = .runnable ∨ st = .zombie) :
    Inv T P { k with proc := Function.update k.proc i { k.proc i with xstate := x, state := st },
                     cpu := Function.update k.cpu c { k.cpu c with proc := none } } H := by
  obtain ⟨hi, hrun⟩ := h.run c i hc
  have hok := h.procs i hi
  -- only the CPU that is left ran the process
  have hcpu : ∀ c' j, (Function.update k.cpu c { k.cpu c with proc := none } c').proc = some j →
      c' ≠ c ∧ (k.cpu c').proc = some j ∧ j ≠ i := by
    intro c' j hj
    have hne : c' ≠ c := by
      rintro rfl
      rw [update_self] at hj
      cases hj
    rw [update_of_ne hne] at hj
    refine ⟨hne, hj, ?_⟩
    rintro rfl
    exact hne (h.inj c' c j hj hc)
  refine h.change hi ((Moves.refl k.mem _).congr rfl rfl) ?_ (fun c' j hj => ?_) (fun c' c'' j hj hj' => ?_)
    fun hP c' j hj => ?_
  · refine ⟨hok.space, hok.null, fun hun => ?_, fun _ _ => hok.live (by rw [hrun]; decide) (by rw [hrun]; decide)⟩
    rcases hst with rfl | rfl <;> cases hun
  · obtain ⟨-, hj', hne⟩ := hcpu c' j hj
    rw [update_of_ne hne]
    exact h.run c' j hj'
  · exact h.inj c' c'' j (hcpu c' j hj).2.1 (hcpu c'' j hj').2.1
  · obtain ⟨hne, hj', hji⟩ := hcpu c' j hj
    rw [update_of_ne hji, update_of_ne hne]
    exact h.tlb hP c' j hj'

theorem exit_spec {status : Int} (hc : (k.cpu c).proc = some i) :
    Sat (exit c i status) k (fun _ k' => Inv T P k' H) otherPanic := by
  unfold exit
  rw [sat_bind, sat_get, sat_ite]
  refine ⟨fun _ => ?_, fun _ => ?_⟩
  · show otherPanic "init exiting"
    simp [otherPanic]
  refine (closeFiles_spec h).bind fun _ k₁ hk₁ => ?_
  obtain ⟨h₁, hcpu⟩ := hk₁
  rw [sat_bind]
  refine Sat.imp (Q := fun _ k₂ => Inv T P k₂ H ∧ k₂.cpu = k₁.cpu) ?_ fun _ k₂ hk₂ => ?_
  · refine ⟨h₁.relabel fun j => ?_, rfl⟩
    show SameProc (k₁.proc j) (if (k₁.proc j).parent = some i then _ else k₁.proc j)
    split
    · exact ⟨rfl, rfl, rfl, rfl⟩
    · exact SameProc.refl _
  · rw [sat_bind, sat_setProc]
    exact hk₂.1.leave (by rw [hk₂.2, hcpu]; exact hc) (.inr rfl)

theorem wait_spec {addr : Nat} (hi : i < nproc) :
    Sat (wait i addr) k (fun _ k' => Inv T P k' H) otherPanic := by
  unfold wait
  rw [sat_bind, sat_get]
  cases hfind : (List.range nproc).find? fun j => (k.proc j).parent = some i ∧ (k.proc j).state = .zombie with
  | none =>
    rw [sat_ite]
    exact ⟨fun _ => h, fun _ => h⟩
  | some j =>
    have hj : j < nproc := List.mem_range.mp (List.mem_of_find?_eq_some hfind)
    have hz : (k.proc j).state = .zombie := by
      have := List.find?_some hfind
      simp only [decide_eq_true_eq] at this
      exact this.2
    have hnr : (k.proc j).state ≠ .running := by rw [hz]; decide
    dsimp only
    rw [sat_bind]
    refine sat_deref fun pt hpt => ?_
    rw [sat_ite]
    refine ⟨fun _ => ?_, fun _ => ?_⟩
    · refine (copyout_keeps h hi hpt).bind fun x k₁ h₁ => ?_
      rw [sat_ite]
      refine ⟨fun _ => h₁.1, fun _ => ?_⟩
      rw [sat_bind]
      exact (freeproc_spec h₁.1 hj (by rw [h₁.2.1]; exact hnr)).imp fun _ k₂ h₂ => h₂.1
    · rw [sat_bind]
      exact (freeproc_spec h hj hnr).imp fun _ k₂ h₂ => h₂.1

theorem kill_spec {pid : Int} : Sat (kill pid) k (fun _ k' => Inv T P k' H) otherPanic := by
  unfold kill
  rw [sat_bind, sat_get]
  cases hfind : (List.range nproc).find? fun j => ((k.proc j).pid : Int) = pid with
  | none => exact h
  | some j =>
    have hj : j < nproc := List.mem_range.mp (List.mem_of_find?_eq_some hfind)
    have hok := h.procs j hj
    dsimp only
    rw [sat_bind, sat_setProc, sat_pure]
    by_cases hsl : (k.proc j).state = .sleeping
    · have hnr : (k.proc j).state ≠ .running := by rw [hsl]; decide
      rw [if_pos hsl]
      refine h.update hj ((Moves.refl k.mem _).congr rfl rfl) ?_ (fun hr => absurd hr hnr)
        (fun _ hr => absurd hr hnr)
      refine ⟨hok.space, hok.null, fun hun => ?_, fun _ _ =>
        hok.live (by rw [hsl]; decide) (by rw [hsl]; decide)⟩
      cases hun
    · rw [if_neg hsl]
      exact h.relabel_one ⟨rfl, rfl, rfl, rfl⟩

end

/-! ### growproc -/

/-- A change of the size that takes no page away. -/
def KeepsPages (size : Nat) (n : Int) : Prop :=
  n < 0 → 0 ≤ size + n → pgCount (size + n).toNat = pgCount size

theorem Inv.resize {l l' : List Nat} (h : Inv T P k H) (hi : i < nproc)
    (hpt : (k.proc i).pagetable = some pt) (hs : Space k.mem pt l) (hs' : Space m' pt l')
    (hcount : pgCount size = l'.length)
    (hmv : Moves k.mem m' (tables k.mem 3 pt + pages l) (tables m' 3 pt + pages l'))
    (hsub : P → ∀ x ∈ pages l, x ∈ pages l') :
    Inv T P { k with mem := m', proc := Function.update k.proc i { k.proc i with size := size } } H := by
  have hok := h.procs i hi
  refine h.update hi ?_ ?_ id fun hP _ pt' hpt' => ?_
  · refine ((hmv.add (stackPages (k.proc i).kstack)).add H).congr ?_ ?_
    · rw [own, hpt, spacePages, hs.leafPages_eq, add_comm (stackPages _)]
    · rw [own]
      show _ = stackPages (k.proc i).kstack + spacePages m' (k.proc i).pagetable + H
      rw [hpt, spacePages, hs'.leafPages_eq, add_comm (stackPages _)]
  · refine ⟨fun pt' hpt' => ?_, fun hnone => ?_, hok.unused, hok.live⟩
    · cases hpt.symm.trans hpt'
      exact ⟨l', hs', hcount⟩
    · exact (some_ne_none pt (hpt.symm.trans hnone)).elim
  · cases hpt.symm.trans hpt'
    rw [hs.leafPages_eq, hs'.leafPages_eq]
    exact ⟨hpt, hsub hP⟩

theorem addInt_of_nonneg (h0 : 0 ≤ size + n) (h1 : size + n < 2 ^ 64) : addInt size n = (size + n).toNat := by
  unfold addInt
  rw [Int.emod_eq_of_lt h0 h1]

theorem le_addInt_of_neg (h0 : size + n < 0) (h1 : -2 ^ 31 ≤ n) (h2 : size < 2 ^ 32) :
    size ≤ addInt size n := by
  have hmod : (size + n) % 2 ^ 64 = size + n + 2 ^ 64 := by
    rw [← Int.add_emod_right]
    exact Int.emod_eq_of_lt (by omega) (by omega)
  unfold addInt
  rw [hmod]
  omega

theorem pgCount_mono {a b : Nat} (h : a ≤ b) : pgCount a ≤ pgCount b :=
  Nat.div_le_div_right (Nat.sub_le_sub_right (Nat.add_le_add_right h _) _)

/-- The live address space of a process: its pages fit, and its size is a small number. -/
theorem Inv.live_space (h : Inv T P k H) (hi : i < nproc) (hpt : (k.proc i).pagetable = some pt) :
    ∃ l, Space k.mem pt l ∧ pgCount (k.proc i).size = l.length ∧ Pool k.mem (tables k.mem 3 pt + pages l) ∧
      (k.proc i).size < 2 ^ 32 := by
  obtain ⟨l, hs, hcount⟩ := (h.procs i hi).space pt hpt
  have hpool : Pool k.mem (tables k.mem 3 pt + pages l) := (h.pool_own hi).mono (by
    rw [own, hpt, spacePages, hs.leafPages_eq]
    exact Multiset.le_add_left _ _)
  have hlen : l.length ≤ 32768 := by
    have hcard := hpool.card_le
    rw [card_add, card_pages] at hcard
    omega
  refine ⟨l, hs, hcount, hpool, ?_⟩
  unfold pgCount at hcount
  unfold pgSize at hcount
  omega

theorem shrink_spec {newsz : Nat} {l : List Nat} (hs : Space m pt l)
    (hpool : Pool m (tables m 3 pt + pages l)) (hcount : pgCount size = l.length) (hlt : newsz < size) :
    Sat (uvmdealloc pt size newsz) m (fun sz m' => sz = newsz ∧ Space m' pt (l.take (pgCount newsz)) ∧
      (l.take (pgCount newsz)).length = pgCount newsz ∧
      pages l = pages (l.take (pgCount newsz)) + pages (l.drop (pgCount newsz)) ∧
      Moves m m' (tables m 3 pt + pages (l.drop (pgCount newsz))) (tables m' 3 pt) ∧
      (↑m'.freelist : Multiset Nat) = ↑m.freelist + pages (l.drop (pgCount newsz))) fun _ => False := by
  have hle : pgCount newsz ≤ l.length := hcount ▸ pgCount_mono hlt.le
  have htake : (l.take (pgCount newsz)).length = pgCount newsz := by
    rw [length_take]
    omega
  have hdrop : (l.drop (pgCount newsz)).length = l.length - pgCount newsz := length_drop
  have hs₁ : Space m pt (l.take (pgCount newsz) ++ l.drop (pgCount newsz)) := by
    rwa [take_append_drop]
  have hpages : pages l = pages (l.take (pgCount newsz)) + pages (l.drop (pgCount newsz)) := by
    rw [← pages_append, take_append_drop]
  have hpool₁ : Pool m (tables m 3 pt + pages (l.drop (pgCount newsz))) := by
    refine hpool.mono ?_
    rw [hpages]
    exact add_le_add le_rfl (Multiset.le_add_left _ _)
  refine (uvmdealloc_spec hs₁ hpool₁ hlt ?_ ?_).imp ?_
  · rw [pgRoundUp_of_count hcount hpool.length_lt.le, htake, hdrop, Nat.add_sub_cancel' hle]
  · rw [htake]
    refine pgRoundUp_of_count rfl ?_
    exact le_trans hle hpool.length_lt.le
  · rintro sz m' ⟨rfl, hs', hun⟩
    exact ⟨rfl, hs', htake, hpages, hun.moves, hun.free⟩

theorem growproc_spec (h : Inv T P k H) (hi : i < nproc) (hn : -2 ^ 31 ≤ n ∧ n < 2 ^ 31)
    (hkeep : P → KeepsPages (k.proc i).size n) :
    Sat (growproc i n) k (fun _ k' => Inv T P k' H) otherPanic := by
  unfold growproc
  rw [sat_bind, sat_get, sat_bind]
  refine sat_deref fun pt hpt => ?_
  obtain ⟨l, hs, hcount, hpool, hsize⟩ := h.live_space hi hpt
  have hold : pgRoundUp (k.proc i).size = l.length * pgSize :=
    pgRoundUp_of_count hcount hpool.length_lt.le
  rw [sat_ite]
  refine ⟨fun hpos => ?_, fun hnpos => ?_⟩
  · rw [addInt_of_nonneg (by omega) (by omega), sat_bind, sat_vm]
    refine (uvmalloc_spec hs hpool isFlags_rwXn hold (by omega) (by omega)).mono ?_ fun _ h => h.elim
    intro sz m₁ hext
    cases hext with
    | ok l' hs' _ _ hcount' hmv _ =>
      rw [if_neg (by omega), sat_bind, sat_setProc, sat_pure]
      refine h.resize hi hpt hs hs' hcount'.symm ((hmv.add (pages l)).congr rfl ?_) fun _ x hx => ?_
      · rw [pages_append]
        abel
      · rw [pages_append]
        exact mem_add.mpr (.inl hx)
    | full hs' hmv _ =>
      rw [if_pos rfl, sat_pure]
      have h₁ : Inv T P { k with mem := m₁, proc := update k.proc i (k.proc i) } H :=
        h.resize hi hpt hs hs' hcount (hmv.add (pages l)) fun _ x hx => hx
      rwa [update_eq_self] at h₁
  · rw [sat_ite]
    refine ⟨fun hneg => ?_, fun _ => h⟩
    rw [sat_bind, sat_vm]
    by_cases h0 : 0 ≤ ((k.proc i).size : Int) + n
    · rw [addInt_of_nonneg h0 (by omega)]
      generalize hnew : ((k.proc i).size + n).toNat = newsz
      have hlt : newsz < (k.proc i).size := by omega
      refine (shrink_spec hs hpool hcount hlt).mono ?_ fun _ h => h.elim
      rintro sz m₁ ⟨rfl, hs', htake, hpages, hmv, -⟩
      rw [sat_bind, sat_setProc, sat_pure]
      refine h.resize hi hpt hs hs' htake.symm ?_ fun hP x hx => ?_
      · refine (hmv.add (pages (l.take (pgCount sz)))).congr ?_ rfl
        rw [hpages]
        abel
      · have hk := hkeep hP hneg h0
        rw [hnew] at hk
        rwa [hk, hcount, take_length]
    · rw [sat_uvmdealloc_le (le_addInt_of_neg (by omega) hn.1 hsize), sat_bind, sat_setProc, sat_pure]
      exact h.relabel_one ⟨rfl, rfl, rfl, rfl⟩

end Xv6Armv8.Kernel

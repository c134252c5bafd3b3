import Xv6Armv8.ExecArgs
import Xv6Armv8.KernelProcs

/-! `exec` and `sys_exec`. The new image is built from free pages beside the old one, which goes only when
the new table is in `TTBR0` and the TLB is empty. In a state that keeps the pages together nothing in this
can panic but a segment that is not backed, and that makes `exec` panic exactly where the headers of the
file say so. -/

namespace Xv6Armv8.Kernel

open Spec Vm FileTable Exec Function Multiset Option

variable {T H H' : Multiset Nat} {P : Prop} {k k' : Machine} {i c : Nat} {E : String → Prop}

/-- The file loads, if there is one. -/
def LoadsFile : Option Content → Nat → Prop
  | none, _ => True
  | some f, free => Loads f free

theorem Inv.held {m' : Mem} (h : Inv T P k H) (hmv : Moves k.mem m' H H') : Inv T P { k with mem := m' } H' := by
  refine h.files ((hmv.add (livePipes k.ftable).val).congr ?_ ?_) h.pipes
  · rw [add_comm]
  · rw [add_comm]

/-- Only the memory differs: the call holds the pages `B` for the pages `A`. -/
def MemMoves (k k' : Machine) (A B : Multiset Nat) : Prop := ∃ m', k' = { k with mem := m' } ∧ Moves k.mem m' A B

theorem MemMoves.refl (k : Machine) (A : Multiset Nat) : MemMoves k k A A := ⟨k.mem, rfl, Moves.refl _ _⟩

theorem MemMoves.trans {k'' : Machine} {A B C : Multiset Nat} (h : MemMoves k k' A B) (h' : MemMoves k' k'' B C) :
    MemMoves k k'' A C := by
  obtain ⟨m', rfl, hmv⟩ := h
  obtain ⟨m'', rfl, hmv'⟩ := h'
  exact ⟨m'', rfl, hmv.trans hmv'⟩

theorem MemMoves.add {A B : Multiset Nat} (h : MemMoves k k' A B) (F : Multiset Nat) : MemMoves k k' (A + F) (B + F) := by
  obtain ⟨m', rfl, hmv⟩ := h
  exact ⟨m', rfl, hmv.add F⟩

theorem Inv.memMoves {A B : Multiset Nat} (h : Inv T P k (A + H)) (hmv : MemMoves k k' A B) : Inv T P k' (B + H) := by
  obtain ⟨m', rfl, hmv⟩ := hmv
  exact h.held (hmv.add H)

theorem freeOld_spec {m₁ m₂ : Mem} {ks old new size : Nat} {lo l : List Nat}
    (hp : Pool m₁ ({ks} + (tables m₁ 3 old + pages lo) + (tables m₁ 3 new + pages l)))
    (hold : Space m₁ old lo) (hnew : Space m₁ new l) (hsz : pgCount size = lo.length)
    (hw : Written m₁ m₂ {ks}) :
    Sat (uvmfree old size) m₂ (fun _ m₃ => Space m₃ new l ∧ m₃.ram ks = m₂.ram ks ∧
      (∀ x ∈ tables m₁ 3 new + pages l, m₃.ram x = m₁.ram x) ∧ Moves m₁ m₃ ({ks} + (tables m₁ 3 old + pages lo) + (tables m₁ 3 new + pages l))
        ({ks} + (tables m₃ 3 new + pages l))) fun _ => False := by
  -- the stack page is no page of either table
  have hpk : Pool m₁ ({ks} + ((tables m₁ 3 old + pages lo) + (tables m₁ 3 new + pages l))) :=
    hp.congr (add_assoc _ _ _)
  have hold_same : ∀ x ∈ tables m₁ 3 old, m₂.ram x = m₁.ram x := fun x hx =>
    hw.frame x (hpk.disjoint (mem_add.mpr (.inl (mem_add.mpr (.inl hx)))))
  have hall_same : ∀ x ∈ tables m₁ 3 new + pages l, m₂.ram x = m₁.ram x := fun x hx =>
    hw.frame x (hpk.disjoint (mem_add.mpr (.inr hx)))
  have hnew_same : ∀ x ∈ tables m₁ 3 new, m₂.ram x = m₁.ram x := fun x hx =>
    hall_same x (mem_add.mpr (.inl hx))
  have hto := tables_congr hold_same
  have htn := tables_congr hnew_same
  have hmv₁ : Moves m₁ m₂ ({ks} + (tables m₁ 3 old + pages lo) + (tables m₁ 3 new + pages l))
      (tables m₂ 3 old + pages lo + ({ks} + (tables m₂ 3 new + pages l))) :=
    (hw.moves.add ((tables m₁ 3 old + pages lo) + (tables m₁ 3 new + pages l))).congr
      (add_assoc _ _ _).symm (by rw [hto, htn]; abel)
  have hp₂ : Pool m₂ (tables m₂ 3 old + pages lo + ({ks} + (tables m₂ 3 new + pages l))) :=
    hp.of_conserve hmv₁.conserve hmv₁.kend
  have hpo : Pool m₂ (tables m₂ 3 old + pages lo) := hp₂.mono (Multiset.le_add_right _ _)
  refine (uvmfree_spec (hold.congr hold_same) (pgRoundUp_of_count hsz hpo.length_lt.le) hpo).imp
    fun _ m₃ hmv₂ => ?_
  have hall_same₂ : ∀ x ∈ tables m₂ 3 new + pages l, m₃.ram x = m₂.ram x := fun x hx =>
    hmv₂.keeps hp₂ (mem_add.mpr (.inr hx))
  have hnew_same₂ : ∀ x ∈ tables m₂ 3 new, m₃.ram x = m₂.ram x := fun x hx =>
    hall_same₂ x (mem_add.mpr (.inl hx))
  refine ⟨(hnew.congr hnew_same).congr hnew_same₂,
    hmv₂.keeps hp₂ (mem_add.mpr (.inl (mem_singleton_self ks))), fun x hx => ?_, ?_⟩
  · rw [hall_same₂ x (by rwa [htn]), hall_same x hx]
  exact hmv₁.trans ((hmv₂.add _).congr rfl (by rw [zero_add, tables_congr hnew_same₂]))

theorem Inv.commit {m' : Mem} {N : Multiset Nat} {ks pde : Nat} {l : List Nat} {p' : Proc}
    (h : Inv T P k (H + N)) (hc : (k.cpu c).proc = some i) (hks : p'.kstack = some ks)
    (hpt : p'.pagetable = some pde) (hst : p'.state = .running) (hcount : pgCount p'.size = l.length)
    (hs : Space m' pde l)
    (hmv : Moves k.mem m' (own k.mem (k.proc i) + N) ({ks} + (tables m' 3 pde + pages l))) :
    Inv T P { k with mem := m', proc := Function.update k.proc i p',
                     cpu := Function.update k.cpu c { k.cpu c with ttbr0 := v2p pde, tlb := [] } } H := by
  obtain ⟨hi, hrun⟩ := h.run c i hc
  have hproc : ∀ c' j, (Function.update k.cpu c { k.cpu c with ttbr0 := v2p pde, tlb := [] } c').proc =
      some j → (k.cpu c').proc = some j := by
    intro c' j hj
    by_cases hne : c' = c
    · subst hne
      simpa only [update_self] using hj
    · rwa [update_of_ne hne] at hj
  have hmv' : Moves k.mem m' (own k.mem (k.proc i) + (H + N)) (own m' p' + H) :=
    (hmv.add H).congr (by abel) (by rw [own, hks, hpt, stackPages, spacePages, hs.leafPages_eq])
  refine h.change hi hmv' ?_ (fun c' j hj => ?_) (fun c' c'' j hj hj' => ?_) fun hP c' j hj => ?_
  · refine ⟨fun pt hpt' => ?_, fun hnone => ?_, fun hun => ?_, fun _ _ => ?_⟩
    · cases hpt.symm.trans hpt'
      exact ⟨l, hs, hcount⟩
    · exact (some_ne_none pde (hpt.symm.trans hnone)).elim
    · rw [hst] at hun
      cases hun
    · rw [hks, hpt]
      exact ⟨rfl, rfl⟩
  · obtain ⟨hj', hrun'⟩ := h.run c' j (hproc c' j hj)
    refine ⟨hj', ?_⟩
    by_cases hne : j = i
    · rw [hne, update_self]
      exact hst
    · rwa [update_of_ne hne]
  · exact h.inj c' c'' j (hproc c' j hj) (hproc c'' j hj')
  · by_cases hne : c' = c
    · subst hne
      have hji : j = i := some.inj ((hproc c' j hj).symm.trans hc)
      rw [hji, update_self, update_self]
      refine ⟨fun pt hpt' => ?_, fun pt _ x hx => ?_⟩
      · cases hpt.symm.trans hpt'
        rfl
      · cases hx
    · have hji : j ≠ i := by
        rintro rfl
        exact hne (h.inj c' c j (hproc c' j hj) hc)
      rw [update_of_ne hne]
      exact h.tlb_other hi hmv' hP (hproc c' j hj) hji

/-- How `exec` ends: with -1 and the process as it was, or with a new table from free pages that the process
has and CPU `c` translates through. -/
def ExecEnd (c i : Nat) (k : Machine) (r : Int) (k' : Machine) : Prop :=
  (r = -1 ∧ k'.proc = k.proc ∧ k'.cpu = k.cpu) ∨
    (0 ≤ r ∧ ∃ pde ∈ k.mem.freelist, (k'.proc i).pagetable = some pde ∧ (k'.cpu c).ttbr0 = v2p pde)

theorem root_free {m m' : Mem} {pde size : Nat} {l : List Nat} (h : Mid m m' pde size l) :
    pde ∈ m.freelist := by
  have hmem : pde ∈ tables m' 3 pde + pages l + ↑m'.freelist :=
    mem_add.mpr (.inl (mem_add.mpr (.inl (Radix.mem_nodes_self ..))))
  rwa [h.moves.conserve, zero_add, mem_coe] at hmem

/-- The stack that a program starts with, as its registers `sp` and `x1` say. -/
def Passed (m : Mem) (p : Proc) (argv : List (List UInt8)) : Prop :=
  ∃ ks pt sp, p.kstack = some ks ∧ p.pagetable = some pt ∧ (m.ram ks).ld (tfOff + 8 * tfSp) 8 = sp ∧
    (m.ram ks).ld (tfOff + 8 * tfX1) 8 = sp ∧ Laid m pt p.size sp argv

theorem Passed.congr {m m' : Mem} {p : Proc} {argv : List (List UInt8)} (h : Passed m p argv) (hram : m'.ram = m.ram) :
    Passed m' p argv := by
  obtain ⟨ks, pt, sp, hks, hpt, hsp, hx1, hlaid⟩ := h
  refine ⟨ks, pt, sp, hks, hpt, by rwa [hram], by rwa [hram], hlaid.congr fun va => ?_⟩
  have hsame : ∀ x ∈ tables m 3 pt, m'.ram x = m.ram x := fun x _ => congrFun hram x
  unfold userByte
  simp only [userPage_congr hsame, transl_congr hsame, hram]

/-- **`exec` panics exactly where a segment of the file is not backed**, and keeps the pages together. -/
theorem exec_spec {path : List UInt8} {argv : List (List UInt8)} {file : Option Content} (h : Inv T P k H)
    (hstr : Strings argv) (hc : (k.cpu c).proc = some i) :
    Sat (exec c i path argv file) k
      (fun r k' => Inv T P k' H ∧ LoadsFile file k.mem.freelist.length ∧ ExecEnd c i k r k' ∧
        (r = -1 → MemMoves k k' 0 0) ∧ (0 ≤ r → r = argv.length ∧ Fits argv ∧ Passed k'.mem (k'.proc i) argv))
      fun e => e = noAddress ∧ ¬LoadsFile file k.mem.freelist.length := by
  obtain ⟨hi, hrun⟩ := h.run c i hc
  unfold exec
  cases file with
  | none => exact ⟨h, trivial, .inl ⟨rfl, rfl, rfl⟩, fun _ => .refl k 0, fun h0 => absurd h0 (by decide)⟩
  | some f =>
    rw [sat_bind, sat_vm]
    refine (image_spec hstr (h.pool.mono (Multiset.zero_le _))).imp fun r m₁ hr => ?_
    obtain ⟨hloads, hbuilt, hready⟩ := hr
    cases r with
    | none =>
      exact ⟨h.held ((Moves.add hbuilt H).congr (zero_add H) (zero_add H)), hloads, .inl ⟨rfl, rfl, rfl⟩,
        fun _ => ⟨m₁, rfl, hbuilt⟩, fun h0 => absurd h0 (by decide)⟩
    | some im =>
      obtain ⟨l, hmid⟩ := hbuilt
      obtain ⟨hargc, hlaid, hfits⟩ := hready im rfl
      have hsp : im.sp % 256 ^ 8 = im.sp := Nat.mod_eq_of_lt (lt_trans hlaid.sp_lt hmid.size_lt)
      have h₁ : Inv T P { k with mem := m₁ } (H + (tables m₁ 3 im.pde + pages l)) :=
        h.held ((hmid.moves.add H).congr (zero_add H) (add_comm _ _))
      obtain ⟨hks, hpt⟩ := (h.procs i hi).live (by rw [hrun]; decide) (by rw [hrun]; decide)
      obtain ⟨ks, hks⟩ := isSome_iff_exists.mp hks
      obtain ⟨old, hpt⟩ := isSome_iff_exists.mp hpt
      obtain ⟨lo, hso, hco⟩ := (h₁.procs i hi).space old hpt
      dsimp only
      rw [sat_bind, sat_get]
      dsimp only
      rw [hks, hpt, sat_bind, sat_deref_some, sat_bind, sat_deref_some, sat_bind, sat_vm]
      refine written_setTf fun m₂ hw₂ htf₂ => ?_
      rw [sat_bind, sat_setProc, sat_bind, sat_vm]
      refine written_setTf fun m₃ hw₃ htf₃ => ?_
      rw [sat_bind, sat_vm]
      refine written_setTf fun m₄ hw₄ htf₄ => ?_
      have hw : Written m₁ m₄ {ks} := (hw₂.trans hw₃).trans hw₄
      unfold uvmswitch
      rw [sat_bind, sat_bind, sat_get]
      simp only [update_self]
      rw [sat_modify, sat_bind, sat_vm]
      have hown : own m₁ (k.proc i) = {ks} + (tables m₁ 3 old + pages lo) := by
        rw [own, hks, hpt, stackPages, spacePages, hso.leafPages_eq]
      have hpool : Pool m₁ ({ks} + (tables m₁ 3 old + pages lo) + (tables m₁ 3 im.pde + pages l)) := by
        rw [← hown]
        refine h₁.pool.mono ?_
        rw [inUse_split hi, add_assoc]
        refine add_le_add le_rfl ?_
        exact le_trans (Multiset.le_add_left _ _) (Multiset.le_add_left _ _)
      refine (freeOld_spec hpool hso hmid.space hco hw).mono ?_ fun _ h => h.elim
      rintro _ m₅ ⟨hs₅, htf₅, hsame₅, hmv₅⟩
      rw [← hown] at hmv₅
      refine ⟨h₁.commit hc hks rfl hrun hmid.count hs₅ hmv₅, hloads, .inr ⟨Int.natCast_nonneg _, im.pde,
        root_free hmid, ?_, ?_⟩, fun hr => absurd hr (by omega), fun _ => ⟨by rw [hargc], hfits, ks, im.pde, im.sp, ?_, ?_, ?_, ?_, ?_⟩⟩
      · simp only [update_self]
      · simp only [update_self]
      · simp only [update_self]
        exact hks
      · simp only [update_self]
      · rw [htf₅, htf₄, ByteStore.ld_st_self, hsp]
      · rw [htf₅, htf₄, ByteStore.ld_st_of_disjoint (by decide), htf₃, ByteStore.ld_st_of_disjoint (by decide), htf₂,
          ByteStore.ld_st_self, hsp]
      · simp only [update_self]
        exact hlaid.congr fun va => hmid.space.userByte_congr hsame₅

/-! ### The arguments -/

theorem fetchaddr_spec {addr : Nat} : Sat (fetchaddr i addr) k (fun _ k' => k' = k) otherPanic := by
  unfold fetchaddr
  rw [sat_bind, sat_get, sat_bind]
  refine sat_deref fun pt _ => ?_
  rw [sat_ite]
  refine ⟨fun _ => rfl, fun _ => ?_⟩
  rw [sat_bind, sat_vm]
  refine copyin_spec.imp ?_
  rintro _ _ rfl
  rfl

theorem fetchstr_spec {addr max : Nat} : Sat (fetchstr i addr max) k
    (fun r k' => k' = k ∧ ∀ s, r = some s → s.length < max ∧ (0 : UInt8) ∉ s) otherPanic := by
  unfold fetchstr
  rw [sat_bind, sat_get, sat_bind]
  refine sat_deref fun pt _ => ?_
  rw [sat_vm]
  refine copyinstr_spec.imp ?_
  rintro _ _ ⟨rfl, hs⟩
  exact ⟨rfl, hs⟩

theorem fetchArgs_spec {uargv : Nat} (n : Nat) : ∀ (j : Nat) (k : Machine), Sat (fetchArgs i uargv n j) k
    (fun r k' => MemMoves k k' 0 ↑r.1 ∧ ∀ argv, r.2 = some argv → argv.length < n ∧ Strings argv) otherPanic := by
  induction n with
  | zero => intro j k; exact ⟨.refl k 0, fun _ he => nomatch he⟩
  | succ n ih =>
    intro j k
    unfold fetchArgs
    rw [sat_bind]
    refine fetchaddr_spec.imp ?_
    intro r k₀ hk₀
    obtain rfl : k = k₀ := hk₀.symm
    cases r with
    | none => exact ⟨.refl k 0, fun _ he => nomatch he⟩
    | some uarg =>
      dsimp only
      rw [sat_ite]
      refine ⟨fun _ => ⟨.refl k 0, fun argv he => ?_⟩, fun _ => ?_⟩
      · cases he
        exact ⟨Nat.succ_pos n, fun s hs => absurd hs List.not_mem_nil⟩
      rw [sat_bind, sat_vm, sat_kalloc]
      refine ⟨fun _ => ⟨.refl k 0, fun _ he => nomatch he⟩, fun pg rest hcons => ?_⟩
      have hmv := kalloc_moves hcons 0
      rw [zero_add] at hmv
      dsimp only
      rw [sat_bind]
      refine fetchstr_spec.imp ?_
      intro r k₀ hk₀
      obtain rfl := hk₀.1.symm
      cases r with
      | none => exact ⟨⟨_, rfl, hmv⟩, fun _ he => nomatch he⟩
      | some s =>
        dsimp only
        rw [sat_bind, sat_vm, sat_modify, sat_bind]
        have hw : Written (k.mem.taken pg rest) ((k.mem.taken pg rest).setPage pg
          (((k.mem.taken pg rest).ram pg).put 0 (s ++ [0]))) {pg} := written_setPage (mem_singleton_self pg)
        refine (ih (j + 1) _).imp fun r k' ⟨hrest, hargv⟩ => ⟨?_, fun argv he => ?_⟩
        · have hrest' := hrest.add {pg}
          rw [zero_add, add_comm, singleton_add, cons_coe] at hrest'
          exact MemMoves.trans ⟨_, rfl, hmv.trans hw.moves⟩ hrest'
        · obtain ⟨argv', hargv', rfl⟩ := map_eq_some_iff.mp he
          obtain ⟨hlen, hstr⟩ := hargv argv' hargv'
          exact ⟨Nat.succ_lt_succ hlen, List.forall_mem_cons.mpr ⟨hk₀.2 s rfl, hstr⟩⟩

theorem freeArgs_spec (pgs : List Nat) : ∀ (k : Machine), Inv T P k (↑pgs + H) →
    Sat (freeArgs pgs) k (fun _ k' => MemMoves k k' ↑pgs 0 ∧ k'.mem.ram = k.mem.ram) E := by
  induction pgs with
  | nil => exact fun k _ => ⟨.refl k 0, rfl⟩
  | cons pg pgs ih =>
    intro k h
    have hcons : (↑(pg :: pgs) : Multiset Nat) = ↑pgs + {pg} := by
      rw [← cons_coe, ← singleton_add, add_comm]
    have hval : ValidPage pg := h.pool.valid_used (mem_add.mpr
      (.inr (mem_add.mpr (.inl (mem_coe.mpr List.mem_cons_self)))))
    have hmv := freed_moves (m := k.mem) pg ↑pgs
    rw [hcons, add_right_comm] at h
    rw [hcons]
    unfold freeArgs at ih ⊢
    rw [List.forM_eq_forM, List.forM_cons, sat_bind, sat_vm, sat_kfree hval h.hi h.lo]
    exact (ih _ (h.held (freed_moves pg _))).imp fun _ k' ⟨hrest, hram⟩ => ⟨MemMoves.trans ⟨_, rfl, hmv⟩ hrest, hram⟩

/-- The value of `sys_exec` and what it is for the arguments fetched. -/
def ArgsEnd (i uargv : Nat) (k : Machine) (r : Int) (k' : Machine) : Prop :=
  ∀ pgs argv k₁, fetchArgs i uargv maxArg 0 k = .ok ((pgs, some argv), k₁) →
    r = -1 ∨ r = argv.length ∧ Fits argv ∧ Passed k'.mem (k'.proc i) argv

theorem sysExec_spec {upath uargv : Nat} {file : Option Content} (h : Inv T P k H)
    (hc : (k.cpu c).proc = some i) :
    Sat (sysExec c i upath uargv file) k
      (fun r k' => Inv T P k' H ∧ (r = -1 → MemMoves k k' 0 0) ∧ ArgsEnd i uargv k r k') otherPanic := by
  unfold sysExec
  rw [sat_bind]
  refine fetchstr_spec.imp ?_
  intro r k₀ hk₀
  obtain rfl : k = k₀ := hk₀.1.symm
  cases r with
  | none => exact ⟨h, fun _ => .refl k 0, fun _ _ _ _ => .inl rfl⟩
  | some path =>
    dsimp only
    rw [sat_bind]
    refine (fetchArgs_spec maxArg 0 k).eqn.imp ?_
    rintro ⟨pgs, argv⟩ k₁ ⟨hargs, hfetch, hargv⟩
    have h₁ : Inv T P k₁ (↑pgs + H) := Inv.memMoves (A := 0) (by rwa [zero_add]) hfetch
    cases argv with
    | none =>
      dsimp only
      refine (freeArgs_spec pgs k₁ h₁).bind fun _ k₂ ⟨hfree, _⟩ => ⟨?_, fun _ => hfetch.trans hfree, fun _ _ _ _ => .inl rfl⟩
      have h₂ := h₁.memMoves hfree
      rwa [zero_add] at h₂
    | some argv =>
      have hc₁ : (k₁.cpu c).proc = some i := by
        obtain ⟨m', rfl, -⟩ := hfetch
        exact hc
      dsimp only
      rw [sat_bind]
      refine (exec_spec h₁ (hargv argv rfl).2 hc₁).mono ?_ fun e he => ?_
      swap
      · rw [he.1]
        simp [otherPanic, noAddress]
      rintro r k₂ ⟨h₂, -, hend, hfail, hpassed⟩
      refine (freeArgs_spec pgs k₂ h₂).bind fun _ k₃ ⟨hfree, hram⟩ => ?_
      have h₃ := h₂.memMoves hfree
      rw [zero_add] at h₃
      refine ⟨h₃, fun hr => ?_, fun pgs' argv' k' hargs' => ?_⟩
      · have hmid := (hfail hr).add ↑pgs
        rw [zero_add] at hmid
        exact (hfetch.trans hmid).trans hfree
      · cases hargs.symm.trans hargs'
        rcases hend with ⟨hr, -⟩ | ⟨hr, -⟩
        · exact .inl hr
        · obtain ⟨hret, hfits, hpass⟩ := hpassed hr
          obtain ⟨m', rfl, -⟩ := hfree
          exact .inr ⟨hret, hfits, hpass.congr hram⟩

end Xv6Armv8.Kernel

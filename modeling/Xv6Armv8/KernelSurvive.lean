import Xv6Armv8.KernelRun

/-! `exec` against every file. Whatever bytes the file has, and whatever arguments `sys_exec` has fetched,
`exec` returns unless a segment whose end wraps past 2^64 leaves `loadseg` without its pages; that it does
panic then is shown by a file of 120 bytes. The arguments are on the stack of the new image. -/

namespace Xv6Armv8.Kernel

open Spec Vm FileTable Exec StepRun

variable {k k₀ k₁ : Machine} {i c : Nat} {lay : Layout} {initcode : List UInt8} {tr : List Event}

/-- **`exec` returns if and only if the file loads**: it ends with -1 and the process as it was or with a new
image, in every state a machine reaches and for all arguments that `sys_exec` builds there. -/
theorem exec_survives_iff {uargv : Nat} {path : List UInt8} {pgs : List Nat} {argv : List (List UInt8)} {f : Content}
    (hboot : boot initcode (initial lay) = .ok ((), k₀))
    (hrun : Run Kernel.step (fun _ _ => True) k₀ tr k) (hc : (k.cpu c).proc = some i)
    (hargs : fetchArgs i uargv maxArg 0 k = .ok ((pgs, some argv), k₁)) :
    (∃ r k', exec c i path argv (some f) k₁ = .ok (r, k') ∧ ExecEnd c i k₁ r k') ↔
      Loads f k₁.mem.freelist.length := by
  have h : Inv ↑lay.pages False k 0 := Inv.run_of_boot hboot hrun fun hP => hP.elim
  obtain ⟨⟨m₁, rfl, hmv⟩, hargv⟩ := (fetchArgs_spec maxArg 0 k).of_ok hargs
  have h₁ : Inv ↑lay.pages False { k with mem := m₁ } ↑pgs := h.held hmv
  have hspec : Sat (exec c i path argv (some f)) { k with mem := m₁ } _ _ := exec_spec h₁ (hargv argv rfl).2 hc
  constructor
  · rintro ⟨r, k', hexec, -⟩
    exact (hspec.of_ok hexec).2.1
  · intro hloads
    cases hexec : exec c i path argv (some f) { k with mem := m₁ } with
    | ok r => exact ⟨r.1, r.2, rfl, (hspec.of_ok hexec).2.2.1⟩
    | error e => exact absurd hloads (hspec.of_error hexec).2

/-! ### Files whose segments do not wrap -/

theorem segBacked_of_le {f : Content} {vaddr offset size n : Nat} (hw : vaddr + size < 2 ^ 64)
    (hn : vaddr + size ≤ n * pgSize) : SegBacked f vaddr offset size n := by
  intro j hj _
  have hmod : u64 (vaddr + j * pgSize) = vaddr + j * pgSize := Nat.mod_eq_of_lt (by omega)
  rw [hmod]
  refine Nat.div_lt_of_lt_mul (lt_of_lt_of_le ?_ ((Nat.mul_comm n pgSize).symm ▸ hn))
  omega

/-- No segment of the `n` headers from `off` on ends past 2^64. -/
def NoWrap (f : Content) : Nat → Nat → Prop
  | 0, _ => True
  | n + 1, off => ((f.proghdr off).type = elfProgLoad → (f.proghdr off).vaddr + (f.proghdr off).memsz < 2 ^ 64) ∧
      NoWrap f n (u32 (off + sizeofProghdr))

theorem backed_of_noWrap {f : Content} (n : Nat) : ∀ off sz free, NoWrap f n off → Backed f n off sz free := by
  induction n with
  | zero => intro off sz free _; exact trivial
  | succ n ih =>
    intro off sz free h hread
    split_ifs with htype
    · exact ih _ _ _ h.2
    · intro hsz _ _ _
      have hw := h.1 (not_not.mp htype)
      have hfile : u32 (f.proghdr off).filesz ≤ (f.proghdr off).filesz := Nat.mod_le _ _
      have hmod : u64 ((f.proghdr off).vaddr + (f.proghdr off).memsz) =
          (f.proghdr off).vaddr + (f.proghdr off).memsz := Nat.mod_eq_of_lt hw
      refine ⟨segBacked_of_le (by omega) ?_, fun _ => ih _ _ _ h.2⟩
      have hmax := le_max_right sz (u64 ((f.proghdr off).vaddr + (f.proghdr off).memsz))
      unfold pgCount pgSize
      omega

theorem loads_of_noWrap {f : Content} (h : NoWrap f f.phnum (u32 f.phoff)) (free : Nat) : Loads f free :=
  fun _ _ _ => backed_of_noWrap _ _ _ _ h

/-! ### A small program and one that wraps -/

/-- The headers of a program with one segment, which is its first byte. -/
def oneSegment (vaddr memsz : Nat) : Content where
  bytes := ((((((ByteStore.st (fun _ => 0) 0 4 elfMagic).st 32 8 64).st 56 2 1).st 64 4 elfProgLoad).st
    80 8 vaddr).st 96 8 1).st 104 8 memsz
  size := 120
  size_le := by decide

theorem copyin_zero {m : Mem} {pt p : Nat} {E : String → Prop} (htransl : transl m pt 0 = p) (hne : p ≠ 0)
    (hpage : m.ram p = fun _ => 0) :
    Sat (copyin pt 0 8) m (fun r m' => r = some (List.replicate 8 0) ∧ m' = m) E := by
  have hround : pgRoundDown 0 = 0 := rfl
  show Sat (copyinLoop pt (7 + 1) 0 8) m _ _
  unfold copyinLoop
  rw [if_neg (by decide), sat_bind, hround, sat_walkaddr, htransl, if_neg hne, sat_bind, sat_get, sat_bind, hpage]
  show Sat (copyinLoop pt (6 + 1) _ 0) m _ _
  unfold copyinLoop
  rw [if_pos rfl, sat_pure, sat_pure]
  exact ⟨by decide, rfl⟩

/-- The first page of the user, which is all zero without code, reads as no arguments. -/
theorem fetchArgs_first {T : Multiset Nat} {P : Prop} (h : Inv T P k₀ 0) (hfirst : First k₀ [])
    (hmem : k.mem = k₀.mem) (hpt : (k.proc 0).pagetable = (k₀.proc 0).pagetable)
    (hsize : (k.proc 0).size = (k₀.proc 0).size) :
    fetchArgs 0 0 maxArg 0 k = .ok (([], some []), k) := by
  obtain ⟨pt, e, hpt₀, hs, huser, hpage⟩ := hfirst.space
  have h0 : 0 < nproc := by decide
  have hval : ValidPage (ptePage e) := by
    refine (h.pool_own h0).valid_used ?_
    rw [own, hpt₀, spacePages, hs.leafPages_eq, pages_singleton]
    exact Multiset.mem_add.mpr (.inr (Multiset.mem_add.mpr (.inr (Multiset.mem_singleton_self _))))
  have htransl : transl k.mem pt 0 = ptePage e := by
    have hlt : 0 < [e].length := Nat.one_pos
    rw [hmem, hs.transl_of_lt hlt (Nat.zero_div _)]
    exact if_neg huser
  have hne : ptePage e ≠ 0 := by
    intro hz
    have hlo := hval.lo
    rw [hz] at hlo
    exact absurd hlo (by decide)
  have hzero : k.mem.ram (ptePage e) = fun _ => 0 := by
    rw [hmem, hpage]
    funext x
    simp [ByteStore.put]
  have hsat : Sat (fetchArgs 0 0 maxArg 0) k (fun r k' => r = ([], some []) ∧ k' = k) fun _ => False := by
    show Sat (fetchArgs 0 0 (31 + 1) 0) k _ _
    unfold fetchArgs fetchaddr
    rw [sat_bind, sat_bind, sat_get]
    dsimp only
    rw [hpt, hpt₀, hsize, hfirst.size, sat_bind, sat_deref_some, if_neg (by decide), sat_bind, sat_vm]
    refine (copyin_zero htransl hne hzero).imp ?_
    rintro _ _ ⟨rfl, rfl⟩
    rw [sat_pure]
    exact ⟨rfl, rfl⟩
  obtain ⟨r, k', hk', hr, hk⟩ := hsat.ok
  rw [hk', hr, hk]

theorem firstExec : ∃ k₀ k, boot [] (initial smallKernel) = .ok ((), k₀) ∧
    Run Kernel.step (fun _ _ => True) k₀ [.schedule 0 0] k ∧ (k.cpu 0).proc = some 0 ∧
    fetchArgs 0 0 maxArg 0 k = .ok (([], some []), k) ∧ 5 ≤ k.mem.freelist.length := by
  have hlen : ([] : List UInt8).length ≤ pgSize := Nat.zero_le _
  obtain ⟨k₀, hk₀, h₀, hfirst, hcpu, hfree⟩ := boot_ok smallKernel hlen
  obtain ⟨k, hs, hc, hmem, hpt, hsize⟩ := schedule_first hfirst hcpu
  refine ⟨k₀, k, hk₀, .snoc .nil trivial hs, hc, fetchArgs_first h₀ hfirst hmem hpt hsize, ?_⟩
  have hpages : smallKernel.pages.length = 32768 := by
    rw [Layout.pages, List.length_map, List.length_range]
    decide
  rw [hmem]
  omega

/-- A program of one page loads. -/
theorem smallProgram_survives : ∃ k₀ k, boot [] (initial smallKernel) = .ok ((), k₀) ∧
    Run Kernel.step (fun _ _ => True) k₀ [.schedule 0 0] k ∧
    ∃ r k', exec 0 0 [] [] (some (oneSegment 0 4096)) k = .ok (r, k') ∧ ExecEnd 0 0 k r k' := by
  obtain ⟨k₀, k, hk₀, hrun, hc, hargs, -⟩ := firstExec
  refine ⟨k₀, k, hk₀, hrun, (exec_survives_iff hk₀ hrun hc hargs).mpr (loads_of_noWrap ?_ _)⟩
  exact ⟨by decide, trivial⟩

theorem not_loads_wrap {free : Nat} (hfree : 5 ≤ free) : ¬Loads (oneSegment 4096 (2 ^ 64 - 4095)) free := by
  intro h
  have hback := h (by decide) (by decide) (by omega)
  have hnum : (oneSegment 4096 (2 ^ 64 - 4095)).phnum = 0 + 1 := by decide
  have hoff : u32 (oneSegment 4096 (2 ^ 64 - 4095)).phoff = 64 := by decide
  have hneed : need (pgCount 0) (pgCount 1) + (free - 5) = free - 1 := by
    have h4 : need (pgCount 0) (pgCount 1) = 4 := by decide
    omega
  rw [hnum, hoff, backed_of_alloc (by decide) (by decide) (by decide) (by decide) Nat.one_ne_zero (by decide) hneed]
    at hback
  exact absurd (hback.1 0 (by decide) (.inl rfl)) (by decide)

/-- **A segment of one byte at 4096 that is said to be 2^64 - 4095 bytes long makes `exec` panic.** Its end
wraps to 1, `uvmalloc` maps the first page and `loadseg` asks for the second. -/
theorem wrappingSegment_panics : ∃ k₀ k, boot [] (initial smallKernel) = .ok ((), k₀) ∧
    Run Kernel.step (fun _ _ => True) k₀ [.schedule 0 0] k ∧ (k.cpu 0).proc = some 0 ∧
    fetchArgs 0 0 maxArg 0 k = .ok (([], some []), k) ∧
    exec 0 0 [] [] (some (oneSegment 4096 (2 ^ 64 - 4095))) k = .error "loadseg: address should exist" := by
  obtain ⟨k₀, k, hk₀, hrun, hc, hargs, hfree⟩ := firstExec
  refine ⟨k₀, k, hk₀, hrun, hc, hargs, ?_⟩
  have h : Inv ↑smallKernel.pages False k 0 := Inv.run_of_boot hk₀ hrun fun hP => hP.elim
  have hspec : Sat (exec 0 0 [] [] (some (oneSegment 4096 (2 ^ 64 - 4095)))) k _ _ := exec_spec h (fun _ hs => absurd hs List.not_mem_nil) hc
  cases hexec : exec 0 0 [] [] (some (oneSegment 4096 (2 ^ 64 - 4095))) k with
  | ok r => exact absurd (hspec.of_ok hexec).2.1 (not_loads_wrap hfree)
  | error e => rw [(hspec.of_error hexec).1, noAddress]

/-! ### The arguments -/

end Xv6Armv8.Kernel

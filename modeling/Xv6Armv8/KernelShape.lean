import Xv6Armv8.KernelRun

/-! The shape of an address space. A table that the kernel keeps maps the pages below its size and no other:
that is true of the tables of the processes in every state of a run, and of the ones that `exec` builds. From
it no call stops on an entry that is missing or one too many, and an `uvmalloc` that runs out of pages takes
back what it has mapped. -/

namespace Xv6Armv8.Kernel

open Spec Vm FileTable Exec List

variable {T H : Multiset Nat} {P : Prop} {k k₀ : Machine} {m m' : Mem} {i c pt sz newsz fl va : Nat}
  {l : List Nat} {lay : Layout} {initcode : List UInt8} {tr : List Event}

/-- A table with a page of its own for every page of the size `sz`. -/
def Sized (m : Mem) (pt sz : Nat) : Prop :=
  ∃ l, Space m pt l ∧ Pool m (tables m 3 pt + pages l) ∧ pgCount sz = l.length

theorem root_valid (hp : Pool m (tables m 3 pt + pages l)) : ValidPage pt :=
  hp.valid_used (Multiset.mem_add.mpr (.inl Radix.mem_nodes_self))

theorem hwWalk_congr (hs : Space m pt l) (hs' : Space m' pt l) (hpt : ValidPage pt) :
    hwWalk m' (v2p pt) va = hwWalk m (v2p pt) va := by
  by_cases hva : va < maxVa
  · rw [hwWalk_eq hs hpt hva, hwWalk_eq hs' hpt hva]
  · rw [hwWalk, hwWalk, if_pos (not_lt.mp hva), if_pos (not_lt.mp hva)]

theorem hwWalk_valid_iff (hs : Space m pt l) (hpt : ValidPage pt) (hva : va < maxVa) :
    hwWalk m (v2p pt) va &&& mmTypeValid ≠ 0 ↔ va / pgSize < l.length := by
  rw [hwWalk_eq hs hpt hva]
  by_cases hlt : va / pgSize < l.length
  · rw [getD_eq_getElem _ _ hlt]
    exact iff_of_true (valid_of_page (hs.leaf _ (getElem_mem _))) hlt
  · rw [getD_eq_default _ _ (not_lt.mp hlt)]
    exact iff_of_false (fun h => h (Nat.zero_and _)) hlt

/-- **The pages with a valid leaf entry are those below the size, rounded up.** -/
theorem Sized.valid_iff (h : Sized m pt sz) :
    hwWalk m (v2p pt) va &&& mmTypeValid ≠ 0 ↔ va < pgRoundUp sz := by
  obtain ⟨l, hs, hp, hcount⟩ := h
  have hlen : l.length < maxPages := hp.length_lt
  rw [pgRoundUp_of_count hcount hlen.le]
  by_cases hva : va < maxVa
  · rw [hwWalk_valid_iff hs (root_valid hp) hva]
    exact Nat.div_lt_iff_lt_mul (by decide)
  · rw [hwWalk, if_pos (not_lt.mp hva)]
    refine iff_of_false (fun h => h (Nat.zero_and _)) fun hlt => hva (hlt.trans ?_)
    unfold maxPages at hlen
    unfold pgSize maxVa
    omega

/-- What an `uvmalloc` that fails leaves: every translation, the mapped pages, and no page outside the free
list that is neither mapped nor a part of the table. -/
structure Undone (m m' : Mem) (pt : Nat) : Prop where
  walk : ∀ va, hwWalk m' (v2p pt) va = hwWalk m (v2p pt) va
  leaves : leafPages m' pt = leafPages m pt
  conserve : tables m' 3 pt + ↑m'.freelist = tables m 3 pt + ↑m.freelist

theorem Space.undone (hs : Space m pt l) (hs' : Space m' pt l) (hpt : ValidPage pt)
    (hmv : Moves m m' (tables m 3 pt) (tables m' 3 pt)) : Undone m m' pt where
  walk := fun _ => hwWalk_congr hs hs' hpt
  leaves := by rw [hs.leafPages_eq, hs'.leafPages_eq]
  conserve := hmv.conserve

theorem Sized.uvmalloc_zero (h : Sized m pt sz) (hfl : IsFlags fl) (hnew : newsz < 2 ^ 64)
    (hrun : uvmalloc pt sz newsz fl m = .ok (0, m')) : Undone m m' pt := by
  obtain ⟨l, hs, hp, hcount⟩ := h
  have hpt : ValidPage pt := root_valid hp
  by_cases hlt : newsz < sz
  · have h0 : Sat (uvmalloc pt sz newsz fl) m (fun r m' => r = sz ∧ m' = m) fun _ => False :=
      (sat_uvmalloc_lt hlt).mpr ⟨rfl, rfl⟩
    obtain ⟨hsz, -⟩ := h0.of_ok hrun
    omega
  · have hspec : Sat (uvmalloc pt sz newsz fl) m _ _ :=
      uvmalloc_spec hs hp hfl (pgRoundUp_of_count hcount hp.length_lt.le) (not_lt.mp hlt) hnew
    have hext : Extended m m' pt fl newsz l 0 := hspec.of_ok hrun
    generalize hr : (0 : Nat) = r at hext
    cases hext with
    | full hs' hmv _ => exact Space.undone hs hs' hpt hmv
    | ok l' hs' _ _ hcount' hmv _ =>
      -- a call for no pages on an empty space returns 0 as well
      have hnil : l' = [] := by
        rw [← hr] at hcount'
        exact (append_eq_nil_iff.mp (eq_nil_of_length_eq_zero hcount')).2
      subst hnil
      rw [append_nil] at hs'
      rw [pages_nil, add_zero] at hmv
      exact Space.undone hs hs' hpt hmv

theorem Inv.sized (h : Inv T P k H) (hi : i < nproc) (hpt : (k.proc i).pagetable = some pt) :
    Sized k.mem pt (k.proc i).size := by
  obtain ⟨l, hs, hcount, hpool, -⟩ := h.live_space hi hpt
  exact ⟨l, hs, hpool, hcount⟩

/-- The panics on an entry of a page table that is missing or one too many. -/
def tablePanics : List String :=
  ["uvmcopy: pte should exist", "uvmcopy: page not present", "uvmunmap: walk", "uvmunmap: not mapped",
    "uvmunmap: not a leaf", "freewalk: leaf", "freewalk: below the last level"]

theorem otherPanic.not_mem {e : String} (h : otherPanic e) : e ∉ tablePanics := by
  unfold otherPanic at h
  simp only [mem_cons, not_mem_nil, or_false] at h
  obtain rfl | rfl | rfl | rfl | rfl | rfl := h <;> simp [tablePanics]

/-- **An address space has the shape that its size says.** In every state that a machine reaches, the table of
a process has a valid leaf entry for an address just when the address is below the size rounded up, and no
call that the process on a CPU makes, with any arguments, stops on an entry that is missing or too many. Where
a table has that shape, as a process's has in these states and the one that `exec` builds, an `uvmalloc` that
returns 0 has left every translation and the mapped pages as they were. -/
theorem address_space_shape (hboot : boot initcode (initial lay) = .ok ((), k₀))
    (hrun : StepRun.Run Kernel.step (fun _ _ => True) k₀ tr k) :
    (∀ i pt, i < nproc → (k.proc i).pagetable = some pt → Sized k.mem pt (k.proc i).size ∧
      ∀ va, hwWalk k.mem (v2p pt) va &&& mmTypeValid ≠ 0 ↔ va < pgRoundUp (k.proc i).size) ∧
    (∀ c i sys e, (k.cpu c).proc = some i → syscall c i sys k = .error e → e ∉ tablePanics) ∧
    ∀ m m' pt sz newsz fl, Sized m pt sz → IsFlags fl → newsz < 2 ^ 64 →
      uvmalloc pt sz newsz fl m = .ok (0, m') → Undone m m' pt := by
  have h : Inv ↑lay.pages False k 0 := Inv.run_of_boot hboot hrun fun hP => hP.elim
  refine ⟨fun i pt hi hpt => ?_, fun c i sys e hc he => ?_, fun m m' pt sz newsz fl hsz hfl hnew hr => ?_⟩
  · have hsz := h.sized hi hpt
    exact ⟨hsz, fun _ => hsz.valid_iff⟩
  · have hspec : Sat (syscall c i sys) k _ _ := syscall_spec h hc fun hP => hP.elim
    exact (hspec.of_error he).not_mem
  · exact hsz.uvmalloc_zero hfl hnew hr

/-- The first process has one page. -/
theorem firstProcess_shape : ∃ k₀ k pt, boot [] (initial smallKernel) = .ok ((), k₀) ∧
    StepRun.Run Kernel.step (fun _ _ => True) k₀ [.schedule 0 0] k ∧ (k.proc 0).pagetable = some pt ∧
    (hwWalk k.mem (v2p pt) 0 &&& mmTypeValid ≠ 0 ∧ ¬hwWalk k.mem (v2p pt) pgSize &&& mmTypeValid ≠ 0) := by
  have hlen : ([] : List UInt8).length ≤ pgSize := Nat.zero_le _
  obtain ⟨k₀, hk₀, -, hfirst, hcpu, -⟩ := boot_ok smallKernel hlen
  obtain ⟨k, hs, -, -, hpt, hsize⟩ := schedule_first hfirst hcpu
  obtain ⟨pt, -, hpt₀, -⟩ := hfirst.space
  have hrun : StepRun.Run Kernel.step (fun _ _ => True) k₀ [.schedule 0 0] k := .snoc .nil trivial hs
  have hshape := ((address_space_shape hk₀ hrun).1 0 pt (by decide) (hpt.trans hpt₀)).2
  rw [hsize.trans hfirst.size] at hshape
  exact ⟨k₀, k, pt, hk₀, hrun, hpt.trans hpt₀, (hshape 0).mpr (by decide), fun hv => absurd ((hshape _).mp hv) (by decide)⟩

end Xv6Armv8.Kernel

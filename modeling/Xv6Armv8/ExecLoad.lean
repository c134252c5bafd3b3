import Xv6Armv8.ExecModel
import Xv6Armv8.VmCopy

/-! What loading a program does, for any bytes the file may hold. The sizes and offsets of the headers
are arbitrary 64-bit words; the address space stays a list of pages whatever they are, so every call of
`exec.c` into `vm.c` returns, with one exception: a segment whose end wraps past 2^64 makes `uvmalloc` map
less than `loadseg` writes, and `walkaddr` finds no page. `Backed` says of the headers that this does not
happen, and the results say that loading panics exactly where it does. -/

namespace Xv6Armv8.Exec

open Spec Vm List

variable {m m' : Mem} {pde : Nat} {l : List Nat} {c : Content}

/-! ### When a file loads -/

/-- The pages of a segment that `loadseg` comes to lie below the `n` pages mapped. It comes to the next
page as long as the file has the bytes of those before. -/
def SegBacked (c : Content) (vaddr offset size n : Nat) : Prop :=
  ∀ j, j * pgSize < size → (j = 0 ∨ offset + j * pgSize ≤ c.size) → u64 (vaddr + j * pgSize) / pgSize < n

/-- The file has the bytes of a segment. -/
def SegRead (c : Content) (offset size : Nat) : Prop := size = 0 ∨ offset + size ≤ c.size

/-- Of `n` headers from `off` on, with `sz` bytes mapped and `free` pages left: each segment that is
loaded is backed by the pages mapped up to then. -/
def Backed (c : Content) : Nat → Nat → Nat → Nat → Prop
  | 0, _, _, _ => True
  | n + 1, off, sz, free =>
    let ph := c.proghdr off
    let sz1 := max sz (u64 (ph.vaddr + ph.memsz))
    (c.readi off sizeofProghdr).length = sizeofProghdr →
      if ph.type ≠ elfProgLoad then Backed c n (u32 (off + sizeofProghdr)) sz free
      else ph.filesz ≤ ph.memsz → ph.vaddr % pgSize = 0 → sz1 ≠ 0 → need (pgCount sz) (pgCount sz1) ≤ free →
          SegBacked c ph.vaddr (u32 ph.off) (u32 ph.filesz) (pgCount sz1) ∧
            (SegRead c (u32 ph.off) (u32 ph.filesz) →
              Backed c n (u32 (off + sizeofProghdr)) sz1 (free - need (pgCount sz) (pgCount sz1)))

/-- The file loads without a panic when `free` pages are free. -/
def Loads (c : Content) (free : Nat) : Prop :=
  (c.readi 0 sizeofElfhdr).length = sizeofElfhdr → c.magic = elfMagic → 0 < free →
    Backed c c.phnum (u32 c.phoff) 0 (free - 1)

/-! ### readi -/

theorem u32_lt (n : Nat) : u32 n < 2 ^ 32 := Nat.mod_lt _ (by decide)

theorem u64_lt (n : Nat) : u64 n < 2 ^ 64 := Nat.mod_lt _ (by decide)

theorem Content.size_lt (c : Content) : c.size < 2 ^ 31 := lt_of_le_of_lt c.size_le (by decide)

theorem length_bytes (b : ByteStore) (a n : Nat) : (b.bytes a n).length = n := by simp [ByteStore.bytes]

theorem readi_full {off n : Nat} (hoff : off < 2 ^ 32) (hn : 0 < n) (hn' : n ≤ pgSize) :
    (c.readi off n).length = n ↔ off + n ≤ c.size := by
  have hsize := c.size_lt
  unfold Content.readi
  unfold pgSize at hn'
  split
  · next h =>
      unfold u32 at h
      simp only [length_nil]
      omega
  · next h =>
      rw [length_bytes]
      split
      · omega
      · omega

/-! ### loadseg -/

/-- Every page of the list is a page for the user. -/
def UserPages (l : List Nat) : Prop := ∀ e ∈ l, e &&& apUser ≠ 0

theorem transl_zero_iff {va : Nat} (hs : Space m pde l) (hu : UserPages l)
    (hp : Pool m (pages l + tables m 3 pde)) : transl m pde va = 0 ↔ l.length ≤ va / pgSize := by
  constructor
  · intro h
    by_contra hlt
    rw [hs.transl_of_lt (not_le.mp hlt) rfl, if_neg (hu _ (getElem_mem _))] at h
    have hval : ValidPage (ptePage l[va / pgSize]) := hp.valid_used
      (Multiset.mem_add.mpr (.inl (mem_map_of_mem (getElem_mem _))))
    have hlo := hval.lo
    rw [h] at hlo
    exact absurd hlo (by decide)
  · exact hs.transl_of_le

/-- The panic of `loadseg`. -/
def noAddress : String := "loadseg: address should exist"

theorem loadsegLoop_spec {vaddr offset size : Nat} (hs : Space m pde l) (hu : UserPages l)
    (hp : Pool m (pages l + tables m 3 pde)) (hoff : offset < 2 ^ 32) (k : Nat) :
    ∀ (j : Nat) (t : Mem), Written m t (pages l) → c.size / pgSize + 2 ≤ k + j → j ≤ c.size / pgSize + 1 →
    (∀ i, i < j → i * pgSize < size → u64 (vaddr + i * pgSize) / pgSize < l.length) →
    (j * pgSize < size → j = 0 ∨ offset + j * pgSize ≤ c.size) →
    (size ≤ j * pgSize → SegRead c offset size) →
    Sat (loadsegLoop pde vaddr c offset size k (j * pgSize)) t
      (fun r m' => Written m m' (pages l) ∧ SegBacked c vaddr offset size l.length ∧
        (r < 0 ↔ ¬SegRead c offset size))
      fun e => e = noAddress ∧ ¬SegBacked c vaddr offset size l.length := by
  induction k with
  | zero => intro j t _ hfuel hj; omega
  | succ k ih =>
    intro j t ht hfuel hj hdone hnext hend
    have hsize := c.size_lt
    obtain ⟨hst, htt⟩ := ht.space hs hp
    have hpt : Pool t (pages l + tables t 3 pde) := by
      rw [htt]
      exact hp.of_conserve (by rw [ht.free]) ht.kend
    unfold loadsegLoop
    rw [sat_ite]
    refine ⟨fun hlt => ?_, fun hge => ?_⟩
    · have hoffj : u32 (offset + j * pgSize) = offset + j * pgSize := by
        rcases hnext hlt with rfl | h
        · unfold u32; omega
        · unfold u32; omega
      rw [sat_bind, sat_walkaddr, sat_ite]
      refine ⟨fun h0 => ?_, fun h0 => ?_⟩
      · rw [sat_throw]
        refine ⟨rfl, fun hb => ?_⟩
        exact absurd (hb j hlt (hnext hlt)) (not_lt.mpr ((transl_zero_iff hst hu hpt).mp h0))
      · have hin : u64 (vaddr + j * pgSize) / pgSize < l.length := by
          by_contra h
          exact h0 ((transl_zero_iff hst hu hpt).mpr (not_lt.mp h))
        have hdone' : ∀ i, i < j + 1 → i * pgSize < size → u64 (vaddr + i * pgSize) / pgSize < l.length := by
          intro i hi hlt'
          rcases Nat.lt_succ_iff_lt_or_eq.mp hi with h | rfl
          · exact hdone i h hlt'
          · exact hin
        dsimp only
        rw [sat_bind, sat_modify, hoffj]
        generalize hn : (if size - j * pgSize < pgSize then size - j * pgSize else pgSize) = n
        have hn0 : 0 < n := by
          rw [← hn]
          unfold pgSize at *
          split <;> omega
        have hnle : n ≤ pgSize := by
          rw [← hn]
          split <;> omega
        have hfull : (c.readi (offset + j * pgSize) n).length = n ↔ _ := readi_full (by
          rw [← hoffj]
          exact u32_lt _) hn0 hnle
        have hw := ht.trans (written_setPage (b := (t.ram (transl t pde (u64 (vaddr + j * pgSize)))).put 0
          (c.readi (offset + j * pgSize) n)) (hst.transl_mem h0))
        rw [sat_ite]
        refine ⟨fun hshort => ?_, fun hok => ?_⟩
        · rw [ne_eq, hfull] at hshort
          refine ⟨hw, fun i hi hread => ?_, ?_⟩
          · rcases Nat.lt_or_ge i (j + 1) with h | h
            · exact hdone' i h hi
            · -- a later page is past the end of the file
              exfalso
              unfold pgSize at *
              split at hn <;> omega
          · unfold SegRead
            unfold pgSize at *
            constructor
            · intro _
              split at hn <;> omega
            · intro _
              decide
        · rw [not_not, hfull] at hok
          have hwrap : u32 (j * pgSize + pgSize) = (j + 1) * pgSize := by
            unfold u32
            unfold pgSize at *
            omega
          rw [hwrap]
          refine ih (j + 1) _ hw (by omega) ?_ hdone' (fun h => .inr ?_) (fun h => .inr ?_)
          · unfold pgSize at *
            omega
          · unfold pgSize at *
            split at hn <;> omega
          · unfold pgSize at *
            split at hn <;> omega
    · have hread := hend (not_lt.mp hge)
      refine ⟨ht, fun i hi hread => hdone i ?_ hi, ?_⟩
      · exact Nat.lt_of_mul_lt_mul_right (lt_of_lt_of_le hi (not_lt.mp hge))
      · simp [hread]

theorem loadseg_spec {vaddr offset size : Nat} (hs : Space m pde l) (hu : UserPages l)
    (hp : Pool m (pages l + tables m 3 pde)) (hoff : offset < 2 ^ 32) :
    Sat (loadseg pde vaddr c offset size) m
      (fun r m' => Written m m' (pages l) ∧ SegBacked c vaddr offset size l.length ∧
        (r < 0 ↔ ¬SegRead c offset size))
      fun e => e = noAddress ∧ ¬SegBacked c vaddr offset size l.length := by
  have h : Sat (loadsegLoop pde vaddr c offset size (c.size / pgSize + 2) (0 * pgSize)) m _ _ :=
    loadsegLoop_spec hs hu hp hoff _ 0 m (Written.refl m _) (by omega) (Nat.zero_le _)
      (fun i hi => absurd hi (Nat.not_lt_zero _)) (fun _ => .inl rfl) fun h => .inl (by omega)
  rwa [Nat.zero_mul] at h

/-! ### The program headers -/

theorem isFlags_getflags (f : Nat) : IsFlags (getflags f) := by
  unfold getflags
  split_ifs
  · exact ⟨by decide, by decide, by decide⟩
  · exact ⟨by decide, by decide, by decide⟩
  · exact ⟨by decide, by decide, by decide⟩
  · exact ⟨by decide, by decide, by decide⟩

theorem getflags_user (f : Nat) : getflags f &&& apUser ≠ 0 := by
  unfold getflags
  split_ifs <;> decide

theorem userPages_fresh {fl : Nat} (hfl : fl &&& apUser ≠ 0) (h : Fresh fl l) : UserPages l := by
  intro e he
  obtain ⟨a, -, rfl⟩ := h e he
  rwa [Nat.and_or_distrib_right, Nat.and_assoc, show pgAddrMask &&& apUser = 0 by decide, Nat.and_zero,
    Nat.zero_or]

theorem UserPages.append {l' : List Nat} (h : UserPages l) (h' : UserPages l') : UserPages (l ++ l') := by
  intro e he
  rcases mem_append.mp he with h1 | h1
  · exact h e h1
  · exact h' e h1

theorem need_self (n : Nat) : need n n = 0 := by simp [need]

/-- The address space that loading has built: the pages of the size reached, all for the user, and no
table too many. -/
structure Loading (m : Mem) (pde sz : Nat) (l : List Nat) : Prop where
  space : Space m pde l
  user : UserPages l
  tight : Tight m pde l.length
  count : pgCount sz = l.length
  lt : sz < 2 ^ 64
  pool : Pool m (tables m 3 pde + pages l)

/-- What `uvmalloc` makes of it for a segment that ends at `newsz`. -/
inductive Allocated (m m' : Mem) (pde sz newsz : Nat) (l : List Nat) : Nat → Prop
  | ok (l' : List Nat) : max sz newsz ≠ 0 →
      need (pgCount sz) (pgCount (max sz newsz)) + m'.freelist.length = m.freelist.length →
      Loading m' pde (max sz newsz) l' →
      Moves m m' (tables m 3 pde + pages l) (tables m' 3 pde + pages l') →
      Allocated m m' pde sz newsz l (max sz newsz)
  | full : (max sz newsz = 0 ∨ m.freelist.length < need (pgCount sz) (pgCount (max sz newsz))) →
      Space m' pde l → Moves m m' (tables m 3 pde + pages l) (tables m' 3 pde + pages l) →
      Allocated m m' pde sz newsz l 0

theorem alloc_spec {sz newsz fl : Nat} (h : Loading m pde sz l) (hfl : IsFlags fl) (hu : fl &&& apUser ≠ 0)
    (hnew : newsz < 2 ^ 64) :
    Sat (uvmalloc pde sz newsz fl) m (fun r m' => Allocated m m' pde sz newsz l r) fun _ => False := by
  have hlen : l.length < maxPages := h.pool.length_lt
  by_cases hlt : newsz < sz
  · have hmax : max sz newsz = sz := max_eq_left hlt.le
    have hok : Allocated m m pde sz newsz l (max sz newsz) :=
      .ok l (by omega) (by rw [hmax, need_self, Nat.zero_add]) (by rwa [hmax]) (Moves.refl _ _)
    rw [sat_uvmalloc_lt hlt]
    rwa [hmax] at hok
  · have hmax : max sz newsz = newsz := max_eq_right (not_lt.mp hlt)
    refine (uvmalloc_spec h.space h.pool hfl (pgRoundUp_of_count h.count hlen.le) (not_lt.mp hlt) hnew).imp
      fun r m' hext => ?_
    cases hext with
    | ok l' hs' hfresh _ hcount hmv htight =>
      obtain ⟨ht', hfree⟩ := htight h.tight
      have hmv' : Moves m m' (tables m 3 pde + pages l) (tables m' 3 pde + pages (l ++ l')) :=
        (hmv.add (pages l)).congr rfl (by rw [pages_append]; abel)
      by_cases h0 : newsz = 0
      · have hnil : l' = [] := by
          rw [h0, length_append] at hcount
          have hz : pgCount 0 = 0 := by decide
          exact eq_nil_of_length_eq_zero (by omega)
        subst hnil h0
        rw [append_nil] at hs' hmv'
        exact .full (.inl hmax) hs' hmv'
      · have hload : Loading m' pde newsz (l ++ l') :=
          ⟨hs', h.user.append (userPages_fresh hu hfresh), by rwa [hcount], hcount.symm, hnew,
            h.pool.of_conserve hmv'.conserve hmv'.kend⟩
        have hok : Allocated m m' pde sz newsz l (max sz newsz) :=
          .ok (l ++ l') (by rwa [hmax]) (by rw [hmax, h.count, Nat.add_comm]; exact hfree)
            (by rwa [hmax]) hmv'
        rwa [hmax] at hok
    | full hs' hmv hout =>
      refine .full (.inr ?_) hs' (hmv.add _)
      rw [hmax, h.count]
      exact hout h.tight

theorem Loading.written {sz : Nat} (h : Loading m pde sz l) (hw : Written m m' (pages l)) :
    Loading m' pde sz l ∧ Moves m m' (tables m 3 pde + pages l) (tables m' 3 pde + pages l) := by
  have hp : Pool m (pages l + tables m 3 pde) := h.pool.congr (add_comm _ _)
  obtain ⟨hs', ht'⟩ := hw.space h.space hp
  have hmv : Moves m m' (tables m 3 pde + pages l) (tables m' 3 pde + pages l) :=
    (hw.moves.add (tables m 3 pde)).congr (add_comm _ _) (by rw [ht', add_comm])
  refine ⟨⟨hs', h.user, fun k hk => ?_, h.count, h.lt, h.pool.of_conserve hmv.conserve hmv.kend⟩, hmv⟩
  rw [missing_congr fun x hx => hw.frame x (hp.disjoint hx)]
  exact h.tight k hk

section Header

variable {n off sz free : Nat}

theorem backed_of_bad (h : (c.readi off sizeofProghdr).length = sizeofProghdr →
    (c.proghdr off).type = elfProgLoad ∧
      ((c.proghdr off).memsz < (c.proghdr off).filesz ∨ (c.proghdr off).vaddr % pgSize ≠ 0)) :
    Backed c (n + 1) off sz free := by
  intro hread
  obtain ⟨htype, hbad⟩ := h hread
  rw [if_neg (not_not.mpr htype)]
  intro hsz hal
  rcases hbad with h1 | h1
  · omega
  · exact absurd hal h1

theorem backed_of_other (hread : (c.readi off sizeofProghdr).length = sizeofProghdr)
    (htype : (c.proghdr off).type ≠ elfProgLoad) :
    Backed c (n + 1) off sz free ↔ Backed c n (u32 (off + sizeofProghdr)) sz free := by
  simp only [Backed, hread, if_pos htype, true_implies]

theorem backed_of_full (htype : (c.proghdr off).type = elfProgLoad)
    (h : max sz (u64 ((c.proghdr off).vaddr + (c.proghdr off).memsz)) = 0 ∨ free < need (pgCount sz)
      (pgCount (max sz (u64 ((c.proghdr off).vaddr + (c.proghdr off).memsz))))) :
    Backed c (n + 1) off sz free := by
  intro _
  rw [if_neg (not_not.mpr htype)]
  intro _ _ hne hle
  rcases h with h1 | h1
  · exact absurd h1 hne
  · exact absurd h1 (not_lt.mpr hle)

theorem backed_of_alloc {sz1 rest : Nat} (hread : (c.readi off sizeofProghdr).length = sizeofProghdr)
    (htype : (c.proghdr off).type = elfProgLoad) (hsz : (c.proghdr off).filesz ≤ (c.proghdr off).memsz)
    (hal : (c.proghdr off).vaddr % pgSize = 0) (h0 : sz1 ≠ 0)
    (hsz1 : sz1 = max sz (u64 ((c.proghdr off).vaddr + (c.proghdr off).memsz)))
    (hfree : need (pgCount sz) (pgCount sz1) + rest = free) :
    Backed c (n + 1) off sz free ↔
      SegBacked c (c.proghdr off).vaddr (u32 (c.proghdr off).off) (u32 (c.proghdr off).filesz) (pgCount sz1) ∧
        (SegRead c (u32 (c.proghdr off).off) (u32 (c.proghdr off).filesz) →
          Backed c n (u32 (off + sizeofProghdr)) sz1 rest) := by
  have hle : need (pgCount sz) (pgCount sz1) ≤ free := by omega
  have hsub : free - need (pgCount sz) (pgCount sz1) = rest := by omega
  have htype' : ¬(c.proghdr off).type ≠ elfProgLoad := not_not.mpr htype
  simp only [Backed, hread, if_neg htype', true_implies, hsz, hal, ← hsz1, h0, ne_eq, not_false_eq_true,
    hle, hsub]

end Header

/-- The end of loading headers: the address space has the size returned. -/
def Loaded (m m' : Mem) (pde : Nat) (l : List Nat) (sz : Nat) : Prop :=
  ∃ l', Space m' pde l' ∧ pgCount sz = l'.length ∧
    Moves m m' (tables m 3 pde + pages l) (tables m' 3 pde + pages l')

theorem segment_spec {vaddr offset size sz : Nat} {rest : VmM (Nat × Bool)} {B : Prop}
    (h : Loading m pde sz l) (hoff : offset < 2 ^ 32)
    (hrest : ∀ m₁, m₁.freelist = m.freelist → Loading m₁ pde sz l →
      Sat rest m₁ (fun r m' => B ∧ Loaded m₁ m' pde l r.1) fun e => e = noAddress ∧ ¬B) :
    Sat (do if (← loadseg pde vaddr c offset size) < 0 then return (sz, false) else rest) m
      (fun r m' => (SegBacked c vaddr offset size (pgCount sz) ∧ (SegRead c offset size → B)) ∧
        Loaded m m' pde l r.1)
      fun e => e = noAddress ∧
        ¬(SegBacked c vaddr offset size (pgCount sz) ∧ (SegRead c offset size → B)) := by
  rw [sat_bind, h.count]
  refine (loadseg_spec h.space h.user (h.pool.congr (add_comm _ _)) hoff).mono ?_ ?_
  · rintro r m₁ ⟨hw, hback, hread⟩
    obtain ⟨hl₁, hmv₁⟩ := h.written hw
    rw [sat_ite]
    refine ⟨fun hneg => ?_, fun hok => ?_⟩
    · exact ⟨⟨hback, fun h' => absurd h' (hread.mp hneg)⟩, l, hl₁.space, h.count, hmv₁⟩
    · have hseg : SegRead c offset size := by
        by_contra h'
        exact hok (hread.mpr h')
      refine (hrest m₁ hw.free hl₁).mono ?_ ?_
      · rintro r' m₂ ⟨hB, l', hs', hc', hmv₂⟩
        exact ⟨⟨hback, fun _ => hB⟩, l', hs', hc', hmv₁.trans hmv₂⟩
      · rintro e ⟨he, hnb⟩
        exact ⟨he, fun hall => hnb (hall.2 hseg)⟩
  · rintro e ⟨he, hnb⟩
    exact ⟨he, fun hall => hnb hall.1⟩

theorem Loaded.of_moves {m₁ : Mem} {l₁ : List Nat} {sz : Nat} (h : Loaded m₁ m' pde l₁ sz)
    (hmv : Moves m m₁ (tables m 3 pde + pages l) (tables m₁ 3 pde + pages l₁)) : Loaded m m' pde l sz := by
  obtain ⟨l', hs', hc', hmv'⟩ := h
  exact ⟨l', hs', hc', hmv.trans hmv'⟩

/-- **Loading the headers panics exactly where a segment is not backed**, and leaves an address space of
the size it returns. -/
theorem loadHeaders_spec (n : Nat) : ∀ (off sz : Nat) (l : List Nat) (m : Mem), Loading m pde sz l →
    Sat (loadHeaders pde c n off sz) m
      (fun r m' => Backed c n off sz m.freelist.length ∧ Loaded m m' pde l r.1)
      fun e => e = noAddress ∧ ¬Backed c n off sz m.freelist.length := by
  induction n with
  | zero => intro off sz l m h; exact ⟨trivial, l, h.space, h.count, Moves.refl _ _⟩
  | succ n ih =>
    intro off sz l m h
    have hstop : Loaded m m pde l sz := ⟨l, h.space, h.count, Moves.refl _ _⟩
    unfold loadHeaders
    dsimp only
    rw [sat_ite]
    refine ⟨fun hshort => ⟨backed_of_bad fun h' => absurd h' hshort, hstop⟩, fun hread => ?_⟩
    rw [not_not] at hread
    rw [sat_ite]
    refine ⟨fun htype => ?_, fun htype => ?_⟩
    · rw [backed_of_other hread htype]
      exact ih _ sz l m h
    rw [not_not] at htype
    rw [sat_ite]
    refine ⟨fun hsz => ⟨backed_of_bad fun _ => ⟨htype, .inl hsz⟩, hstop⟩, fun hsz => ?_⟩
    rw [sat_ite]
    refine ⟨fun hal => ⟨backed_of_bad fun _ => ⟨htype, .inr hal⟩, hstop⟩, fun hal => ?_⟩
    rw [sat_bind]
    refine (alloc_spec h (isFlags_getflags _) (getflags_user _) (u64_lt _)).mono ?_ fun _ h => h.elim
    intro sz1 m₁ halloc
    cases halloc with
    | full hout hs₁ hmv =>
      rw [if_pos rfl]
      exact ⟨backed_of_full htype hout, l, hs₁, h.count, hmv⟩
    | ok l₁ h0 hfree hl₁ hmv₁ =>
      rw [if_neg h0, backed_of_alloc hread htype (not_lt.mp hsz) (not_not.mp hal) h0 rfl hfree]
      refine (segment_spec hl₁ (u32_lt _) fun m₂ hfree hl₂ => ?_).imp
        fun r m' h' => ⟨h'.1, h'.2.of_moves hmv₁⟩
      rw [← hfree]
      exact ih _ _ l₁ m₂ hl₂

end Xv6Armv8.Exec

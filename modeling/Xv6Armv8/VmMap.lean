import Xv6Armv8.VmFree

/-! A page table as a partial map. What an address translates to is read from the entry `walk` finds for it. Over
every sequence of calls of `walk`, `mappages` and `uvmunmap` on a table that `uvmcreate` has made, and whatever the
rest of the kernel does to other pages in between, the pages of the table form a tree, `mappages` of several pages
adds exactly their translations and `uvmunmap` removes exactly those of its range. -/

namespace Xv6Armv8.Vm

open Spec List Multiset

/-! ### Translations -/

/-- The bits of an entry that are not the address. -/
def pteFlags (e : Nat) : Nat := e &&& ((2 ^ 64 - 1) ^^^ pgAddrMask)

/-- The physical page and the flags of a valid entry. -/
def pteShows (e : Nat) : Option (Nat × Nat) :=
  if e &&& mmTypeValid = 0 then none else some (e &&& pgAddrMask, pteFlags e)

/-- The translation of an address: what the entry shows that `walk` finds. -/
def translation (m : Mem) (pde va : Nat) : Option (Nat × Nat) :=
  match walk 3 pde va false m with
  | .ok (some (t, i), _) => pteShows (m.pte t i)
  | _ => none

variable {m m' m₁ : Mem} {pde a b d pa fl va : Nat} {new : List Nat}

theorem translation_eq (m : Mem) (pde va : Nat) :
    translation m pde va = pteShows (entry m 3 pde (va / pgSize)) := by
  rw [translation, walk_false]
  cases hb : bottom m 3 pde (va / pgSize) with
  | none =>
    have h0 : entry m 3 pde (va / pgSize) = 0 := by
      by_contra h
      obtain ⟨t, ht⟩ := bottom_of_entry h
      rw [hb] at ht
      cases ht
    rw [h0]
    rfl
  | some t =>
    rw [entry_of_bottom hb]
    rfl

theorem pteShows_eq_none {e : Nat} : pteShows e = none ↔ e &&& mmTypeValid = 0 := by
  unfold pteShows
  by_cases h : e &&& mmTypeValid = 0
  · rw [if_pos h]
    exact iff_of_true rfl h
  · rw [if_neg h]
    exact iff_of_false (Option.some_ne_none _) h

theorem pteFlags_or {x fl : Nat} (hfl : fl < 2 ^ 64) (haddr : fl &&& pgAddrMask = 0) :
    pteFlags ((x &&& pgAddrMask) ||| fl) = fl := by
  have hall : fl &&& (2 ^ 64 - 1) = fl := by rw [Nat.and_two_pow_sub_one_eq_mod, Nat.mod_eq_of_lt hfl]
  have hkeep : fl &&& ((2 ^ 64 - 1) ^^^ pgAddrMask) = fl := by
    rwa [show (2 ^ 64 - 1 : Nat) = pgAddrMask ||| ((2 ^ 64 - 1) ^^^ pgAddrMask) by decide,
      Nat.and_or_distrib_left, haddr, Nat.zero_or] at hall
  rw [pteFlags, Nat.and_or_distrib_right, Nat.and_assoc,
    show pgAddrMask &&& ((2 ^ 64 - 1) ^^^ pgAddrMask) = 0 by decide, Nat.and_zero, Nat.zero_or, hkeep]

theorem addr_or {x fl : Nat} (haddr : fl &&& pgAddrMask = 0) :
    ((x &&& pgAddrMask) ||| fl) &&& pgAddrMask = x &&& pgAddrMask := by
  rw [Nat.and_or_distrib_right, haddr, Nat.or_zero, Nat.and_assoc, Nat.and_self]

theorem pteShows_or {x fl : Nat} (hfl : fl < 2 ^ 64) (haddr : fl &&& pgAddrMask = 0) :
    pteShows ((x &&& pgAddrMask) ||| fl) =
      if fl &&& mmTypeValid = 0 then none else some (x &&& pgAddrMask, fl) := by
  have hvalid : ((x &&& pgAddrMask) ||| fl) &&& mmTypeValid = fl &&& mmTypeValid := by
    rw [Nat.and_or_distrib_right, Nat.and_assoc, show pgAddrMask &&& mmTypeValid = 0 by decide,
      Nat.and_zero, Nat.zero_or]
  rw [pteShows, hvalid, addr_or haddr, pteFlags_or hfl haddr]

theorem and_mask_congr {x y : Nat} (h : x % 2 ^ 64 = y % 2 ^ 64) : x &&& pgAddrMask = y &&& pgAddrMask := by
  have hmod : ∀ z, z &&& pgAddrMask = z % 2 ^ 64 &&& pgAddrMask := fun z => by
    rw [← Nat.and_two_pow_sub_one_eq_mod, Nat.and_assoc,
      show (2 ^ 64 - 1) &&& pgAddrMask = pgAddrMask by decide]
  rw [hmod x, hmod y, h]

/-! ### mappages of several pages -/

/-- The entries of the `d` pages from page `a` on now hold the addresses from `pa` on; `new` are the table pages the
table has got. -/
structure Mapping (m m' : Mem) (pde a pa fl d : Nat) (new : List Nat) : Prop where
  free : m.freelist = new ++ m'.freelist
  tables : tables m' 3 pde = tables m 3 pde + ↑new
  entry : ∀ j, j < maxPages → entry m' 3 pde j =
    if a ≤ j ∧ j < a + d then ((pa + (j - a) * pgSize) &&& pgAddrMask) ||| fl else entry m 3 pde j

theorem Mapping.zero (h : Grown m m' 3 pde new) : Mapping m m' pde a pa fl 0 new where
  free := h.free
  tables := h.tables
  entry := fun j _ => by rw [if_neg (by omega), h.entry]

theorem Mapping.nodup (h : Mapping m m' pde a pa fl d new) (hn : (Vm.tables m 3 pde + ↑m.freelist).Nodup) :
    (Vm.tables m' 3 pde + ↑m'.freelist).Nodup := by
  rw [h.tables, add_assoc, coe_add, ← h.free]
  exact hn

theorem Mapping.one (h : Grown m m₁ 3 pde new) (he : Edit m₁ m' pde a ((pa &&& pgAddrMask) ||| fl)) :
    Mapping m m' pde a pa fl 1 new where
  free := by rw [h.free, he.free]
  tables := by rw [he.tables, h.tables]
  entry := fun j hj => by
    rw [he.entry j hj]
    by_cases hja : j = a
    · subst hja
      rw [if_pos rfl, if_pos (by omega), Nat.sub_self, Nat.zero_mul, Nat.add_zero]
    · rw [if_neg hja, if_neg (by omega), h.entry]

theorem Mapping.cons {new' : List Nat} (h : Mapping m m₁ pde a pa fl 1 new)
    (h' : Mapping m₁ m' pde (a + 1) (u64 (pa + pgSize)) fl d new') :
    Mapping m m' pde a pa fl (d + 1) (new ++ new') where
  free := by rw [h.free, h'.free, append_assoc]
  tables := by rw [h'.tables, h.tables, add_assoc, coe_add]
  entry := fun j hj => by
    rw [h'.entry j hj]
    by_cases hin : a + 1 ≤ j ∧ j < a + 1 + d
    · rw [if_pos hin, if_pos (by omega)]
      have haddr : (u64 (pa + pgSize) + (j - (a + 1)) * pgSize) &&& pgAddrMask =
          (pa + (j - a) * pgSize) &&& pgAddrMask := by
        refine and_mask_congr ?_
        obtain ⟨i, rfl⟩ := Nat.exists_eq_add_of_le hin.1
        have h1 : a + 1 + i - (a + 1) = i := by omega
        have h2 : a + 1 + i - a = i + 1 := by omega
        rw [h1, h2, Nat.succ_mul, u64, Nat.mod_add_mod]
        congr 1
        omega
      rw [haddr]
    · rw [if_neg hin, h.entry j hj]
      by_cases hja : a ≤ j ∧ j < a + 1
      · rw [if_pos hja, if_pos (by omega)]
      · rw [if_neg hja, if_neg (by omega)]

/-- One turn of the loop: the tables run out, the page is mapped already, or it gets its entry. -/
theorem sat_mappagesLoop_turn {k : Nat} {Q : Int → Mem → Prop} {E : String → Prop} (hfl : fl < 2 ^ 64)
    (hn : (tables m 3 pde + ↑m.freelist).Nodup) (hval : ∀ x ∈ m.freelist, ValidPage x) (ha : a < maxPages)
    (hnone : ∀ m' new, Mapping m m' pde a pa fl 0 new → Q (-1) m')
    (hremap : entry m 3 pde a &&& mmTypeValid ≠ 0 → E "mappages: remap")
    (hlast : ∀ m' new, Mapping m m' pde a pa fl 1 new → k = 0 → Q 0 m')
    (hnext : ∀ m' new, Mapping m m' pde a pa fl 1 new → ∀ k', k = k' + 1 →
      Sat (mappagesLoop pde fl k' (u64 (a * pgSize + pgSize)) (u64 (pa + pgSize))) m' Q E) :
    Sat (mappagesLoop pde fl k (a * pgSize) pa) m Q E := by
  unfold mappagesLoop
  refine ((walk_true 3 pde m hn hval).err False.elim).bind fun r m₁ h => ?_
  rw [Nat.mul_div_cancel a (by decide)] at h
  obtain ⟨new, hg, hf⟩ := h
  cases r with
  | none => exact hnone m₁ new (.zero hg)
  | some s =>
    obtain ⟨t, i⟩ := s
    obtain ⟨hb, rfl, -, -⟩ := hf
    have hpte : m₁.pte t (a % pxEntryCnt) = entry m 3 pde a := by rw [← entry_of_bottom hb, hg.entry]
    have hzero : Mapping m m₁ pde a pa fl 0 new := .zero hg
    have hn₁ := (Multiset.nodup_add.mp (hzero.nodup hn)).1
    simp only [sat_bind, sat_getPte, hpte]
    rw [sat_ite]
    refine ⟨hremap, fun _ => ?_⟩
    rw [sat_bind, sat_setPte]
    have hmap : Mapping m _ pde a pa fl 1 new := .one hg (edit_setPte hn₁ ha hb (entry_lt hfl))
    cases k with
    | zero => exact hlast _ new hmap rfl
    | succ k => exact hnext _ new hmap k rfl

theorem mappagesLoop_spec (hfl : fl < 2 ^ 64) : ∀ (k a pa : Nat) (m : Mem),
    (tables m 3 pde + ↑m.freelist).Nodup → (∀ x ∈ m.freelist, ValidPage x) → a + k < maxPages →
    Sat (mappagesLoop pde fl k (a * pgSize) pa) m
      (fun r m' => ∃ d new, Mapping m m' pde a pa fl d new ∧ ((r = 0 ∧ d = k + 1) ∨ (r = -1 ∧ d ≤ k)))
      fun _ => ∃ j, a ≤ j ∧ j ≤ a + k ∧ entry m 3 pde j &&& mmTypeValid ≠ 0 := by
  intro k
  induction k with
  | zero =>
    intro a pa m hn hval hak
    refine sat_mappagesLoop_turn hfl hn hval hak (fun m' new h => ?_) (fun h => ?_) (fun m' new h _ => ?_)
      fun _ _ _ _ h => by cases h
    · exact ⟨0, new, h, .inr ⟨rfl, Nat.le_refl 0⟩⟩
    · exact ⟨a, Nat.le_refl a, Nat.le_refl a, h⟩
    · exact ⟨1, new, h, .inl ⟨rfl, rfl⟩⟩
  | succ k ih =>
    intro a pa m hn hval hak
    refine sat_mappagesLoop_turn hfl hn hval (by omega) (fun m' new h => ?_) (fun h => ?_)
      (fun _ _ _ h => by cases h) fun m₁ new h k' hk => ?_
    · exact ⟨0, new, h, .inr ⟨rfl, Nat.zero_le _⟩⟩
    · exact ⟨a, Nat.le_refl a, by omega, h⟩
    · cases hk
      have hnext : u64 (a * pgSize + pgSize) = (a + 1) * pgSize := by
        unfold u64
        unfold maxPages at hak
        unfold pgSize
        omega
      have hval₁ : ∀ x ∈ m₁.freelist, ValidPage x := fun x hx =>
        hval x (by rw [h.free]; exact mem_append_right _ hx)
      rw [hnext]
      refine (ih (a + 1) (u64 (pa + pgSize)) m₁ (h.nodup hn) hval₁ (by omega)).mono ?_ ?_
      · rintro r m' ⟨d, new', h', hr⟩
        exact ⟨d + 1, new ++ new', h.cons h', by omega⟩
      · rintro _ ⟨j, hlo, hhi, hj⟩
        rw [h.entry j (by omega), if_neg (by omega)] at hj
        exact ⟨j, by omega, by omega, hj⟩

/-- The address is on a page of the range. -/
def OnPages (va size b : Nat) : Prop := va / pgSize ≤ b / pgSize ∧ b / pgSize ≤ (va + size - 1) / pgSize

/-- How many pages of the range come after its first one. -/
def pagesAfter (va size : Nat) : Nat := (va + size - 1) / pgSize - va / pgSize

theorem mappages_range {size : Nat} (hfl : fl < 2 ^ 64) (hn : (tables m 3 pde + ↑m.freelist).Nodup)
    (hval : ∀ x ∈ m.freelist, ValidPage x) (hsize : 0 < size) (hva : va + size ≤ maxVa) :
    Sat (mappages pde va pa size fl) m (fun r m' => ∃ d new, Mapping m m' pde (va / pgSize) pa fl d new ∧
        ((r = 0 ∧ d = pagesAfter va size + 1) ∨ (r = -1 ∧ d ≤ pagesAfter va size)))
      fun _ => ∃ j, va / pgSize ≤ j ∧ j ≤ va / pgSize + pagesAfter va size ∧
        entry m 3 pde j &&& mmTypeValid ≠ 0 := by
  have hcount : u64 (pgRoundDown (u64 (va + size + (2 ^ 64 - 1))) + (2 ^ 64 - pgRoundDown va)) / pgSize =
      pagesAfter va size := by
    unfold pagesAfter pgRoundDown u64
    unfold maxVa at hva
    unfold pgSize
    omega
  have hlast : va / pgSize + pagesAfter va size < maxPages := by
    unfold pagesAfter maxPages
    unfold maxVa at hva
    unfold pgSize
    omega
  unfold mappages
  rw [if_neg (by omega)]
  simp only [hcount]
  exact mappagesLoop_spec hfl _ _ pa m hn hval hlast

/-! ### uvmunmap -/

/-- The pages `kfree` takes. -/
def Freeable (m : Mem) (p : Nat) : Prop :=
  p % pgSize = 0 ∧ u64 (kernBase + m.kend) ≤ p ∧ p < kernBase + phyStop

theorem sat_kfree_iff {p : Nat} {Q : Unit → Mem → Prop} {E : String → Prop} :
    Sat (kfree p) m Q E ↔ (Freeable m p → Q () { m with freelist := p :: m.freelist }) ∧
      (¬Freeable m p → E "kfree") := by
  have hiff : (p % pgSize ≠ 0 ∨ p < u64 (kernBase + m.kend) ∨ kernBase + phyStop ≤ p) ↔ ¬Freeable m p := by
    unfold Freeable
    omega
  unfold kfree
  rw [sat_bind, sat_get, sat_ite, hiff, not_not]
  exact and_comm

/-- The entries of the `d` pages from page `a` on are gone. -/
structure Cleared (m m' : Mem) (pde a d : Nat) : Prop where
  tables : tables m' 3 pde = tables m 3 pde
  entry : ∀ j, j < maxPages → entry m' 3 pde j = if a ≤ j ∧ j < a + d then 0 else entry m 3 pde j
  kend : m'.kend = m.kend

/-- Every one of the pages is mapped, and its memory can be freed where that is asked for. -/
def Removable (m : Mem) (pde : Nat) (doFree : Bool) (a d : Nat) : Prop :=
  ∀ j, a ≤ j → j < a + d → entry m 3 pde j &&& mmTypeMask = mmTypePage ∧
    (doFree = true → Freeable m (ptePage (entry m 3 pde j)))

theorem Cleared.zero (m : Mem) (pde a : Nat) : Cleared m m pde a 0 where
  tables := rfl
  entry := fun j _ => by rw [if_neg (by omega)]
  kend := rfl

theorem Cleared.cons {m₀ : Mem} (hpte : m₀.ram = m.ram) (hkend : m₀.kend = m.kend) (he : Edit m₀ m₁ pde a 0)
    (h : Cleared m₁ m' pde (a + 1) d) : Cleared m m' pde a (d + 1) where
  tables := by rw [h.tables, he.tables, tables_congr fun x _ => congrFun hpte x]
  entry := fun j hj => by
    rw [h.entry j hj, he.entry j hj, entry_congr fun x _ => congrFun hpte x]
    by_cases hja : j = a
    · rw [if_neg (by omega), if_pos hja, if_pos (by omega)]
    · by_cases hin : a + 1 ≤ j ∧ j < a + 1 + d
      · rw [if_pos hin, if_pos (by omega)]
      · rw [if_neg hin, if_neg hja, if_neg (by omega)]
  kend := by rw [h.kend, he.kend, hkend]

theorem uvmunmapLoop_clears (doFree : Bool) : ∀ (d a : Nat) (m : Mem), (tables m 3 pde).Nodup → a + d ≤ maxPages →
    Sat (uvmunmapLoop pde doFree d (a * pgSize)) m (fun _ m' => Cleared m m' pde a d)
      fun _ => ¬Removable m pde doFree a d := by
  intro d
  induction d with
  | zero => exact fun a m _ _ => Cleared.zero m pde a
  | succ d ih =>
    intro a m hn had
    have hself : a ≤ a ∧ a < a + (d + 1) := by omega
    unfold uvmunmapLoop
    rw [sat_bind, sat_walk_false, Nat.mul_div_cancel a (by decide)]
    cases hb : bottom m 3 pde a with
    | none =>
      intro hrem
      have h := (hrem a hself.1 hself.2).1
      obtain ⟨t, ht⟩ := bottom_of_entry (entry_zero_of_page h)
      rw [hb] at ht
      cases ht
    | some t =>
      have hpte := entry_of_bottom hb
      simp only [Option.map_some, sat_bind, sat_getPte, ← hpte]
      rw [sat_ite]
      refine ⟨fun h0 hrem => valid_of_page (hrem a hself.1 hself.2).1 h0, fun _ => ?_⟩
      rw [sat_ite]
      refine ⟨fun hty hrem => hty (hrem a hself.1 hself.2).1, fun hty => ?_⟩
      -- the rest of the loop, after the page is freed or left alone
      have hrest : ∀ m₀ : Mem, m₀.ram = m.ram → m₀.kend = m.kend →
          Sat (do setPte t (a % pxEntryCnt) 0; uvmunmapLoop pde doFree d (a * pgSize + pgSize)) m₀
            (fun _ m' => Cleared m m' pde a (d + 1)) fun _ => ¬Removable m pde doFree a (d + 1) := by
        intro m₀ hram hkend
        have htab : tables m₀ 3 pde = tables m 3 pde := tables_congr fun x _ => congrFun hram x
        have hb₀ : bottom m₀ 3 pde a = some t := by rw [bottom_congr fun x _ => congrFun hram x, hb]
        have hn₀ : (tables m₀ 3 pde).Nodup := by rwa [htab]
        have ha : a < maxPages := by omega
        have hedit := edit_setPte hn₀ ha hb₀ (Nat.two_pow_pos 64)
        rw [sat_bind, sat_setPte, ← Nat.succ_mul]
        generalize m₀.setPte t (a % pxEntryCnt) 0 = m₁ at hedit ⊢
        have hn₁ : (tables m₁ 3 pde).Nodup := by rwa [hedit.tables]
        refine (ih (a + 1) m₁ hn₁ (by omega)).mono (fun _ m' h => h.cons hram hkend hedit)
          fun _ hnot hrem => hnot fun j hlo hhi => ?_
        have hj := hrem j (by omega) (by omega)
        rw [hedit.entry j (by omega), if_neg (by omega), entry_congr fun x _ => congrFun hram x]
        refine ⟨hj.1, fun hf => ?_⟩
        have hk := hj.2 hf
        unfold Freeable at hk ⊢
        rw [hedit.kend, hkend]
        exact hk
      cases doFree with
      | false => exact hrest m rfl rfl
      | true =>
        rw [if_pos rfl, sat_bind, sat_kfree_iff]
        refine ⟨fun _ => ?_, fun hnot hrem => hnot ((hrem a hself.1 hself.2).2 rfl)⟩
        exact hrest { m with freelist := ptePage (entry m 3 pde a) :: m.freelist } rfl rfl

theorem uvmunmap_clears {npages : Nat} (doFree : Bool) (hn : (tables m 3 pde).Nodup)
    (hva : va + npages * pgSize ≤ maxVa) :
    Sat (uvmunmap pde va npages doFree) m
      (fun _ m' => va % pgSize = 0 ∧ Cleared m m' pde (va / pgSize) npages)
      fun _ => va % pgSize = 0 → ¬Removable m pde doFree (va / pgSize) npages := by
  unfold uvmunmap
  rw [sat_ite]
  refine ⟨fun h h0 => absurd h0 h, fun h => ?_⟩
  have h0 := not_not.mp h
  have hmul : va = va / pgSize * pgSize := (Nat.div_mul_cancel (Nat.dvd_of_mod_eq_zero h0)).symm
  have hcount : (u64 (va + u64 (npages * pgSize)) - va) / pgSize = npages := by
    unfold u64
    unfold maxVa at hva
    unfold pgSize at *
    omega
  have hle : va / pgSize + npages ≤ maxPages := by
    unfold maxPages
    unfold maxVa at hva
    unfold pgSize at *
    omega
  rw [hcount]
  have hloop := uvmunmapLoop_clears doFree npages (va / pgSize) m hn hle
  rw [← hmul] at hloop
  exact hloop.mono (fun _ m' hc => ⟨h0, hc⟩) fun _ he _ => he

/-! ### Tables and what happens to them -/

/-- The table pages form a tree, and no page of it is the target of an entry for an address. -/
structure Tree (m : Mem) (pde : Nat) : Prop where
  nodup : (tables m 3 pde).Nodup
  target : ∀ k, k < maxPages → entry m 3 pde k &&& mmTypeValid ≠ 0 → ptePage (entry m 3 pde k) ∉ tables m 3 pde

/-- The pages `kalloc` will return are fresh: each is free once, and the table neither has it nor leads to it. -/
structure FreshPages (m : Mem) (pde : Nat) : Prop where
  valid : ∀ x ∈ m.freelist, ValidPage x
  nodup : m.freelist.Nodup
  table : ∀ x ∈ m.freelist, x ∉ tables m 3 pde
  target : ∀ k, k < maxPages → entry m 3 pde k &&& mmTypeValid ≠ 0 → ptePage (entry m 3 pde k) ∉ m.freelist

/-- The page at an address is neither free nor a page of the table. -/
def OwnPage (m : Mem) (pde x : Nat) : Prop := ptePage x ∉ m.freelist ∧ ptePage x ∉ tables m 3 pde

/-- The memories a table made by `uvmcreate` can be in. -/
inductive Reachable (pde : Nat) : Mem → Prop
  | uvmcreate {m m' : Mem} : (∀ x ∈ m.freelist, ValidPage x) → Vm.uvmcreate m = .ok (some pde, m') →
      Reachable pde m'
  | walk {m m' : Mem} {va : Nat} {alloc : Bool} {r : Option (Nat × Nat)} : Reachable pde m → FreshPages m pde →
      va < maxVa → Vm.walk 3 pde va alloc m = .ok (r, m') → Reachable pde m'
  | mappages {m m' : Mem} {va pa size flags : Nat} {r : Int} : Reachable pde m → FreshPages m pde →
      va + size ≤ maxVa → flags < 2 ^ 64 → flags &&& pgAddrMask = 0 →
      (∀ i, i ≤ pagesAfter va size → OwnPage m pde (pa + i * pgSize)) →
      Vm.mappages pde va pa size flags m = .ok (r, m') → Reachable pde m'
  | uvmunmap {m m' : Mem} {va npages : Nat} {doFree : Bool} : Reachable pde m →
      va + npages * pgSize ≤ maxVa → Vm.uvmunmap pde va npages doFree m = .ok ((), m') → Reachable pde m'
  /-- What the rest of the kernel does, the allocator included, leaves the pages of the table alone. -/
  | other {m m' : Mem} : Reachable pde m → (∀ x ∈ tables m 3 pde, m'.ram x = m.ram x) → Reachable pde m'

theorem FreshPages.nodup_add (hf : FreshPages m pde) (ht : Tree m pde) : (tables m 3 pde + ↑m.freelist).Nodup :=
  Multiset.nodup_add.mpr ⟨ht.nodup, coe_nodup.mpr hf.nodup,
    Multiset.disjoint_right.mpr fun hx => hf.table _ (mem_coe.mp hx)⟩

theorem Mapping.tree (h : Mapping m m' pde a pa fl d new) (ht : Tree m pde) (hf : FreshPages m pde)
    (haddr : fl &&& pgAddrMask = 0) (hown : ∀ i, i < d → OwnPage m pde (pa + i * pgSize)) : Tree m' pde where
  nodup := (Multiset.nodup_add.mp (h.nodup (hf.nodup_add ht))).1
  target := fun k hk hv => by
    have hout : ∀ {x}, x ∉ m.freelist → x ∉ Vm.tables m 3 pde → x ∉ Vm.tables m' 3 pde := by
      intro x hfree htab
      rw [h.tables, mem_add, mem_coe]
      refine not_or.mpr ⟨htab, fun hx => hfree ?_⟩
      rw [h.free]
      exact mem_append_left _ hx
    rw [h.entry k hk] at hv ⊢
    split_ifs at hv ⊢ with hin
    · obtain ⟨hfree, htab⟩ := hown (k - a) (by omega)
      rw [ptePage, addr_or haddr]
      exact hout hfree htab
    · exact hout (hf.target k hk hv) (ht.target k hk hv)

theorem Cleared.tree (h : Cleared m m' pde a d) (ht : Tree m pde) : Tree m' pde where
  nodup := by
    rw [h.tables]
    exact ht.nodup
  target := fun k hk hv => by
    rw [h.entry k hk] at hv ⊢
    rw [h.tables]
    split_ifs at hv ⊢ with hin
    · exact absurd (Nat.zero_and _) hv
    · exact ht.target k hk hv

theorem Tree.congr (ht : Tree m pde) (h : ∀ x ∈ tables m 3 pde, m'.ram x = m.ram x) : Tree m' pde where
  nodup := by
    rw [tables_congr h]
    exact ht.nodup
  target := fun k hk hv => by
    rw [entry_congr h] at hv ⊢
    rw [tables_congr h]
    exact ht.target k hk hv

theorem tree_zero_page (h : m.ram pde = fun _ => 0) : Tree m pde where
  nodup := by
    rw [tables_zero_page h]
    exact Multiset.nodup_singleton pde
  target := fun k _ hv => by
    rw [entry_zero_page h] at hv
    exact absurd (Nat.zero_and _) hv

/-- **Every reachable table is a tree.** -/
theorem Reachable.tree (h : Reachable pde m) : Tree m pde := by
  induction h with
  | @uvmcreate m m' hval hok =>
    have hsat : Sat Vm.uvmcreate m (fun r m' => ∀ p, r = some p → m'.ram p = fun _ => 0) fun _ => False := by
      unfold Vm.uvmcreate
      rw [sat_bind, sat_kalloc]
      refine ⟨fun _ p hp => ?_, fun r rest _ p hp => ?_⟩
      · cases hp
      · cases hp
        exact Function.update_self _ _ _
    exact tree_zero_page (hsat.of_ok hok pde rfl)
  | @walk m m' va alloc r _ hf hva hok ih =>
    cases alloc with
    | false =>
      rw [walk_false] at hok
      cases hok
      exact ih
    | true =>
      obtain ⟨new, hg, -⟩ := (walk_true 3 pde m (hf.nodup_add ih) hf.valid).of_ok hok
      have hmap : Mapping m m' pde 0 0 0 0 new := .zero hg
      exact hmap.tree ih hf (Nat.zero_and _) fun i hi => absurd hi (Nat.not_lt_zero i)
  | @mappages m m' va pa size flags r _ hf hva hfl haddr hown hok ih =>
    have hsize : 0 < size := by
      refine Nat.pos_of_ne_zero fun h0 => ?_
      subst h0
      cases hok
    obtain ⟨d, new, hmap, hd⟩ := (mappages_range hfl (hf.nodup_add ih) hf.valid hsize hva).of_ok hok
    exact hmap.tree ih hf haddr fun i hi => hown i (by omega)
  | @uvmunmap m m' va npages doFree _ hva hok ih =>
    exact ((uvmunmap_clears doFree ih.nodup hva).of_ok hok).2.tree ih
  | other _ hkeep ih => exact ih.congr hkeep

/-! ### The table as a map -/

/-- The entry numbers lead from the root to the table page. -/
structure TablePath (m : Mem) (pde : Nat) (is : List Nat) (x : Nat) : Prop where
  depth : is.length ≤ 3
  index : ∀ i ∈ is, i < pxEntryCnt
  follow : Radix.follow next m.pte pde is = some x

theorem TablePath.mem {is : List Nat} {x : Nat} (h : TablePath m pde is x) : x ∈ tables m 3 pde :=
  Radix.follow_mem h.depth h.index h.follow

theorem page_lt_maxPages (hva : va < maxVa) : va / pgSize < maxPages := by
  unfold maxPages
  unfold maxVa at hva
  unfold pgSize
  omega

/-! An address space `l` as a map. -/

/-- The byte at a mapped address. -/
def byteAt (m : Mem) (pde va : Nat) : Option UInt8 :=
  (translation m pde va).map fun t => m.ram (p2v t.1) (va % pgSize)

section Space

variable {l : List Nat}

theorem Space.translation (hs : Space m pde l) (hva : va < maxVa) :
    Vm.translation m pde va = pteShows (l.getD (va / pgSize) 0) := by
  rw [translation_eq, hs.entry _ (page_lt_maxPages hva)]

theorem Space.translation_ne_none (hs : Space m pde l) (hva : va < maxVa) :
    Vm.translation m pde va ≠ none ↔ va / pgSize < l.length := by
  rw [hs.translation hva, ne_eq, pteShows_eq_none]
  by_cases hlt : va / pgSize < l.length
  · rw [getD_eq_getElem _ _ hlt]
    exact iff_of_true (valid_of_page (hs.leaf _ (getElem_mem _))) hlt
  · rw [getD_eq_default _ _ (not_lt.mp hlt)]
    exact iff_of_false (fun h => h (Nat.zero_and _)) hlt

theorem Space.mapped_iff {sz : Nat} (hs : Space m pde l) (hcount : pgCount sz = l.length) (hva : va < maxVa) :
    Vm.translation m pde va ≠ none ↔ va < pgRoundUp sz := by
  rw [hs.translation_ne_none hva, pgRoundUp_of_count hcount hs.len]
  exact Nat.div_lt_iff_lt_mul (by decide)

theorem Space.byteAt (hs : Space m pde l) (hva : va < maxVa) (hlt : va / pgSize < l.length) :
    Vm.byteAt m pde va = some (m.ram (ptePage l[va / pgSize]) (va % pgSize)) := by
  have hvalid : ¬l[va / pgSize] &&& mmTypeValid = 0 := valid_of_page (hs.leaf _ (getElem_mem _))
  rw [Vm.byteAt, hs.translation hva, getD_eq_getElem _ _ hlt, pteShows, if_neg hvalid]
  rfl

end Space

theorem Mapping.translation {size : Nat} (h : Mapping m m' pde (va / pgSize) pa fl (pagesAfter va size + 1) new)
    (hfl : fl < 2 ^ 64) (haddr : fl &&& pgAddrMask = 0) (hsize : 0 < size) (hb : b < maxVa) :
    (OnPages va size b → Vm.translation m' pde b = if fl &&& mmTypeValid = 0 then none
      else some ((pa + (b / pgSize - va / pgSize) * pgSize) &&& pgAddrMask, fl)) ∧
    (¬OnPages va size b → Vm.translation m' pde b = Vm.translation m pde b) := by
  have hiff : (va / pgSize ≤ b / pgSize ∧ b / pgSize < va / pgSize + (pagesAfter va size + 1)) ↔
      OnPages va size b := by
    have hle : va / pgSize ≤ (va + size - 1) / pgSize := Nat.div_le_div_right (by omega)
    unfold pagesAfter OnPages
    omega
  rw [translation_eq m', translation_eq m, h.entry (b / pgSize) (page_lt_maxPages hb)]
  refine ⟨fun hin => ?_, fun hout => ?_⟩
  · rw [if_pos (hiff.mpr hin), pteShows_or hfl haddr]
  · rw [if_neg (mt hiff.mp hout)]

theorem Cleared.translation {npages : Nat} (h : Cleared m m' pde (va / pgSize) npages) (h0 : va % pgSize = 0)
    (hb : b < maxVa) :
    Vm.translation m' pde b = if va ≤ b ∧ b < va + npages * pgSize then none else Vm.translation m pde b := by
  have hiff : (va / pgSize ≤ b / pgSize ∧ b / pgSize < va / pgSize + npages) ↔
      va ≤ b ∧ b < va + npages * pgSize := by
    unfold pgSize at *
    omega
  have hentry := h.entry (b / pgSize) (page_lt_maxPages hb)
  simp only [hiff] at hentry
  rw [translation_eq, translation_eq, hentry]
  split_ifs
  · rfl
  · rfl

theorem onPages_of_le {size j : Nat} (hsize : 0 < size) (hlo : va / pgSize ≤ j)
    (hhi : j ≤ va / pgSize + pagesAfter va size) : OnPages va size (j * pgSize) := by
  have hle : va / pgSize ≤ (va + size - 1) / pgSize := Nat.div_le_div_right (by omega)
  unfold OnPages
  unfold pagesAfter at hhi
  rw [Nat.mul_div_cancel j (by decide)]
  omega

/-- **A reachable page table is a partial map.** Its pages form a tree: no two paths lead to one page, and no address
translates to one. `mappages` that returns 0 on pages without a translation gives each of them the corresponding
physical page with the flags and leaves every other translation; `uvmunmap` removes those of its range and no other,
and it returns when every page of the range is mapped and can be freed; `walk` without `alloc` changes nothing. -/
theorem table_is_partial_map (h : Reachable pde m) :
    (∀ is js x, TablePath m pde is x → TablePath m pde js x → is = js) ∧
    (∀ is x, TablePath m pde is x → ∀ va pa fl, va < maxVa → translation m pde va = some (pa, fl) → p2v pa ≠ x) ∧
    (∀ va pa size fl, 0 < size → va + size ≤ maxVa → fl < 2 ^ 64 → fl &&& pgAddrMask = 0 → FreshPages m pde →
      (∀ b, OnPages va size b → translation m pde b = none) →
      Sat (mappages pde va pa size fl) m (fun r m' => (r = 0 ∨ r = -1) ∧ (r = 0 → ∀ b, b < maxVa →
          (OnPages va size b → translation m' pde b = if fl &&& mmTypeValid = 0 then none
            else some ((pa + (b / pgSize - va / pgSize) * pgSize) &&& pgAddrMask, fl)) ∧
          (¬OnPages va size b → translation m' pde b = translation m pde b)))
        fun _ => False) ∧
    (∀ va npages doFree, va + npages * pgSize ≤ maxVa → Sat (uvmunmap pde va npages doFree) m
        (fun _ m' => ∀ b, b < maxVa → translation m' pde b =
          if va ≤ b ∧ b < va + npages * pgSize then none else translation m pde b)
        fun _ => va % pgSize = 0 → ¬Removable m pde doFree (va / pgSize) npages) ∧
    (∀ va, ∃ r, walk 3 pde va false m = .ok (r, m)) := by
  have ht := h.tree
  refine ⟨?_, ?_, ?_, ?_, fun va => ⟨_, walk_false 3 pde m⟩⟩
  · intro is js x his hjs
    exact Radix.follow_inj ht.nodup his.depth hjs.depth his.index hjs.index his.follow hjs.follow
  · intro is x hx va pa fl hva htr heq
    rw [translation_eq, pteShows] at htr
    split_ifs at htr with hv
    obtain ⟨rfl, -⟩ := Prod.mk.inj (Option.some.inj htr)
    refine ht.target _ (page_lt_maxPages hva) hv ?_
    rw [ptePage, heq]
    exact hx.mem
  · intro va pa size fl hsize hva hfl haddr hf hfree
    refine (mappages_range hfl (hf.nodup_add ht) hf.valid hsize hva).mono ?_ ?_
    · rintro r m' ⟨d, new, hmap, ⟨rfl, rfl⟩ | ⟨rfl, -⟩⟩
      · exact ⟨.inl rfl, fun _ b hb => hmap.translation hfl haddr hsize hb⟩
      · exact ⟨.inr rfl, fun h0 => absurd h0 (by decide)⟩
    · rintro _ ⟨j, hlo, hhi, hj⟩
      have hnone := hfree (j * pgSize) (onPages_of_le hsize hlo hhi)
      rw [translation_eq, Nat.mul_div_cancel j (by decide), pteShows_eq_none] at hnone
      exact hj hnone
  · intro va npages doFree hva
    exact (uvmunmap_clears doFree ht.nodup hva).mono (fun _ m' hc b hb => hc.2.translation hc.1 hb) fun _ he => he

/-- A memory of eight free pages. -/
def eightPages : Mem :=
  ⟨fun _ _ => 0, (List.range 8).map fun j => kernBase + phyBase + j * pgSize, kernBase + phyBase⟩

/-- After `uvmcreate` has taken the first of them. -/
def newTable : Mem :=
  (eightPages.taken (kernBase + phyBase) eightPages.freelist.tail).setPage (kernBase + phyBase) fun _ => 0

theorem eightPages_valid : ∀ x ∈ eightPages.freelist, ValidPage x := by
  intro x hx
  obtain ⟨j, hj, rfl⟩ := List.mem_map.mp hx
  rw [List.mem_range] at hj
  exact ⟨by interval_cases j <;> decide, by omega, by interval_cases j <;> decide⟩

theorem newTable_reachable : Reachable (kernBase + phyBase) newTable := .uvmcreate eightPages_valid rfl

theorem newTable_zero : newTable.ram (kernBase + phyBase) = fun _ => 0 := by
  simp only [newTable, Mem.setPage, Function.update_self]

theorem newTable_fresh : FreshPages newTable (kernBase + phyBase) where
  valid := fun x hx => eightPages_valid x (mem_of_mem_tail hx)
  nodup := by decide
  table := fun x hx hmem => by
    rw [tables_zero_page newTable_zero, Multiset.mem_singleton] at hmem
    subst hmem
    exact absurd hx (by decide)
  target := fun k _ hv => by
    rw [entry_zero_page newTable_zero] at hv
    exact absurd (Nat.zero_and _) hv

/-- Two pages mapped across the end of a bottom table. -/
theorem two_pages_mapped : Reachable (kernBase + phyBase) newTable ∧ ∃ m',
    mappages (kernBase + phyBase) (511 * pgSize + 1) (phyBase + 0x100000) pgSize user4kPageRo newTable = .ok (0, m') ∧
    translation m' (kernBase + phyBase) (512 * pgSize) = some (phyBase + 0x101000, user4kPageRo) ∧
    translation m' (kernBase + phyBase) (513 * pgSize) = none := by
  have hrun : (mappages (kernBase + phyBase) (511 * pgSize + 1) (phyBase + 0x100000) pgSize user4kPageRo
      newTable).toOption.map Prod.fst = some 0 := by decide +kernel
  have hnone : ∀ b, translation newTable (kernBase + phyBase) b = none := fun b => by
    rw [translation_eq, entry_zero_page newTable_zero]
    rfl
  obtain ⟨-, -, hmap, -⟩ := table_is_partial_map newTable_reachable
  obtain ⟨r, m', hok, -, hr⟩ := (hmap (511 * pgSize + 1) (phyBase + 0x100000) pgSize user4kPageRo (by decide)
    (by decide) (by decide) (by decide) newTable_fresh fun b _ => hnone b).ok
  rw [hok] at hrun
  cases hrun
  refine ⟨newTable_reachable, m', hok, ?_, ?_⟩
  · exact (hr rfl (512 * pgSize) (by decide)).1 (by unfold OnPages; decide)
  · rw [(hr rfl (513 * pgSize) (by decide)).2 (by unfold OnPages; decide), hnone]

end Xv6Armv8.Vm

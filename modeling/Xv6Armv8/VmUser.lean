import Xv6Armv8.VmCopy

/-! User memory byte by byte. An address is open to the user if it lies below `MAXVA` and its leaf entry is a page
with `AP_USER`; the byte behind it is one of the page the entry leads to. The copies go page by page and stop at the
first address that is not open. For any table whose open pages are distinct and are no pages of the table itself, the
results say which bytes each copy transfers, that it changes no other, and which return value it gives. The copies into
the kernel are given with the bytes they have stored at their destination when they return, also where they fail. -/

namespace Xv6Armv8.Vm

open Spec List

variable {m m' m'' : Mem} {pde va va' i len : Nat}

/-! ### Addresses open to the user -/

/-- The address is mapped for the user. -/
structure UserPage (m : Mem) (pde va : Nat) : Prop where
  lt : va < maxVa
  page : entry m 3 pde (va / pgSize) &&& mmTypeMask = mmTypePage
  user : entry m 3 pde (va / pgSize) &&& apUser ≠ 0

instance (m : Mem) (pde va : Nat) : Decidable (UserPage m pde va) :=
  decidable_of_iff (va < maxVa ∧ entry m 3 pde (va / pgSize) &&& mmTypeMask = mmTypePage ∧
    entry m 3 pde (va / pgSize) &&& apUser ≠ 0) ⟨fun h => ⟨h.1, h.2.1, h.2.2⟩, fun h => ⟨h.lt, h.page, h.user⟩⟩

theorem ptePage_ne_zero (e : Nat) : ptePage e ≠ 0 := by
  have h : e &&& pgAddrMask ≤ pgAddrMask := Nat.and_le_right
  unfold ptePage p2v u64
  unfold pgAddrMask at *
  unfold kernBase
  omega

theorem UserPage.transl_eq (h : UserPage m pde va) : transl m pde va = ptePage (entry m 3 pde (va / pgSize)) := by
  rw [transl, if_neg (not_le.mpr h.lt), if_neg (not_not.mpr h.page), if_neg h.user]

theorem transl_ne_zero : transl m pde va ≠ 0 ↔ UserPage m pde va := by
  constructor
  · intro h
    unfold transl at h
    split_ifs at h with h1 h2 h3
    · exact absurd rfl h
    · exact absurd rfl h
    · exact absurd rfl h
    · exact ⟨not_le.mp h1, not_not.mp h2, h3⟩
  · intro h
    rw [h.transl_eq]
    exact ptePage_ne_zero _

theorem UserPage.of_page (h : UserPage m pde va) (hpage : va' / pgSize = va / pgSize) : UserPage m pde va' := by
  refine ⟨?_, hpage ▸ h.page, hpage ▸ h.user⟩
  have hlt := h.lt
  unfold maxVa pgSize at *
  omega

theorem transl_of_page (hpage : va' / pgSize = va / pgSize) : transl m pde va' = transl m pde va := by
  by_cases h : UserPage m pde va
  · rw [h.transl_eq, (h.of_page hpage).transl_eq, hpage]
  · have h' : ¬UserPage m pde va' := fun hu => h (hu.of_page hpage.symm)
    rw [not_not.mp (mt transl_ne_zero.mp h), not_not.mp (mt transl_ne_zero.mp h')]

/-- The byte the user finds at an address. -/
def userByte (m : Mem) (pde va : Nat) : Option UInt8 :=
  if UserPage m pde va then some (m.ram (transl m pde va) (va % pgSize)) else none

theorem UserPage.byte (h : UserPage m pde va) :
    userByte m pde va = some (m.ram (transl m pde va) (va % pgSize)) := if_pos h

theorem userPage_iff_byte : UserPage m pde va ↔ userByte m pde va ≠ none := by
  unfold userByte
  split <;> simp [*]

/-- The pages open to the user are distinct and are not pages of the table. -/
structure UserTable (m : Mem) (pde : Nat) : Prop where
  inj : ∀ va va', UserPage m pde va → UserPage m pde va' → transl m pde va = transl m pde va' →
    va / pgSize = va' / pgSize
  apart : ∀ va, UserPage m pde va → transl m pde va ∉ tables m 3 pde

/-- No page open to the user is a page of the table. -/
def Apart (m : Mem) (pde : Nat) : Prop := ∀ va, UserPage m pde va → transl m pde va ∉ tables m 3 pde

section Congr

variable (h : ∀ x ∈ tables m 3 pde, m'.ram x = m.ram x)

include h

theorem userPage_congr : UserPage m' pde va ↔ UserPage m pde va := by
  have he := entry_congr (k := va / pgSize) h
  constructor
  · exact fun hu => ⟨hu.lt, he ▸ hu.page, he ▸ hu.user⟩
  · exact fun hu => ⟨hu.lt, he.symm ▸ hu.page, he.symm ▸ hu.user⟩

theorem transl_congr : transl m' pde va = transl m pde va := by
  unfold transl
  rw [entry_congr h]

theorem Apart.congr (ha : Apart m pde) : Apart m' pde := by
  intro va hu
  rw [transl_congr h, tables_congr h]
  exact ha va ((userPage_congr h).mp hu)

theorem UserTable.congr (ht : UserTable m pde) : UserTable m' pde where
  inj := fun va va' hu hu' heq => by
    rw [transl_congr h, transl_congr h] at heq
    exact ht.inj va va' ((userPage_congr h).mp hu) ((userPage_congr h).mp hu') heq
  apart := Apart.congr h ht.apart

end Congr

variable {bs bs' src : List UInt8} {done : Prop} {l : List Nat} {max n t : Nat}

theorem Space.getElem?_page (hs : Space m pde l) (hu : UserPage m pde va) :
    (l.map ptePage)[va / pgSize]? = some (transl m pde va) := by
  have hlt : va / pgSize < l.length := by
    by_contra h
    exact transl_ne_zero.mpr hu (hs.transl_of_le (not_lt.mp h))
  have hkm : va / pgSize < maxPages := lt_of_lt_of_le hlt hs.len
  rw [hu.transl_eq, hs.entry _ hkm, getD_eq_getElem _ _ hlt, List.getElem?_map, List.getElem?_eq_getElem hlt,
    Option.map_some]

theorem Space.userPage (hs : Space m pde l) (hlt : va / pgSize < l.length)
    (hu : l.getD (va / pgSize) 0 &&& apUser ≠ 0) : UserPage m pde va := by
  have hkm : va / pgSize < maxPages := lt_of_lt_of_le hlt hs.len
  refine ⟨?_, ?_, by rwa [hs.entry _ hkm]⟩
  · unfold maxVa
    unfold maxPages pgSize at hkm
    omega
  · rw [hs.entry _ hkm, getD_eq_getElem _ _ hlt]
    exact hs.leaf _ (getElem_mem hlt)

theorem Space.userByte_congr (hs : Space m pde l)
    (h : ∀ x ∈ tables m 3 pde + pages l, m'.ram x = m.ram x) : userByte m' pde va = userByte m pde va := by
  have hsame : ∀ x ∈ tables m 3 pde, m'.ram x = m.ram x := fun x hx => h x (Multiset.mem_add.mpr (.inl hx))
  unfold userByte
  simp only [userPage_congr hsame]
  split
  · next hu => rw [transl_congr hsame, h _ (Multiset.mem_add.mpr (.inr (hs.transl_mem (transl_ne_zero.mpr hu))))]
  · rfl

/-- The pages of an address space are distinct, and its tables have pages of their own. -/
theorem Space.userTable (hs : Space m pde l) (hp : Pool m (pages l + tables m 3 pde)) : UserTable m pde where
  inj := fun va va' hu hu' heq => by
    have hnodup : (l.map ptePage).Nodup :=
      Multiset.coe_nodup.mp (Multiset.nodup_add.mp (Multiset.nodup_add.mp hp.nodup).1).1
    have hget := hs.getElem?_page hu
    obtain ⟨hlt, -⟩ := List.getElem?_eq_some_iff.mp hget
    apply (List.getElem?_inj hlt hnodup).mp
    rw [hget, hs.getElem?_page hu', heq]
  apart := fun va hu hmem => hp.disjoint hmem (hs.transl_mem (transl_ne_zero.mpr hu))

/-! ### Bytes stored at user addresses -/

/-- The bytes `bs` have been stored from the user address `va` on, and no other byte has changed. -/
structure Stored (m m' : Mem) (pde va : Nat) (bs : List UInt8) : Prop where
  bytes : ∀ i (h : i < bs.length), m'.ram (transl m pde (va + i)) ((va + i) % pgSize) = bs[i]
  frame : ∀ p o, (∀ i, i < bs.length → ¬(p = transl m pde (va + i) ∧ o = (va + i) % pgSize)) →
    m'.ram p o = m.ram p o
  free : m'.freelist = m.freelist
  kend : m'.kend = m.kend

theorem Stored.nil (m : Mem) (pde va : Nat) : Stored m m pde va [] :=
  ⟨fun i h => absurd h (Nat.not_lt_zero i), fun _ _ _ => rfl, rfl, rfl⟩

theorem Stored.same (h : Stored m m' pde va bs) (ht : UserTable m pde)
    (hu : ∀ i, i < bs.length → UserPage m pde (va + i)) : ∀ x ∈ tables m 3 pde, m'.ram x = m.ram x := by
  intro x hx
  funext o
  apply h.frame
  rintro i hi ⟨rfl, -⟩
  exact ht.apart _ (hu i hi) hx

theorem Stored.trans (h : Stored m m' pde va bs) (h' : Stored m' m'' pde (va + bs.length) bs')
    (ht : UserTable m pde) (hu : ∀ i, i < (bs ++ bs').length → UserPage m pde (va + i)) :
    Stored m m'' pde va (bs ++ bs') := by
  rw [length_append] at hu
  have hsame := h.same ht fun i hi => hu i (by omega)
  have htr : ∀ a, transl m' pde a = transl m pde a := fun a => transl_congr hsame
  refine ⟨fun i hi => ?_, fun p o hout => ?_, h'.free.trans h.free, h'.kend.trans h.kend⟩
  · rw [length_append] at hi
    by_cases hlt : i < bs.length
    · -- a byte of the first part is not touched by the second
      rw [getElem_append_left hlt, ← h.bytes i hlt]
      apply h'.frame
      rintro j hj ⟨hp, ho⟩
      rw [htr] at hp
      have hpage := ht.inj _ _ (hu i (by omega)) (by rw [Nat.add_assoc]; exact hu _ (by omega)) hp
      unfold pgSize at hpage ho
      omega
    · rw [getElem_append_right (not_lt.mp hlt)]
      have hb := h'.bytes (i - bs.length) (by omega)
      rw [htr, Nat.add_assoc, Nat.add_sub_cancel' (not_lt.mp hlt)] at hb
      exact hb
  · have hsecond : m''.ram p o = m'.ram p o := h'.frame p o fun j hj => by
      rw [htr, Nat.add_assoc]
      exact hout (bs.length + j) (by rw [length_append]; omega)
    rw [hsecond]
    exact h.frame p o fun i hi => hout i (by rw [length_append]; omega)

theorem stored_chunk (hlen : bs.length ≤ pgSize - va % pgSize) :
    Stored m (m.setPage (transl m pde va) ((m.ram (transl m pde va)).put (va % pgSize) bs)) pde va bs := by
  have hpos : ∀ i, i < bs.length → (va + i) / pgSize = va / pgSize ∧ (va + i) % pgSize = va % pgSize + i := by
    intro i hi
    unfold pgSize at *
    omega
  refine ⟨fun i hi => ?_, fun p o hout => ?_, rfl, rfl⟩
  · rw [transl_of_page (hpos i hi).1, (hpos i hi).2]
    simp only [Mem.setPage, Function.update_self, ByteStore.put]
    rw [if_pos (by omega), Nat.add_sub_cancel_left, getD_eq_getElem _ _ hi]
  · by_cases hp : p = transl m pde va
    · subst hp
      simp only [Mem.setPage, Function.update_self, ByteStore.put]
      rw [if_neg]
      rintro ⟨hlo, hhi⟩
      refine hout (o - va % pgSize) (by omega) ⟨?_, ?_⟩
      · rw [transl_of_page (hpos _ (by omega)).1]
      · rw [(hpos _ (by omega)).2]
        omega
    · rw [ram_setPage_of_ne hp]

theorem Stored.userByte {bs : List UInt8} (h : Stored m m' pde va bs) (ht : UserTable m pde)
    (hu : ∀ i, i < bs.length → UserPage m pde (va + i)) (hi : i < bs.length) :
    userByte m' pde (va + i) = some bs[i] := by
  have hsame := h.same ht hu
  rw [((userPage_congr hsame).mpr (hu i hi)).byte, transl_congr hsame, h.bytes i hi]

theorem Stored.userByte_other {x : Nat} (h : Stored m m' pde va bs) (ht : UserTable m pde)
    (hu : ∀ i, i < bs.length → UserPage m pde (va + i)) (hx : x < va ∨ va + bs.length ≤ x) :
    Vm.userByte m' pde x = Vm.userByte m pde x := by
  have hsame := h.same ht hu
  by_cases hopen : UserPage m pde x
  · rw [((userPage_congr hsame).mpr hopen).byte, hopen.byte, transl_congr hsame, h.frame _ _ fun i hi heq => ?_]
    have hpage := ht.inj _ _ hopen (hu i hi) heq.1
    have hoff := heq.2
    unfold pgSize at hpage hoff
    omega
  · rw [Vm.userByte, Vm.userByte, if_neg hopen, if_neg fun hu' => hopen ((userPage_congr hsame).mp hu')]

/-! ### How far a copy gets -/

/-- A copy of `len` bytes has done `t`: all of them, or those before the first address that is not open. -/
structure Stops (m : Mem) (pde va len t : Nat) (done : Prop) : Prop where
  le : t ≤ len
  opened : ∀ i, i < t → UserPage m pde (va + i)
  stop : done ∧ t = len ∨ ¬done ∧ t < len ∧ ¬UserPage m pde (va + t)

theorem Stops.done_iff (h : Stops m pde va len t done) : done ↔ ∀ i, i < len → UserPage m pde (va + i) := by
  rcases h.stop with ⟨hd, rfl⟩ | ⟨hd, hlt, hclosed⟩
  · exact iff_of_true hd h.opened
  · exact iff_of_false hd fun hall => hclosed (hall t hlt)

theorem Stops.all (h : Stops m pde va len t done) (hd : done) : t = len := by
  rcases h.stop with h | h
  · exact h.2
  · exact absurd hd h.1

theorem Stops.congr (hsame : ∀ x ∈ tables m 3 pde, m'.ram x = m.ram x)
    (h : Stops m' pde va len t done) : Stops m pde va len t done := by
  refine ⟨h.le, fun i hi => (userPage_congr hsame).mp (h.opened i hi), ?_⟩
  rw [← userPage_congr hsame]
  exact h.stop

theorem turn_facts (va : Nat) (hlt : va < maxVa) : pgRoundDown va / pgSize = va / pgSize ∧
    va - pgRoundDown va = va % pgSize ∧ va % pgSize < pgSize ∧
    u64 (pgRoundDown va + pgSize) = va + (pgSize - va % pgSize) := by
  unfold pgRoundDown u64
  unfold maxVa at hlt
  unfold pgSize
  omega

theorem transl_roundDown (m : Mem) (pde va : Nat) : transl m pde (pgRoundDown va) = transl m pde va := by
  apply transl_of_page
  unfold pgRoundDown pgSize
  omega

theorem Stops.turn (hopen : UserPage m pde va)
    (hn : n = min (pgSize - va % pgSize) len) (h : Stops m pde (va + n) (len - n) t done) :
    Stops m pde va len (n + t) done := by
  have hpage : ∀ i, i < n → (va + i) / pgSize = va / pgSize := by
    intro i hi
    unfold pgSize at *
    omega
  refine ⟨?_, fun i hi => ?_, ?_⟩
  · have := h.le
    omega
  · by_cases hlt : i < n
    · exact hopen.of_page (hpage i hlt)
    · have := h.opened (i - n) (by omega)
      rwa [Nat.add_assoc, Nat.add_sub_cancel' (not_lt.mp hlt)] at this
  · rcases h.stop with ⟨hd, ht⟩ | ⟨hd, ht, hclosed⟩
    · exact .inl ⟨hd, by omega⟩
    · exact .inr ⟨hd, by omega, by rwa [Nat.add_assoc] at hclosed⟩

theorem Stops.closed (hpos : len ≠ 0) (hclosed : ¬UserPage m pde va) (hd : ¬done) :
    Stops m pde va len 0 done :=
  ⟨Nat.zero_le _, fun i hi => absurd hi (Nat.not_lt_zero i), .inr ⟨hd, by omega, hclosed⟩⟩

theorem Stops.zero (hd : done) : Stops m pde va 0 0 done :=
  ⟨le_rfl, fun i hi => absurd hi (Nat.not_lt_zero i), .inl ⟨hd, rfl⟩⟩

/-! ### copyout -/

/-- The outcome of `copyout`. -/
def CopiedOut (m m' : Mem) (pde va : Nat) (src : List UInt8) (r : Int) : Prop :=
  ∃ t, Stops m pde va src.length t (r = 0) ∧ (r = 0 ∨ r = -1) ∧ Stored m m' pde va (src.take t)

/-- `copyout` with its return value and the page numbers of the addresses it has stored to. -/
def copyoutStores (pde : Nat) : Nat → Nat → List UInt8 → VmM (Int × List Nat)
  | 0, _, _ => return (0, [])
  | k + 1, dstva, src =>
    if src = [] then return (0, [])
    else do
      let va0 := pgRoundDown dstva
      let pa0 ← walkaddr pde va0
      if pa0 = 0 then return (-1, [])
      else
        let n := min (pgSize - (dstva - va0)) src.length
        modify fun m => m.setPage pa0 ((m.ram pa0).put (dstva - va0) (src.take n))
        let rest ← copyoutStores pde k (u64 (va0 + pgSize)) (src.drop n)
        return (rest.1, va0 / pgSize :: rest.2)

theorem copyoutLoop_eq (k va : Nat) (src : List UInt8) :
    copyoutLoop pde k va src = Prod.fst <$> copyoutStores pde k va src := by
  induction k generalizing va src with
  | zero => rfl
  | succ k ih =>
    unfold copyoutLoop copyoutStores
    split
    · rfl
    · dsimp only
      rw [map_bind]
      refine bind_congr fun pa0 => ?_
      split
      · rfl
      · simp only [ih, map_bind, map_pure]
        refine bind_congr fun _ => ?_
        rw [← bind_pure_comp]

theorem copyoutStores_nil (k va : Nat) : copyoutStores pde k va [] = pure (0, []) := by
  cases k with
  | zero => rfl
  | succ k =>
    unfold copyoutStores
    exact if_pos rfl

/-- A copy of the first `t` bytes of `src`: the pages it has stored to, and the memory after it. -/
structure Wrote (m m' : Mem) (pde va : Nat) (src : List UInt8) (p : Int × List Nat) (t : Nat) : Prop where
  stops : Stops m pde va src.length t (p.1 = 0)
  ret : p.1 = 0 ∨ p.1 = -1
  pages : ∀ n, n ∈ p.2 ↔ ∃ i, i < t ∧ (va + i) / pgSize = n
  stored : UserTable m pde → Stored m m' pde va (src.take t)

theorem Wrote.none {r : Int} (hr : r = 0 ∨ r = -1) (h : Stops m pde va src.length 0 (r = 0)) :
    Wrote m m pde va src (r, []) 0 :=
  ⟨h, hr, fun n => by simp, fun _ => Stored.nil m pde va⟩

theorem Wrote.nil (m : Mem) (va : Nat) : Wrote m m pde va [] (0, []) 0 := Wrote.none (.inl rfl) (Stops.zero rfl)

/-- A turn that stores `n` bytes to the page of an open address, and what the rest does. -/
theorem Wrote.turn {p : Int × List Nat} (hopen : UserPage m pde va)
    (hn : n = min (pgSize - va % pgSize) src.length) (hpos : n ≠ 0)
    (hsame : ∀ x ∈ tables m 3 pde, m'.ram x = m.ram x) (hchunk : Stored m m' pde va (src.take n))
    (h : Wrote m' m'' pde (va + n) (src.drop n) p t) :
    Wrote m m'' pde va src (p.1, va / pgSize :: p.2) (n + t) := by
  have htake : (src.take n).length = n := by rw [length_take]; omega
  have hstop := h.stops.congr hsame
  rw [length_drop] at hstop
  have hstop₀ := Stops.turn hopen hn hstop
  refine ⟨hstop₀, h.ret, fun x => ?_, fun ht => ?_⟩
  · rw [List.mem_cons, h.pages]
    constructor
    · rintro (rfl | ⟨i, hi, rfl⟩)
      · exact ⟨0, by omega, rfl⟩
      · exact ⟨n + i, by omega, by rw [Nat.add_assoc]⟩
    · rintro ⟨i, hi, rfl⟩
      by_cases hin : i < n
      · left
        unfold pgSize at *
        omega
      · exact .inr ⟨i - n, by omega, by rw [Nat.add_assoc, Nat.add_sub_cancel' (not_lt.mp hin)]⟩
  · rw [take_add]
    refine hchunk.trans (by rw [htake]; exact h.stored (ht.congr hsame)) ht fun i hi => hstop₀.opened i ?_
    rw [length_append, htake, length_take, length_drop] at hi
    omega

theorem copyoutStores_exact (k : Nat) : ∀ (va : Nat) (src : List UInt8) (m : Mem), src.length ≤ k → Apart m pde →
    Sat (copyoutStores pde k va src) m (fun p m' => ∃ t, Wrote m m' pde va src p t) fun _ => False := by
  induction k with
  | zero =>
    intro va src m hlen _
    obtain rfl := eq_nil_of_length_eq_zero (Nat.le_zero.mp hlen)
    exact ⟨0, Wrote.nil m va⟩
  | succ k ih =>
    intro va src m hlen ha
    unfold copyoutStores
    rw [sat_ite]
    refine ⟨fun h => h ▸ ⟨0, Wrote.nil m va⟩, fun hne => ?_⟩
    have hpos : src.length ≠ 0 := fun h => hne (eq_nil_of_length_eq_zero h)
    rw [sat_bind, sat_walkaddr, transl_roundDown, sat_ite]
    refine ⟨fun h0 => ?_, fun h0 => ?_⟩
    · have hclosed : ¬UserPage m pde va := fun hu => transl_ne_zero.mpr hu h0
      exact ⟨0, Wrote.none (.inr rfl) (Stops.closed hpos hclosed (by decide))⟩
    · have hopen := transl_ne_zero.mp h0
      obtain ⟨hpage, hoff, hlt, hnext⟩ := turn_facts va hopen.lt
      rw [hoff, hnext, sat_bind, sat_modify, sat_bind]
      generalize hn : min (pgSize - va % pgSize) src.length = n
      have hchunk : Stored m _ pde va (src.take n) := stored_chunk (by rw [length_take]; omega)
      have hsame : ∀ x ∈ tables m 3 pde, (m.setPage (transl m pde va)
          ((m.ram (transl m pde va)).put (va % pgSize) (src.take n))).ram x = m.ram x := fun x hx =>
        ram_setPage_of_ne fun h => ha va hopen (h ▸ hx)
      generalize m.setPage (transl m pde va) _ = m₁ at hchunk hsame ⊢
      -- the next address is that of the next byte, if there is one
      have hrest : Sat (copyoutStores pde k (va + (pgSize - va % pgSize)) (src.drop n)) m₁
          (fun p m' => ∃ t, Wrote m₁ m' pde (va + n) (src.drop n) p t) fun _ => False := by
        by_cases hall : n = src.length
        · rw [hall, drop_length, copyoutStores_nil]
          exact ⟨0, Wrote.nil m₁ _⟩
        · rw [show va + (pgSize - va % pgSize) = va + n by omega]
          exact ih _ _ m₁ (by rw [length_drop]; omega) (ha.congr hsame)
      refine hrest.imp fun p m' ⟨t, h⟩ => ⟨n + t, ?_⟩
      rw [hpage]
      exact h.turn hopen hn.symm (by omega) hsame hchunk

theorem copyout_exact (ht : UserTable m pde) :
    Sat (copyout pde va src) m (fun r m' => CopiedOut m m' pde va src r) fun _ => False := by
  unfold copyout
  rw [copyoutLoop_eq, sat_map]
  exact (copyoutStores_exact src.length va src m le_rfl ht.apart).imp fun p m' ⟨t, h⟩ =>
    ⟨t, h.stops, h.ret, h.stored ht⟩

/-! ### copyin -/

/-- `copyin` with its return value and the bytes it has stored from `dst` on. -/
def copyinDst (pde : Nat) : Nat → Nat → Nat → VmM (Int × List UInt8)
  | 0, _, _ => return (0, [])
  | k + 1, srcva, len =>
    if len = 0 then return (0, [])
    else do
      let va0 := pgRoundDown srcva
      let pa0 ← walkaddr pde va0
      if pa0 = 0 then return (-1, [])
      else
        let n := min (pgSize - (srcva - va0)) len
        let bs := ((← get).ram pa0).bytes (srcva - va0) n
        let rest ← copyinDst pde k (u64 (va0 + pgSize)) (len - n)
        return (rest.1, bs ++ rest.2)

/-- The bytes of a copy that returns 0. -/
def whole (p : Int × List UInt8) : Option (List UInt8) := if p.1 = 0 then some p.2 else none

theorem copyinLoop_eq (k va len : Nat) : copyinLoop pde k va len = whole <$> copyinDst pde k va len := by
  induction k generalizing va len with
  | zero => rfl
  | succ k ih =>
    unfold copyinLoop copyinDst
    split
    · rfl
    · dsimp only
      rw [map_bind]
      refine bind_congr fun pa0 => ?_
      split
      · rfl
      · simp only [ih, map_bind, map_pure, bind_map_left]
        refine bind_congr fun t => bind_congr fun p => ?_
        unfold whole
        split
        · rfl
        · rfl

/-- The `n` bytes behind the addresses from `va` on. -/
def Holds (m : Mem) (pde va : Nat) (bs : List UInt8) : Prop :=
  ∀ i (h : i < bs.length), userByte m pde (va + i) = some bs[i]

theorem Holds.append (h : Holds m pde va bs) (h' : Holds m pde (va + bs.length) bs') :
    Holds m pde va (bs ++ bs') := by
  intro i hi
  rw [length_append] at hi
  by_cases hlt : i < bs.length
  · rw [getElem_append_left hlt]
    exact h i hlt
  · rw [getElem_append_right (not_lt.mp hlt)]
    have hb := h' (i - bs.length) (by omega)
    rwa [Nat.add_assoc, Nat.add_sub_cancel' (not_lt.mp hlt)] at hb

theorem holds_chunk (hopen : UserPage m pde va) (hn : n ≤ pgSize - va % pgSize) :
    Holds m pde va ((m.ram (transl m pde va)).bytes (va % pgSize) n) := by
  intro i hi
  have hi' : i < n := by simpa [ByteStore.bytes] using hi
  have hpos : (va + i) / pgSize = va / pgSize ∧ (va + i) % pgSize = va % pgSize + i := by
    unfold pgSize at *
    omega
  rw [(hopen.of_page hpos.1).byte, transl_of_page hpos.1, hpos.2]
  simp [ByteStore.bytes]

theorem copyinDst_zero (k va : Nat) : copyinDst pde k va 0 = pure (0, []) := by
  cases k with
  | zero => rfl
  | succ k =>
    unfold copyinDst
    exact if_pos rfl

/-- The outcome of `copyin`. -/
structure CopiedIn (m : Mem) (pde va len : Nat) (p : Int × List UInt8) : Prop where
  stops : Stops m pde va len p.2.length (p.1 = 0)
  ret : p.1 = 0 ∨ p.1 = -1
  bytes : Holds m pde va p.2

theorem CopiedIn.nil (m : Mem) (va : Nat) : CopiedIn m pde va 0 (0, []) :=
  ⟨Stops.zero rfl, .inl rfl, fun i hi => absurd hi (Nat.not_lt_zero i)⟩

theorem copyinDst_exact (k : Nat) : ∀ (va len : Nat), len ≤ k →
    Sat (copyinDst pde k va len) m (fun p m' => m' = m ∧ CopiedIn m pde va len p) fun _ => False := by
  induction k with
  | zero =>
    intro va len hlen
    obtain rfl := Nat.le_zero.mp hlen
    exact ⟨rfl, CopiedIn.nil m va⟩
  | succ k ih =>
    intro va len hlen
    unfold copyinDst
    rw [sat_ite]
    refine ⟨fun h => ⟨rfl, h ▸ CopiedIn.nil m va⟩, fun hpos => ?_⟩
    rw [sat_bind, sat_walkaddr, transl_roundDown, sat_ite]
    refine ⟨fun h0 => ?_, fun h0 => ?_⟩
    · have hclosed : ¬UserPage m pde va := fun hu => transl_ne_zero.mpr hu h0
      exact ⟨rfl, Stops.closed hpos hclosed (by decide), .inr rfl, fun i hi => absurd hi (Nat.not_lt_zero i)⟩
    · have hopen := transl_ne_zero.mp h0
      obtain ⟨-, hoff, hlt, hnext⟩ := turn_facts va hopen.lt
      rw [hoff, hnext, sat_bind, sat_get, sat_bind]
      generalize hn : min (pgSize - va % pgSize) len = n
      have hchunk := holds_chunk (n := n) hopen (by omega)
      have hbytes : ((m.ram (transl m pde va)).bytes (va % pgSize) n).length = n := by simp [ByteStore.bytes]
      generalize (m.ram (transl m pde va)).bytes (va % pgSize) n = bs at hchunk hbytes ⊢
      have hrest : Sat (copyinDst pde k (va + (pgSize - va % pgSize)) (len - n)) m
          (fun p m' => m' = m ∧ CopiedIn m pde (va + n) (len - n) p) fun _ => False := by
        by_cases hall : n = len
        · rw [hall, Nat.sub_self, copyinDst_zero]
          exact ⟨rfl, CopiedIn.nil m _⟩
        · rw [show va + (pgSize - va % pgSize) = va + n by omega]
          exact ih _ _ (by omega)
      refine hrest.imp fun p m' h => ⟨h.1, ?_⟩
      obtain ⟨hstop, hret, hholds⟩ := h.2
      refine ⟨?_, hret, hchunk.append (by rwa [hbytes])⟩
      have hstop' := Stops.turn hopen hn.symm hstop
      rwa [length_append, hbytes]

/-! ### copyinstr -/

/-- `copyinstr` with its return value and the bytes it has stored from `dst` on, the NUL too. -/
def copyinstrDst (pde : Nat) : Nat → Nat → Nat → VmM (Int × List UInt8)
  | 0, _, _ => return (-1, [])
  | k + 1, srcva, max =>
    if max = 0 then return (-1, [])
    else do
      let va0 := pgRoundDown srcva
      let pa0 ← walkaddr pde va0
      if pa0 = 0 then return (-1, [])
      else
        let n := min (pgSize - (srcva - va0)) max
        let bs := ((← get).ram pa0).bytes (srcva - va0) n
        let s := bs.takeWhile (· ≠ 0)
        if s.length < n then return (0, s ++ [0])
        else
          let rest ← copyinstrDst pde k (u64 (va0 + pgSize)) (max - n)
          return (rest.1, s ++ rest.2)

/-- The string of a copy that returns 0. -/
def wholeStr (p : Int × List UInt8) : Option (List UInt8) :=
  if p.1 = 0 then some (p.2.takeWhile (· ≠ 0)) else none

theorem copyinstrLoop_eq (k va max : Nat) :
    copyinstrLoop pde k va max = wholeStr <$> copyinstrDst pde k va max := by
  induction k generalizing va max with
  | zero => rfl
  | succ k ih =>
    unfold copyinstrLoop copyinstrDst
    split
    · rfl
    · dsimp only
      rw [map_bind]
      refine bind_congr fun pa0 => ?_
      split
      · rfl
      · simp only [ih, map_bind]
        refine bind_congr fun t => ?_
        generalize (t.ram pa0).bytes (va - pgRoundDown va) (min (pgSize - (va - pgRoundDown va)) max) = bs
        have hs : ∀ b ∈ bs.takeWhile (· ≠ 0), decide (b ≠ 0) = true := fun b hb => by
          simpa using mem_takeWhile_imp hb
        split
        · rw [map_pure, wholeStr, if_pos rfl, takeWhile_append_of_pos hs]
          simp
        · simp only [map_bind, map_pure, bind_map_left]
          refine bind_congr fun p => ?_
          unfold wholeStr
          split
          · rw [Option.map_some, takeWhile_append_of_pos hs]
          · rfl

/-- The outcome of `copyinstr`. -/
structure CopiedStr (m : Mem) (pde va max : Nat) (p : Int × List UInt8) : Prop where
  le : p.2.length ≤ max
  bytes : Holds m pde va p.2
  ret : (p.1 = 0 ∧ ∃ s, p.2 = s ++ [0] ∧ 0 ∉ s) ∨
    (p.1 = -1 ∧ 0 ∉ p.2 ∧ (p.2.length = max ∨ ¬UserPage m pde (va + p.2.length)))

theorem CopiedStr.stop (h : max = 0 ∨ ¬UserPage m pde va) : CopiedStr m pde va max (-1, []) :=
  ⟨Nat.zero_le _, fun i hi => absurd hi (Nat.not_lt_zero i), .inr ⟨rfl, not_mem_nil, h.imp Eq.symm id⟩⟩

theorem CopiedStr.turn {p : Int × List UInt8} (hbs : Holds m pde va bs)
    (hlen : bs.length = n) (hn : n ≤ max) (h0 : 0 ∉ bs) (h : CopiedStr m pde (va + n) (max - n) p) :
    CopiedStr m pde va max (p.1, bs ++ p.2) := by
  subst hlen
  have hle := h.le
  refine ⟨by rw [length_append]; omega, hbs.append h.bytes, ?_⟩
  rcases h.ret with ⟨hr, s, hs, hs0⟩ | ⟨hr, hp0, hstop⟩
  · exact .inl ⟨hr, bs ++ s, by rw [hs, append_assoc], not_mem_append h0 hs0⟩
  · refine .inr ⟨hr, not_mem_append h0 hp0, ?_⟩
    rw [length_append]
    rcases hstop with h | h
    · exact .inl (by omega)
    · exact .inr (by rwa [← Nat.add_assoc])

theorem Holds.of_append (h : Holds m pde va (bs ++ bs')) : Holds m pde va bs := by
  intro i hi
  have := h i (by rw [length_append]; omega)
  rwa [getElem_append_left hi] at this

theorem copyinstrDst_zero (k va : Nat) : copyinstrDst pde k va 0 = pure (-1, []) := by
  cases k with
  | zero => rfl
  | succ k =>
    unfold copyinstrDst
    exact if_pos rfl

theorem copyinstrDst_exact (k : Nat) : ∀ (va max : Nat), max ≤ k →
    Sat (copyinstrDst pde k va max) m (fun p m' => m' = m ∧ CopiedStr m pde va max p) fun _ => False := by
  induction k with
  | zero =>
    intro va max hmax
    exact ⟨rfl, CopiedStr.stop (.inl (Nat.le_zero.mp hmax))⟩
  | succ k ih =>
    intro va max hmax
    unfold copyinstrDst
    rw [sat_ite]
    refine ⟨fun h => ⟨rfl, CopiedStr.stop (.inl h)⟩, fun hpos => ?_⟩
    rw [sat_bind, sat_walkaddr, transl_roundDown, sat_ite]
    refine ⟨fun h0 => ⟨rfl, CopiedStr.stop (.inr fun hu => transl_ne_zero.mpr hu h0)⟩, fun h0 => ?_⟩
    have hopen := transl_ne_zero.mp h0
    obtain ⟨-, hoff, hlt, hnext⟩ := turn_facts va hopen.lt
    rw [hoff, hnext, sat_bind, sat_get]
    generalize hn : min (pgSize - va % pgSize) max = n
    have hchunk := holds_chunk (n := n) hopen (by omega)
    have hbytes : ((m.ram (transl m pde va)).bytes (va % pgSize) n).length = n := by simp [ByteStore.bytes]
    generalize (m.ram (transl m pde va)).bytes (va % pgSize) n = bs at hchunk hbytes ⊢
    dsimp only
    have hsplit := takeWhile_append_dropWhile (p := (· ≠ (0 : UInt8))) (l := bs)
    have hs0 : (0 : UInt8) ∉ bs.takeWhile (· ≠ 0) := fun hmem => by
      simpa using mem_takeWhile_imp hmem
    have hlen := congrArg List.length hsplit
    rw [length_append, hbytes] at hlen
    rw [sat_ite]
    refine ⟨fun hnul => ⟨rfl, ?_⟩, fun hnul => ?_⟩
    · -- the string ends in this page
      obtain ⟨c, rest, hrest⟩ : ∃ c rest, bs.dropWhile (· ≠ 0) = c :: rest := by
        cases hd : bs.dropWhile (· ≠ 0) with
        | nil =>
          rw [hd, length_nil] at hlen
          omega
        | cons c rest => exact ⟨c, rest, rfl⟩
      have hc : c = 0 := by
        have hhead := List.head?_dropWhile_not (· ≠ (0 : UInt8)) bs
        rw [hrest] at hhead
        simpa using hhead
      subst hc
      rw [hrest, show ((0 : UInt8) :: rest) = [0] ++ rest from rfl, ← append_assoc] at hsplit
      have hholds : Holds m pde va ((bs.takeWhile (· ≠ 0) ++ [0]) ++ rest) := by rwa [hsplit]
      refine ⟨?_, hholds.of_append, .inl ⟨rfl, _, rfl, hs0⟩⟩
      rw [length_append, length_singleton]
      omega
    · have hall : bs.takeWhile (· ≠ 0) = bs := by
        have hd : bs.dropWhile (· ≠ 0) = [] := eq_nil_of_length_eq_zero (by omega)
        rwa [hd, append_nil] at hsplit
      rw [hall] at hs0 ⊢
      rw [sat_bind]
      have hrest : Sat (copyinstrDst pde k (va + (pgSize - va % pgSize)) (max - n)) m
          (fun p m' => m' = m ∧ CopiedStr m pde (va + n) (max - n) p) fun _ => False := by
        by_cases hfull : n = max
        · rw [hfull, Nat.sub_self, copyinstrDst_zero]
          exact ⟨rfl, CopiedStr.stop (.inl rfl)⟩
        · rw [show va + (pgSize - va % pgSize) = va + n by omega]
          exact ih _ _ (by omega)
      refine hrest.imp fun p m' h => ⟨h.1, h.2.turn hchunk hbytes (by omega) hs0⟩

theorem CopiedStr.found_iff {p : Int × List UInt8} (h : CopiedStr m pde va max p) :
    p.1 = 0 ↔ ∃ j, j < max ∧ (∀ i, i ≤ j → UserPage m pde (va + i)) ∧ userByte m pde (va + j) = some 0 := by
  have hopened : ∀ i, i < p.2.length → UserPage m pde (va + i) := fun i hi => by
    have hb := h.bytes i hi
    unfold userByte at hb
    by_contra hu
    rw [if_neg hu] at hb
    cases hb
  rcases h.ret with ⟨hr, s, hs, -⟩ | ⟨hr, h0, hstop⟩
  · have hlen : p.2.length = s.length + 1 := by rw [hs, length_append, length_singleton]
    have hle := h.le
    refine iff_of_true hr ⟨s.length, by omega, fun i hi => hopened i (by omega), ?_⟩
    rw [h.bytes s.length (by omega)]
    simp [hs]
  · refine iff_of_false (by rw [hr]; decide) ?_
    rintro ⟨j, hj, hu, hb⟩
    by_cases hlt : j < p.2.length
    · rw [h.bytes j hlt, Option.some.injEq] at hb
      exact h0 (hb ▸ getElem_mem hlt)
    · rcases hstop with hfull | hclosed
      · omega
      · exact hclosed (hu _ (not_lt.mp hlt))

/-- **User copies are exact.** `copyout` and `copyin` return 0 exactly if every address of the range is open to the
user, and then the bytes of the range are those of the buffer; `copyinstr` returns 0 exactly if there is a NUL among the
first `max` bytes and all bytes up to it are open, and then it has stored the string with its NUL. No call changes a byte
outside its range, and none stores more than it was asked for. -/
theorem user_copies_exact (ht : UserTable m pde) (va : Nat) :
    (∀ src : List UInt8, Sat (copyout pde va src) m (fun r m' =>
        (r = 0 ∨ r = -1) ∧ (r = 0 ↔ ∀ i, i < src.length → UserPage m pde (va + i)) ∧
        (r = 0 → Holds m' pde va src ∧
          Sat (copyinDst pde src.length va src.length) m' (fun p m'' => m'' = m' ∧ p = (0, src)) fun _ => False) ∧
        (∀ p o, (∀ i, i < src.length → UserPage m pde (va + i) →
          ¬(p = transl m pde (va + i) ∧ o = (va + i) % pgSize)) → m'.ram p o = m.ram p o) ∧
        m'.freelist = m.freelist) fun _ => False) ∧
    (∀ len, Sat (copyinDst pde len va len) m (fun p m' =>
        m' = m ∧ (p.1 = 0 ∨ p.1 = -1) ∧ (p.1 = 0 ↔ ∀ i, i < len → UserPage m pde (va + i)) ∧
        (p.1 = 0 → p.2.length = len ∧ Holds m pde va p.2) ∧ p.2.length ≤ len) fun _ => False) ∧
    ∀ max, Sat (copyinstrDst pde max va max) m (fun p m' =>
        m' = m ∧ (p.1 = 0 ∨ p.1 = -1) ∧
        (p.1 = 0 ↔ ∃ j, j < max ∧ (∀ i, i ≤ j → UserPage m pde (va + i)) ∧ userByte m pde (va + j) = some 0) ∧
        (p.1 = 0 → ∃ s, p.2 = s ++ [0] ∧ 0 ∉ s ∧ Holds m pde va p.2) ∧ p.2.length ≤ max) fun _ => False := by
  refine ⟨fun src => ?_, fun len => ?_, fun max => ?_⟩
  · refine (copyout_exact ht).imp fun r m' h => ?_
    obtain ⟨t, hstop, hr, hst⟩ := h
    have hle := hstop.le
    have htake : (src.take t).length = t := by rw [length_take]; omega
    have hopened : ∀ i, i < (src.take t).length → UserPage m pde (va + i) := fun i hi =>
      hstop.opened i (by omega)
    refine ⟨hr, hstop.done_iff, fun h0 => ?_, fun p o hout => ?_, hst.free⟩
    · rw [hstop.all h0, take_length] at hst hopened
      have hsame := hst.same ht hopened
      have hholds : Holds m' pde va src := fun i hi => hst.userByte ht hopened hi
      refine ⟨hholds, (copyinDst_exact src.length va src.length le_rfl).imp fun p m'' h => ⟨h.1, ?_⟩⟩
      have hdone : p.1 = 0 := h.2.stops.done_iff.mpr fun i hi => (userPage_congr hsame).mpr (hopened i hi)
      have hlen : p.2.length = src.length := h.2.stops.all hdone
      refine Prod.ext hdone (ext_getElem hlen fun i h1 h2 => ?_)
      exact Option.some.inj ((h.2.bytes i h1).symm.trans (hholds i h2))
    · exact hst.frame p o fun i hi => hout i (by omega) (hopened i hi)
  · refine (copyinDst_exact len va len le_rfl).imp fun p m' h => ⟨h.1, h.2.ret, h.2.stops.done_iff, fun h0 => ?_,
      h.2.stops.le⟩
    exact ⟨h.2.stops.all h0, h.2.bytes⟩
  · refine (copyinstrDst_exact max va max le_rfl).imp fun p m' h => ⟨h.1, ?_, h.2.found_iff, fun h0 => ?_, h.2.le⟩
    · rcases h.2.ret with h | h
      · exact .inl h.1
      · exact .inr h.1
    · rcases h.2.ret with ⟨-, s, hs, hs0⟩ | ⟨hr, -⟩
      · exact ⟨s, hs, hs0, h.2.bytes⟩
      · rw [hr] at h0
        cases h0

/-! ### Read-only pages -/

/-- The leaf entry lets the user write. -/
def Writable (e : Nat) : Prop := e &&& mmTypeMask = mmTypePage ∧ e &&& apUser ≠ 0 ∧ e &&& apRo = 0

/-- The address is mapped for the user, and not for writing. -/
def ReadOnly (m : Mem) (pde va : Nat) : Prop := UserPage m pde va ∧ entry m 3 pde (va / pgSize) &&& apRo ≠ 0

/-- What the kernel should do with read-only pages in a copy to the user: store to pages only that the user may
write, and fail on a range that has a read-only page without storing to it. -/
def Honours (m : Mem) (pde va len : Nat) (p : Int × List Nat) : Prop :=
  (∀ n ∈ p.2, Writable (entry m 3 pde n)) ∧
  ∀ i, i < len → ReadOnly m pde (va + i) → p.1 = -1 ∧ (va + i) / pgSize ∉ p.2

/-- The copy gets to a read-only page: all addresses before it are open. -/
def Reaches (m : Mem) (pde va len : Nat) : Prop :=
  ∃ i, i < len ∧ (∀ j, j < i → UserPage m pde (va + j)) ∧ ReadOnly m pde (va + i)

/-- `copyout` honours read-only pages exactly where it gets to none: it looks at `AP_USER` alone. -/
theorem copyout_honours_iff (ha : Apart m pde) (va : Nat) (src : List UInt8) :
    Sat (copyoutStores pde src.length va src) m (fun p _ => Honours m pde va src.length p) (fun _ => False) ↔
      ¬Reaches m pde va src.length := by
  obtain ⟨p, m', hp, t, hstop, hret, hmem, -⟩ := (copyoutStores_exact src.length va src m le_rfl ha).ok
  rw [sat_of_eq hp]
  constructor
  · rintro ⟨hw, -⟩ ⟨i, hi, hopened, hro⟩
    have hit : i < t := by
      rcases hstop.stop with ⟨-, rfl⟩ | ⟨-, -, hclosed⟩
      · exact hi
      · by_contra hge
        rcases Nat.lt_or_eq_of_le (not_lt.mp hge) with hlt | rfl
        · exact hclosed (hopened t hlt)
        · exact hclosed hro.1
    exact hro.2 (hw _ ((hmem _).mpr ⟨i, hit, rfl⟩)).2.2
  · intro hnot
    -- no byte that is done is read-only
    have hdone : ∀ i, i < t → ¬ReadOnly m pde (va + i) := fun i hi hro =>
      hnot ⟨i, lt_of_lt_of_le hi hstop.le, fun j hj => hstop.opened j (by omega), hro⟩
    refine ⟨fun n hn => ?_, fun i hi hro => ?_⟩
    · obtain ⟨i, hi, rfl⟩ := (hmem n).mp hn
      have hu := hstop.opened i hi
      exact ⟨hu.page, hu.user, not_not.mp fun h => hdone i hi ⟨hu, h⟩⟩
    · have hge : ¬i < t := fun h => hdone i h hro
      refine ⟨hret.resolve_left fun h0 => hge (hstop.all h0 ▸ hi), fun hn => ?_⟩
      · obtain ⟨j, hj, hpage⟩ := (hmem _).mp hn
        refine hdone j hj ⟨hstop.opened j hj, ?_⟩
        rw [hpage]
        exact hro.2

/-! ### A table with one page -/

/-- A memory of five free pages. -/
def fivePages : Mem :=
  ⟨fun _ _ => 0, (List.range 5).map fun j => kernBase + phyBase + j * pgSize, kernBase + phyBase⟩

theorem pool_fivePages : Pool fivePages 0 := by
  refine ⟨?_, fun x hx => ?_, by decide, by decide⟩
  · rw [zero_add, Multiset.coe_nodup]
    decide
  · rw [zero_add, Multiset.mem_coe] at hx
    obtain ⟨j, hj, rfl⟩ := List.mem_map.mp hx
    rw [List.mem_range] at hj
    constructor
    · interval_cases j <;> decide
    · omega
    · interval_cases j <;> decide

theorem one_page {fl : Nat} (hfl : IsFlags fl) : ∃ m pde e, Space m pde [e] ∧
    Pool m (pages [e] + tables m 3 pde) ∧ Fresh fl [e] := by
  obtain ⟨r, m₁, -, hnone, hsome⟩ := (uvmcreate_spec (m := fivePages) 0).ok
  cases r with
  | none => exact absurd (hnone rfl).1 (by decide)
  | some pde =>
    obtain ⟨hs, ht, htight, hfree, hmv⟩ := hsome pde rfl
    have hp : Pool m₁ (tables m₁ 3 pde + pages []) :=
      (pool_fivePages.of_conserve hmv.conserve hmv.kend).congr (by rw [ht, pages_nil, zero_add, add_zero])
    have hlen : m₁.freelist.length = 4 := by
      have := congrArg List.length hfree
      rw [length_cons] at this
      have h5 : fivePages.freelist.length = 5 := rfl
      omega
    have halloc : Sat (uvmalloc pde 0 pgSize fl) m₁ _ _ :=
      uvmalloc_spec hs hp hfl (by decide) (Nat.zero_le _) (by decide)
    obtain ⟨r, m₂, -, hext⟩ := halloc.ok
    cases hext with
    | full _ _ hout =>
      have := hout htight
      rw [hlen] at this
      exact absurd this (by decide)
    | ok l' hs₂ hfresh _ hcount hmv₂ _ =>
      rw [nil_append] at hs₂ hcount
      obtain ⟨e, rfl⟩ := length_eq_one_iff.mp (hcount.trans (by decide))
      have hp₂ := (hp.congr (add_zero _)).of_conserve hmv₂.conserve hmv₂.kend
      exact ⟨m₂, pde, e, hs₂, hp₂.congr (add_comm _ _), hfresh⟩

theorem one_page_open {fl : Nat} (hfl : IsFlags fl) (hu : fl &&& apUser ≠ 0) : ∃ m pde, UserTable m pde ∧
    ∀ i, i < pgSize → UserPage m pde (0 + i) ∧ entry m 3 pde ((0 + i) / pgSize) &&& apRo = fl &&& apRo := by
  obtain ⟨m, pde, e, hs, hp, hfresh⟩ := one_page hfl
  obtain ⟨a, -, he⟩ := hfresh e List.mem_cons_self
  have hbit : ∀ b, pgAddrMask &&& b = 0 → e &&& b = fl &&& b := fun b hb => by
    rw [he, Nat.and_or_distrib_right, Nat.and_assoc, hb, Nat.and_zero, Nat.zero_or]
  refine ⟨m, pde, hs.userTable hp, fun i hi => ?_⟩
  have hpage : (0 + i) / pgSize = 0 := by rw [Nat.zero_add, Nat.div_eq_of_lt hi]
  have hentry : entry m 3 pde 0 = e := hs.entry 0 (by unfold maxPages; decide)
  refine ⟨hs.userPage (by rw [hpage]; exact Nat.one_pos) ?_, ?_⟩
  · rw [hpage, getD_cons_zero, hbit apUser (by decide)]
    exact hu
  · rw [hpage, hentry, hbit apRo (by decide)]

theorem isFlags_ro : IsFlags user4kPageRo := ⟨by decide, by decide, by decide⟩

/-- A page for reading and writing: two bytes at its start can be written and read back. -/
theorem user_copies_exact_one_page : ∃ m pde, UserTable m pde ∧ UserPage m pde 0 ∧
    Sat (copyout pde 0 [1, 2]) m (fun r m' => r = 0 ∧ Holds m' pde 0 [1, 2]) fun _ => False := by
  obtain ⟨m, pde, ht, hopen⟩ := one_page_open isFlags_rwXn (by decide)
  refine ⟨m, pde, ht, (hopen 0 (by decide)).1, ((user_copies_exact ht 0).1 [1, 2]).imp fun r m' h => ?_⟩
  have h0 : r = 0 := h.2.1.mpr fun i hi => (hopen i (lt_trans hi (by decide))).1
  exact ⟨h0, (h.2.2.1 h0).1⟩

/-- The copy to that page reaches no read-only page, and honours them. -/
theorem copyout_honours_iff_one_page : ∃ m pde, Apart m pde ∧ UserPage m pde 0 ∧
    Sat (copyoutStores pde 2 0 [1, 2]) m (fun p _ => Honours m pde 0 2 p) fun _ => False := by
  obtain ⟨m, pde, ht, hopen⟩ := one_page_open isFlags_rwXn (by decide)
  refine ⟨m, pde, ht.apart, (hopen 0 (by decide)).1, (copyout_honours_iff ht.apart 0 [1, 2]).mpr ?_⟩
  rintro ⟨i, hi, -, hro⟩
  exact hro.2 ((hopen i (lt_trans hi (by decide))).2.trans (by decide))

/-- A page mapped as `exec` maps a segment without the flag for writing: `copyout` returns 0, and the page has
changed. -/
theorem copyout_writes_read_only : ∃ m pde b, UserTable m pde ∧ ReadOnly m pde 0 ∧ userByte m pde 0 ≠ some b ∧
    Sat (copyout pde 0 [b]) m (fun r m' => r = 0 ∧ userByte m' pde 0 = some b) fun _ => False := by
  obtain ⟨m, pde, ht, hopen⟩ := one_page_open isFlags_ro (by decide)
  obtain ⟨hu, hro⟩ := hopen 0 (by decide)
  obtain ⟨b, hb⟩ : ∃ b : UInt8, m.ram (transl m pde 0) (0 % pgSize) ≠ b := by
    by_cases h : m.ram (transl m pde 0) (0 % pgSize) = 0
    · exact ⟨1, by rw [h]; decide⟩
    · exact ⟨0, h⟩
  refine ⟨m, pde, b, ht, ⟨hu, ?_⟩, ?_, (copyout_exact ht).imp fun r m' h => ?_⟩
  · rw [hro]
    decide
  · rw [UserPage.byte hu]
    exact fun h => hb (Option.some.inj h)
  · obtain ⟨t, hstop, -, hst⟩ := h
    have hall : ∀ i, i < [b].length → UserPage m pde (0 + i) := fun i hi =>
      (hopen i (lt_trans hi (show 1 < pgSize by decide))).1
    have h0 : r = 0 := hstop.done_iff.mpr hall
    obtain rfl := hstop.all h0
    exact ⟨h0, hst.userByte (i := 0) ht hall Nat.one_pos⟩

end Xv6Armv8.Vm

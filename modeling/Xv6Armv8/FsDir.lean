import Xv6Armv8.FsNodes

/-! Directories as finite maps. The contents of a directory are a table of entries of 16 bytes; an entry with
inode number 0 is free. A name is a key up to its first `DIRSIZ` bytes. `dirlookup` finds the entry of a key,
`dirlink` puts a new one in the first free place or at the end, and `unlink` clears one. -/

namespace Xv6Armv8.Fs

open Spec Alloc StepRun Records Function List Option

variable {s t u : State} {k dp ip i j n off inum : Nat} {nd : Node} {name name' : Name}

/-! ### Entries on the disk -/

theorem ofBytes_toBytes {de : Dirent} (h : de.inum < 2 ^ 16) : Dirent.ofBytes de.toBytes = de := by
  have hinum : (UInt8.ofNat de.inum).toNat + 256 * (UInt8.ofNat (de.inum / 256)).toNat = de.inum := by
    rw [UInt8.toNat_ofNat', UInt8.toNat_ofNat']
    omega
  show (⟨(UInt8.ofNat de.inum).toNat + 256 * (UInt8.ofNat (de.inum / 256)).toNat, de.name⟩ : Dirent) = de
  rw [hinum]

theorem length_cstr_le (name : Name) : (cstr name).length ≤ dirsiz := by
  unfold cstr
  exact ( takeWhile_prefix _).length_le.trans (length_take_le ..)

theorem length_strncpy (name : Name) : (strncpy name).length = dirsiz := by
  have hle := length_cstr_le name
  unfold strncpy
  rw [length_append, length_replicate]
  omega

theorem cstr_strncpy (name : Name) : cstr (strncpy name) = cstr name := by
  have hlen := length_strncpy name
  have hzero : ∀ b ∈ cstr name, b ≠ 0 := fun b hb => by
    simpa using mem_takeWhile_imp hb
  have htake : (strncpy name).take dirsiz = strncpy name := take_of_length_le hlen.le
  conv_lhs => unfold cstr
  rw [htake]
  unfold strncpy
  rw [takeWhile_append_of_pos fun b hb => by simpa using hzero b hb]
  cases dirsiz - (cstr name).length with
  | zero => exact append_nil _
  | succ r => simp [replicate_succ]

theorem cstr_of_nonzero (h : ∀ b ∈ name, b ≠ 0) : cstr name = name.take dirsiz := by
  unfold cstr
  apply takeWhile_eq_self_iff.mpr
  intro b hb
  simpa using h b (mem_of_mem_take hb)

theorem length_toBytes {de : Dirent} (h : de.name.length = dirsiz) : de.toBytes.length = sizeofDirent := by
  unfold Dirent.toBytes
  rw [length_cons, length_cons, h]
  rfl

/-! ### The table of entries -/

/-- The number of entries. -/
def Node.count (nd : Node) : Nat := nd.contents.length / sizeofDirent

def Node.entry (nd : Node) (j : Nat) : Dirent := Dirent.ofBytes (record sizeofDirent nd.contents j)

/-- An entry that is in use for the name. -/
def Dirent.hasName (name : Name) (de : Dirent) : Bool := decide (de.inum ≠ 0 ∧ namecmp name de.name)

/-- The first entry with a property, if there is one. -/
def Node.find (nd : Node) (q : Dirent → Bool) : Option Nat := (List.range nd.count).find? fun j => q (nd.entry j)

/-- The inode number and the offset that a name has. -/
def Node.lookup (nd : Node) (name : Name) : Option (Nat × Nat) :=
  (nd.find (Dirent.hasName name)).map fun j => ((nd.entry j).inum, sizeofDirent * j)

/-- No two entries in use have the same name. -/
def Node.Distinct (nd : Node) : Prop := ∀ i j, i < nd.count → j < nd.count → (nd.entry i).inum ≠ 0 →
  (nd.entry j).inum ≠ 0 → namecmp (nd.entry i).name (nd.entry j).name → i = j

/-- Nothing but the first two entries is in use. -/
def Node.bare (nd : Node) : Bool := (List.range' 2 (nd.count - 2)).all fun i => decide ((nd.entry i).inum = 0)

theorem find_eq_some {q : Dirent → Bool} : nd.find q = some j ↔
    q (nd.entry j) = true ∧ j < nd.count ∧ ∀ i, i < j → q (nd.entry i) = false := by
  unfold Node.find
  rw [List.find?_range_eq_some, mem_range]
  simp

theorem find_eq_none {q : Dirent → Bool} : nd.find q = none ↔ ∀ j, j < nd.count → q (nd.entry j) = false := by
  unfold Node.find
  rw [List.find?_eq_none]
  simp

theorem bare_iff : nd.bare = true ↔ ∀ j, 2 ≤ j → j < nd.count → (nd.entry j).inum = 0 := by
  unfold Node.bare
  simp only [List.all_eq_true, mem_range', decide_eq_true_eq]
  constructor
  · intro h j h2 hj
    exact h j ⟨j - 2, by omega, by omega⟩
  · rintro h j ⟨i, hi, rfl⟩
    exact h _ (by omega) (by omega)

theorem lookup_eq_none : nd.lookup name = none ↔
    ∀ j, j < nd.count → (nd.entry j).inum ≠ 0 → ¬namecmp name (nd.entry j).name := by
  unfold Node.lookup
  rw [map_eq_none_iff, find_eq_none]
  simp [Dirent.hasName]

theorem lookup_some {v : Nat × Nat} (h : nd.lookup name = some v) : ∃ j, j < nd.count ∧ (nd.entry j).inum ≠ 0 ∧
    namecmp name (nd.entry j).name ∧ v = ((nd.entry j).inum, sizeofDirent * j) := by
  obtain ⟨j, hj, rfl⟩ := map_eq_some_iff.mp h
  obtain ⟨hq, hlt, -⟩ := find_eq_some.mp hj
  obtain ⟨h0, hname⟩ := of_decide_eq_true hq
  exact ⟨j, hlt, h0, hname, rfl⟩

/-- **Where the names are distinct, a lookup finds exactly the entry of the name.** -/
theorem lookup_iff {v : Nat × Nat} (hd : nd.Distinct) : nd.lookup name = some v ↔ ∃ j, j < nd.count ∧
    (nd.entry j).inum ≠ 0 ∧ namecmp name (nd.entry j).name ∧ v = ((nd.entry j).inum, sizeofDirent * j) := by
  refine ⟨lookup_some, fun ⟨j, hlt, h0, hname, hv⟩ => ?_⟩
  cases hl : nd.lookup name with
  | none => exact absurd hname (lookup_eq_none.mp hl j hlt h0)
  | some w =>
    obtain ⟨i, hi, hi0, hname', hw⟩ := lookup_some hl
    have hij : i = j := hd i j hi hlt hi0 h0 (Eq.trans (Eq.symm hname') hname)
    rw [hw, hv, hij]

/-! ### Reading a directory -/

/-- Entry `dp` of the table is in use for the directory `nd`. -/
structure DirAt (s : State) (dp : Nat) (nd : Node) : Prop where
  disk : Disk s.dinode s
  live : Live s dp
  node : s.node (s.itable dp).inum = some nd
  dir : nd.type = tDir
  rows : sizeofDirent ∣ nd.contents.length

section

variable (h : DirAt s dp nd)
include h

theorem DirAt.eq : nd = s.nodeOf (s.itable dp).inum := by
  have hnode := h.disk.node_eq h.live
  rw [h.node] at hnode
  exact some_inj.mp hnode

theorem DirAt.size : (s.itable dp).d.size = nd.contents.length := by
  rw [(h.disk.sync dp h.live.1 h.live.2).1, h.eq]
  exact length_contents.symm

theorem DirAt.type : (s.itable dp).d.type = tDir := by
  rw [(h.disk.sync dp h.live.1 h.live.2).1, ← h.dir, h.eq]
  rfl

theorem DirAt.small : nd.contents.length ≤ maxfile * bsize := by
  obtain ⟨hd, ht⟩ := h.disk.sync dp h.live.1 h.live.2
  rw [← h.size, hd]
  exact h.disk.small _ ht

theorem DirAt.length : sizeofDirent * nd.count = nd.contents.length := Nat.mul_div_cancel' h.rows

theorem DirAt.direntCount : direntCount (s.itable dp).d.size = nd.count := by
  have hlen := h.length
  rw [h.size]
  unfold Fs.direntCount
  unfold sizeofDirent at *
  omega

theorem readDirent_eq {msg : String} (hj : j < nd.count) :
    readDirent dp (sizeofDirent * j) msg s = .ok (nd.entry j, s) := by
  have hlen := h.length
  have hsmall := h.small
  have hle : sizeofDirent * (j + 1) ≤ nd.contents.length := by
    rw [← hlen]
    exact Nat.mul_le_mul_left _ hj
  have hcontents : s.contents (s.itable dp).inum = nd.contents := by
    rw [h.eq]
    rfl
  have hpart : readPart nd.contents (sizeofDirent * j) sizeofDirent = record sizeofDirent nd.contents j := by
    rw [readPart_eq]
    refine if_neg ?_
    unfold u32 maxfile bsize ndirect nindirect sizeofDirent at *
    omega
  have hread : Sat (readDirent dp (sizeofDirent * j) msg) s (fun de t => de = nd.entry j ∧ t = s) fun _ => False := by
    unfold readDirent
    refine (readi_node h.disk h.live fun _ _ => rfl).bind fun r t hr => ?_
    obtain ⟨rfl, hbs, hr⟩ := hr
    rw [hcontents, hpart] at hbs
    dsimp only
    rw [hbs, length_record hle] at hr
    rw [if_pos hr, hbs]
    exact ⟨rfl, rfl⟩
  obtain ⟨de, t, heq, rfl, rfl⟩ := hread.ok
  exact heq

end

section Reading

variable {E : String → Prop}

theorem sat_dirlookupLoop {Q : Option (Nat × Nat) → State → Prop} (h : DirAt s dp nd) : ∀ n j, j + n = nd.count →
    (Sat (dirlookupLoop dp name n (sizeofDirent * j)) s Q E ↔
      match (List.range' j n).find? fun i => (nd.entry i).hasName name with
      | none => Q none s
      | some i => Sat (iget (s.itable dp).dev (nd.entry i).inum) s (fun ip t => Q (some (ip, sizeofDirent * i)) t) E) := by
  intro n
  induction n with
  | zero => exact fun j _ => Iff.rfl
  | succ n ih =>
    intro j hj
    unfold dirlookupLoop
    rw [sat_bind, sat_of_eq (readDirent_eq h (by omega)), List.range'_succ, List.find?_cons]
    by_cases hname : (nd.entry j).inum ≠ 0 ∧ namecmp name (nd.entry j).name
    · have htrue : (nd.entry j).hasName name = true := decide_eq_true hname
      rw [if_pos hname, htrue, sat_bind, sat_get, sat_bind]
      rfl
    · have hfalse : (nd.entry j).hasName name = false := decide_eq_false hname
      rw [if_neg hname, hfalse]
      exact ih (j + 1) (by omega)

/-- **`dirlookup` follows the table of the directory.** -/
theorem sat_dirlookup {Q : Option (Nat × Nat) → State → Prop} (h : DirAt s dp nd) :
    Sat (dirlookup dp name) s Q E ↔ match nd.lookup name with
      | none => Q none s
      | some v => Sat (iget (s.itable dp).dev v.1) s (fun ip t => Q (some (ip, v.2)) t) E := by
  unfold dirlookup
  rw [sat_bind, sat_get]
  dsimp only
  rw [if_neg (not_not.mpr h.type), h.direntCount]
  refine (sat_dirlookupLoop h nd.count 0 (Nat.zero_add _)).trans ?_
  unfold Node.lookup Node.find
  rw [range_eq_range']
  cases (List.range' 0 nd.count).find? fun i => (nd.entry i).hasName name with
  | none => exact Iff.rfl
  | some i => exact Iff.rfl

/-- The entry that `dirlink` uses: the first that is free, or one behind the last. -/
def Node.freeEntry (nd : Node) : Nat := (nd.find fun de => decide (de.inum = 0)).getD nd.count

theorem sat_freeDirentLoop {Q : Nat → State → Prop} (h : DirAt s dp nd) : ∀ n j, j + n = nd.count →
    (Sat (freeDirent dp n (sizeofDirent * j)) s Q E ↔
      Q (sizeofDirent * (((List.range' j n).find? fun i => decide ((nd.entry i).inum = 0)).getD nd.count)) s) := by
  intro n
  induction n with
  | zero =>
    intro j hj
    rw [← hj]
    exact Iff.rfl
  | succ n ih =>
    intro j hj
    unfold freeDirent
    rw [sat_bind, sat_of_eq (readDirent_eq h (by omega)), List.range'_succ, List.find?_cons]
    by_cases h0 : (nd.entry j).inum = 0
    · rw [if_pos h0, decide_eq_true h0]
      exact Iff.rfl
    · rw [if_neg h0, decide_eq_false h0]
      exact ih (j + 1) (by omega)

theorem sat_freeDirent {Q : Nat → State → Prop} (h : DirAt s dp nd) :
    Sat (freeDirent dp (direntCount (s.itable dp).d.size) 0) s Q E ↔ Q (sizeofDirent * nd.freeEntry) s := by
  rw [h.direntCount]
  refine (sat_freeDirentLoop h nd.count 0 (Nat.zero_add _)).trans ?_
  unfold Node.freeEntry Node.find
  rw [range_eq_range']

theorem sat_isdiremptyLoop {Q : Bool → State → Prop} (h : DirAt s dp nd) : ∀ n j, j + n = max j nd.count →
    (Sat (isdiremptyLoop dp n (sizeofDirent * j)) s Q E ↔
      Q ((List.range' j n).all fun i => decide ((nd.entry i).inum = 0)) s) := by
  intro n
  induction n with
  | zero => exact fun j _ => Iff.rfl
  | succ n ih =>
    intro j hj
    unfold isdiremptyLoop
    rw [sat_bind, sat_of_eq (readDirent_eq h (by omega)), List.range'_succ, all_cons]
    by_cases h0 : (nd.entry j).inum = 0
    · rw [if_neg (not_not.mpr h0), decide_eq_true h0, Bool.true_and]
      exact ih (j + 1) (by omega)
    · rw [if_pos h0, decide_eq_false h0, Bool.false_and]
      exact Iff.rfl

/-- **`isdirempty` says whether an entry besides the first two is in use.** -/
theorem sat_isdirempty {Q : Bool → State → Prop} (h : DirAt s dp nd) :
    Sat (isdirempty dp) s Q E ↔ Q nd.bare s := by
  unfold isdirempty
  rw [sat_bind, sat_get, h.direntCount, Nat.mul_comm]
  exact sat_isdiremptyLoop h (nd.count - 2) 2 (by omega)

end Reading

/-! ### Writing an entry -/

variable {de : Dirent}

/-- The directory with another entry in the place `j`. -/
def Node.setEntry (nd : Node) (j : Nat) (de : Dirent) : Node := nd.write (sizeofDirent * j) de.toBytes

theorem entry_setEntry (hj : sizeofDirent * j ≤ nd.contents.length) (hname : de.name.length = dirsiz)
    (hinum : de.inum < 2 ^ 16) : (nd.setEntry j de).entry i = if i = j then de else nd.entry i := by
  unfold Node.entry Node.setEntry Node.write
  dsimp only
  rw [record_splice hj (length_toBytes hname)]
  split
  · exact ofBytes_toBytes hinum
  · rfl

theorem length_setEntry (hj : sizeofDirent * j ≤ nd.contents.length) (hname : de.name.length = dirsiz) :
    (nd.setEntry j de).contents.length = max nd.contents.length (sizeofDirent * (j + 1)) := by
  unfold Node.setEntry Node.write
  dsimp only
  rw [length_splice hj, length_toBytes hname, Nat.mul_succ]

theorem count_setEntry (hrows : sizeofDirent ∣ nd.contents.length) (hj : j ≤ nd.count)
    (hname : de.name.length = dirsiz) : (nd.setEntry j de).count = max nd.count (j + 1) := by
  obtain ⟨m, hm⟩ := hrows
  unfold Node.count at *
  rw [length_setEntry (by unfold sizeofDirent at *; omega) hname]
  unfold sizeofDirent at *
  omega

theorem rows_setEntry (hrows : sizeofDirent ∣ nd.contents.length) (hj : j ≤ nd.count)
    (hname : de.name.length = dirsiz) : sizeofDirent ∣ (nd.setEntry j de).contents.length := by
  have hle : sizeofDirent * j ≤ nd.contents.length := (Nat.mul_le_mul_left _ hj).trans (Nat.mul_div_le ..)
  rw [length_setEntry hle hname]
  rcases max_choice nd.contents.length (sizeofDirent * (j + 1)) with heq | heq
  · rwa [heq]
  · rw [heq]
    exact Nat.dvd_mul_right ..

/-- The entry `j` of the directory has been written. -/
structure Entered (dp j : Nat) (de : Dirent) (nd : Node) (s t : State) : Prop where
  frame : Frame s t
  disk : Disk t.dinode t
  node : t.node = update s.node (s.itable dp).inum (some (nd.setEntry j de))

/-- The directory could not grow by an entry. -/
structure Blocked (dp : Nat) (nd : Node) (s t : State) : Prop where
  frame : Frame s t
  disk : Disk t.dinode t
  node : t.node = s.node
  why : maxfile * bsize < nd.contents.length + sizeofDirent ∨
    (t.diskFull = true ∧ t.blockOf (s.itable dp).inum (nd.contents.length / bsize) = 0)

/-- **An entry is written, or the directory cannot grow and stays as it was.** -/
theorem writeDirent_spec (h : DirAt s dp nd) (hj : j ≤ nd.count) (hname : de.name.length = dirsiz) :
    Sat (writeDirent dp (sizeofDirent * j) de) s (fun r t => (r = sizeofDirent ∧ Entered dp j de nd s t ∧
        ¬(maxfile * bsize < sizeofDirent * j + sizeofDirent) ∧
        t.blockOf (s.itable dp).inum (sizeofDirent * j / bsize) ≠ 0) ∨
      (r ≠ sizeofDirent ∧ j = nd.count ∧ Blocked dp nd s t)) LogErr := by
  have hlen := length_toBytes hname
  have hrows := h.length
  have hsmall := h.small
  have hle : sizeofDirent * j ≤ nd.contents.length := by
    rw [← hrows]
    exact Nat.mul_le_mul_left _ hj
  have hlast : nd.contents.length < sizeofDirent * j + sizeofDirent → j = nd.count := by
    unfold sizeofDirent at *
    omega
  obtain ⟨hd, ht⟩ := h.disk.sync dp h.live.1 h.live.2
  unfold writeDirent
  refine (writei_node h.disk h.live fun i hi => ?_).imp fun r t hw => ?_
  · rw [List.getElem?_eq_getElem (by omega)]
    exact some_ne_none _
  rcases hw with ⟨rfl, rfl, hrej⟩ | ⟨hacc, m, rfl, hsp⟩
  · -- the arguments are turned down only at the largest size
    have hmax : maxfile * bsize < sizeofDirent * j + sizeofDirent := by
      by_contra hmax
      refine hrej ⟨by rwa [h.size], ?_, not_lt.mp hmax⟩
      unfold u32 maxfile bsize ndirect nindirect sizeofDirent at *
      omega
    have hend := hlast (by omega)
    refine .inr ⟨by decide, hend, refl_of Frame t, h.disk, rfl, .inl ?_⟩
    rwa [← hrows, ← hend]
  · have hw := hsp.written
    rcases Nat.lt_or_ge m sizeofDirent with hlt | hge
    · have hm0 : m = 0 := by
        rcases hsp.whole hlt with h0 | hmod
        · exact h0
        · unfold bsize sizeofDirent at *
          omega
      subst hm0
      obtain ⟨hfull, hmiss⟩ := hsp.full hlt
      have hend : j = nd.count := by
        apply hlast
        by_contra hin
        have hlt' : sizeofDirent * j < (s.dinode (s.itable dp).inum).size := by
          rw [← hd, h.size]
          unfold sizeofDirent at *
          omega
        have hheld := h.disk.held ht hlt'
        rw [Nat.add_zero, hw.held _ hheld] at hmiss
        exact hheld hmiss
      have hnode : t.node = s.node := by
        rw [hsp.node, show taken (fun i => de.toBytes[i]?) 0 = [] from rfl]
        unfold Node.write
        rw [splice_nil, ← h.eq, ← h.node, update_eq_self]
      refine .inr ⟨by decide, hend, hw.frame, hw.disk, hnode, .inr ⟨diskFull_iff.mpr hfull, ?_⟩⟩
      rw [← hrows, ← hend]
      exact hmiss
    · have hm : m = sizeofDirent := le_antisymm hw.le hge
      subst hm
      have htaken : taken (fun i => de.toBytes[i]?) sizeofDirent = de.toBytes := by
        apply ext_getElem?
        intro x
        by_cases hx : x < sizeofDirent
        · rw [getElem?_taken hx, List.getElem?_eq_getElem (by omega)]
          rfl
        · rw [List.getElem?_eq_none (by rw [length_taken]; omega), List.getElem?_eq_none (by omega)]
      refine .inl ⟨rfl, ⟨hw.frame, hw.disk, ?_⟩, not_lt.mpr hacc.2.2, ?_⟩
      · rw [hsp.node, htaken, ← h.eq]
        rfl
      · have hti : (t.dinode (s.itable dp).inum).type ≠ 0 := by
          obtain ⟨a, ha⟩ := hw.fields
          rw [ha]
          exact ht
        refine hw.disk.held hti ?_
        rw [hsp.size]
        unfold sizeofDirent
        omega

/-! ### The map of a directory -/

/-- `M` with another value for the name. -/
def setName (M : Name → Option (Nat × Nat)) (name : Name) (v : Option (Nat × Nat)) : Name → Option (Nat × Nat) :=
  fun name' => if namecmp name' name then v else M name'

theorem freeEntry_unused (nd : Node) : nd.freeEntry ≤ nd.count ∧ (nd.freeEntry < nd.count → (nd.entry nd.freeEntry).inum = 0) := by
  unfold Node.freeEntry
  cases hf : nd.find fun de => decide (de.inum = 0) with
  | none => exact ⟨le_rfl, fun h => absurd h (Nat.lt_irrefl _)⟩
  | some j =>
    obtain ⟨h0, hlt, -⟩ := find_eq_some.mp hf
    exact ⟨hlt.le, fun _ => of_decide_eq_true h0⟩

theorem entry_set (hj : j ≤ nd.count) (hname : de.name.length = dirsiz) (hinum : de.inum < 2 ^ 16) :
    (nd.setEntry j de).entry i = if i = j then de else nd.entry i :=
  entry_setEntry ((Nat.mul_le_mul_left _ hj).trans (Nat.mul_div_le ..)) hname hinum

section Map

variable (hrows : sizeofDirent ∣ nd.contents.length) (hd : nd.Distinct)

include hrows hd

theorem lookup_add (hnone : nd.lookup name = none) (h0 : inum ≠ 0) (hlt : inum < 2 ^ 16) :
    (nd.setEntry nd.freeEntry ⟨inum, strncpy name⟩).Distinct ∧
      (nd.setEntry nd.freeEntry ⟨inum, strncpy name⟩).lookup =
        setName nd.lookup name (some (inum, sizeofDirent * nd.freeEntry)) := by
  obtain ⟨hle, hfree⟩ := freeEntry_unused nd
  generalize nd.freeEntry = j at *
  have hlen := length_strncpy name
  have hcount : (nd.setEntry j ⟨inum, strncpy name⟩).count = max nd.count (j + 1) := count_setEntry hrows hle hlen
  have hentry : ∀ i, (nd.setEntry j ⟨inum, strncpy name⟩).entry i =
      if i = j then ⟨inum, strncpy name⟩ else nd.entry i := fun i => entry_set hle hlen hlt
  have hnew : ∀ i, i < nd.count → (nd.entry i).inum ≠ 0 → ¬namecmp name (nd.entry i).name := lookup_eq_none.mp hnone
  have hkey : ∀ bs, namecmp bs (strncpy name) ↔ namecmp bs name := fun bs => by
    unfold namecmp
    rw [cstr_strncpy]
  -- an entry in use of the new table is the new one or one of the old table
  have hused : ∀ i, i < max nd.count (j + 1) → i ≠ j → i < nd.count := by
    intro i hi hne
    omega
  have hdist : (nd.setEntry j ⟨inum, strncpy name⟩).Distinct := by
    intro x y hx hy hx0 hy0 hxy
    rw [hcount] at hx hy
    rw [hentry] at hx0 hxy
    rw [hentry] at hy0 hxy
    by_cases hxj : x = j
    · by_cases hyj : y = j
      · rw [hxj, hyj]
      · rw [if_pos hxj, if_neg hyj] at hxy
        rw [if_neg hyj] at hy0
        have hxy' : namecmp name (nd.entry y).name := ((hkey _).mp hxy.symm).symm
        exact absurd hxy' (hnew y (hused y hy hyj) hy0)
    · rw [if_neg hxj] at hx0
      by_cases hyj : y = j
      · rw [if_neg hxj, if_pos hyj] at hxy
        have hxy' : namecmp name (nd.entry x).name := ((hkey _).mp hxy).symm
        exact absurd hxy' (hnew x (hused x hx hxj) hx0)
      · rw [if_neg hxj, if_neg hyj] at hxy
        rw [if_neg hyj] at hy0
        exact hd x y (hused x hx hxj) (hused y hy hyj) hx0 hy0 hxy
  refine ⟨hdist, ?_⟩
  funext name'
  apply Option.ext
  intro v
  rw [lookup_iff hdist]
  unfold setName
  by_cases hn : namecmp name' name
  · rw [if_pos hn, some_inj]
    constructor
    · rintro ⟨i, hi, hi0, hname, hv⟩
      rw [hentry] at hi0 hname hv
      rw [hcount] at hi
      by_cases hij : i = j
      · rw [if_pos hij] at hv
        rw [hv, hij]
      · rw [if_neg hij] at hi0 hname
        exact absurd (Eq.trans (Eq.symm hn) hname) (hnew i (hused i hi hij) hi0)
    · rintro rfl
      refine ⟨j, by rw [hcount]; omega, ?_, ?_, ?_⟩
      · rw [hentry, if_pos rfl]
        exact h0
      · rw [hentry, if_pos rfl]
        exact (hkey _).mpr hn
      · rw [hentry, if_pos rfl]
  · rw [if_neg hn, lookup_iff hd]
    constructor
    · rintro ⟨i, hi, hi0, hname, hv⟩
      rw [hentry] at hi0 hname hv
      rw [hcount] at hi
      by_cases hij : i = j
      · rw [if_pos hij] at hname
        exact absurd ((hkey _).mp hname) hn
      · rw [if_neg hij] at hi0 hname hv
        exact ⟨i, hused i hi hij, hi0, hname, hv⟩
    · rintro ⟨i, hi, hi0, hname, hv⟩
      have hij : i ≠ j := by
        rintro rfl
        exact hi0 (hfree hi)
      refine ⟨i, by rw [hcount]; omega, ?_, ?_, ?_⟩
      · rwa [hentry, if_neg hij]
      · rwa [hentry, if_neg hij]
      · rwa [hentry, if_neg hij]

theorem lookup_clear (hj : j < nd.count) (h0 : (nd.entry j).inum ≠ 0) (hname : namecmp name (nd.entry j).name)
    (hde : de.name.length = dirsiz) (hz : de.inum = 0) :
    (nd.setEntry j de).Distinct ∧ (nd.setEntry j de).lookup = setName nd.lookup name none := by
  have hcount : (nd.setEntry j de).count = max nd.count (j + 1) := count_setEntry hrows hj.le hde
  have hmax : max nd.count (j + 1) = nd.count := by omega
  rw [hmax] at hcount
  have hentry : ∀ i, (nd.setEntry j de).entry i = if i = j then de else nd.entry i := fun i =>
    entry_set hj.le hde (by rw [hz]; decide)
  -- an entry in use of the new table is one of the old table, but for the one cleared
  have hused : ∀ i, ((nd.setEntry j de).entry i).inum ≠ 0 → i ≠ j ∧ (nd.setEntry j de).entry i = nd.entry i := by
    intro i hi
    have hij : i ≠ j := by
      rintro rfl
      rw [hentry, if_pos rfl] at hi
      exact hi hz
    exact ⟨hij, by rw [hentry, if_neg hij]⟩
  have hdist : (nd.setEntry j de).Distinct := by
    intro x y hx hy hx0 hy0 hxy
    rw [hcount] at hx hy
    obtain ⟨-, hxe⟩ := hused x hx0
    obtain ⟨-, hye⟩ := hused y hy0
    rw [hxe] at hx0 hxy
    rw [hye] at hy0 hxy
    exact hd x y hx hy hx0 hy0 hxy
  refine ⟨hdist, ?_⟩
  funext name'
  apply Option.ext
  intro v
  rw [lookup_iff hdist]
  unfold setName
  by_cases hn : namecmp name' name
  · rw [if_pos hn]
    refine iff_of_false ?_ (by simp)
    rintro ⟨i, hi, hi0, hname', -⟩
    obtain ⟨hij, heq⟩ := hused i hi0
    rw [hcount] at hi
    rw [heq] at hi0 hname'
    exact hij (hd i j hi hj hi0 h0 (Eq.trans (Eq.symm hname') (Eq.trans hn hname)))
  · rw [if_neg hn, lookup_iff hd]
    constructor
    · rintro ⟨i, hi, hi0, hname', hv⟩
      obtain ⟨-, heq⟩ := hused i hi0
      rw [hcount] at hi
      rw [heq] at hi0 hname' hv
      exact ⟨i, hi, hi0, hname', hv⟩
    · rintro ⟨i, hi, hi0, hname', hv⟩
      have hij : i ≠ j := by
        rintro rfl
        exact hn (Eq.trans hname' (Eq.symm hname))
      have heq : (nd.setEntry j de).entry i = nd.entry i := by rw [hentry, if_neg hij]
      exact ⟨i, by rwa [hcount], by rwa [heq], by rwa [heq], by rwa [heq]⟩

end Map

/-! ### References that are given back -/

/-- Only entries of the table that are not in use have changed. -/
structure OnlyFree (s t : State) : Prop where
  same : { t with itable := s.itable } = s
  ref : ∀ j, (t.itable j).ref = (s.itable j).ref
  used : ∀ j, 0 < (s.itable j).ref → t.itable j = s.itable j

/-- Entry `ip` has been got for the inode `inum`, and giving it back undoes that. -/
structure Borrowed (ip inum : Nat) (s t : State) : Prop where
  inum : (t.itable ip).inum = inum
  pos : 0 < (t.itable ip).ref
  kept : 2 ≤ (t.itable ip).ref ∨ (t.itable ip).valid = false
  back : OnlyFree s (t.unref ip)

theorem iget_borrowed {dev : Nat} :
    Sat (iget dev inum) s (fun ip t => Borrowed ip inum s t) fun e => e = noInodes := by
  unfold iget
  rw [sat_bind, sat_get]
  cases hfind : (List.range ninode).find? fun k =>
      0 < (s.itable k).ref ∧ (s.itable k).dev = dev ∧ (s.itable k).inum = inum with
  | some k =>
    obtain ⟨hpos, -, hinum⟩ : 0 < (s.itable k).ref ∧ (s.itable k).dev = dev ∧ (s.itable k).inum = inum := by
      simpa using List.find?_some hfind
    show Borrowed k inum s (s.inode k fun ip => { ip with ref := ip.ref + 1 })
    have hback : (s.inode k fun ip => { ip with ref := ip.ref + 1 }).unref k = s := by
      unfold State.unref
      rw [inode_inode]
      unfold State.inode
      simp
    refine ⟨?_, ?_, .inl ?_, ?_⟩
    · rw [inode_self]
      exact hinum
    · rw [inode_self]
      show 0 < (s.itable k).ref + 1
      omega
    · rw [inode_self]
      show 2 ≤ (s.itable k).ref + 1
      omega
    · rw [hback]
      exact ⟨rfl, fun _ => rfl, fun _ _ => rfl⟩
  | none =>
    dsimp only
    cases hempty : (List.range ninode).find? fun k => (s.itable k).ref = 0 with
    | none => exact rfl
    | some k =>
      have h0 : (s.itable k).ref = 0 := by simpa using List.find?_some hempty
      show Borrowed k inum s (s.recycled k dev inum)
      have hself : (s.recycled k dev inum).itable k =
          { s.itable k with dev := dev, inum := inum, ref := 1, valid := false } := inode_self
      refine ⟨by rw [hself], by rw [hself]; exact Int.one_pos, .inr (by rw [hself]), rfl, fun j => ?_, fun j hj => ?_⟩
      · by_cases hjk : j = k
        · unfold State.unref
          rw [hjk, inode_self, hself, h0]
          rfl
        · unfold State.unref
          rw [inode_of_ne hjk]
          exact congrArg Inode.ref (inode_of_ne hjk)
      · have hjk : j ≠ k := by
          rintro rfl
          omega
        unfold State.unref
        rw [inode_of_ne hjk]
        exact inode_of_ne hjk

/-- A reference that is not the last, or to an inode that was not read, is dropped and nothing else. -/
theorem iput_kept (h : 2 ≤ (s.itable k).ref ∨ (s.itable k).valid = false) : iput k s = .ok ((), s.unref k) := by
  have hlast : ¬((s.itable k).ref = 1 ∧ (s.itable k).valid = true ∧ (s.itable k).d.nlink = 0) := by
    rintro ⟨h1, hv, -⟩
    rcases h with h | h
    · omega
    · rw [h] at hv
      cases hv
  have hput : Sat (iput k) s (fun _ t => t = s.unref k) fun _ => False := by
    unfold iput putLast
    rw [sat_bind, sat_bind, sat_get, if_neg hlast]
    exact rfl
  obtain ⟨_, t, heq, rfl⟩ := hput.ok
  exact heq

theorem OnlyFree.disk (h : OnlyFree s t) (hd : Disk s.dinode s) : Disk t.dinode t := by
  have hsame := h.same
  have hdi : t.dinode = s.dinode := by rw [← hsame]
  refine hd.revise (by rw [← hsame]) (by rw [← hsame]) (by rw [← hsame]) (fun i _ => .inr (by rw [hdi])) fun j hj => ?_
  rw [h.ref j] at hj
  rw [h.used j hj, hdi]
  exact ⟨hj, rfl, rfl, hd.sync j hj⟩

theorem OnlyFree.node (h : OnlyFree s t) : t.node = s.node := by
  have hnode : ({ t with itable := s.itable } : State).node = s.node := by rw [h.same]
  exact hnode

theorem OnlyFree.live (h : OnlyFree s t) (hk : Live s k) : Live t k ∧ t.itable k = s.itable k := by
  have heq := h.used k hk.1
  unfold Live
  rw [heq]
  exact ⟨hk, rfl⟩

theorem OnlyFree.dirAt (h : OnlyFree s t) (hdir : DirAt s dp nd) : DirAt t dp nd := by
  obtain ⟨hlive, heq⟩ := h.live hdir.live
  refine ⟨h.disk hdir.disk, hlive, ?_, hdir.dir, hdir.rows⟩
  rw [h.node, heq]
  exact hdir.node

/-! ### Operations on a directory -/

/-- An error of a full table of inodes or of the log. -/
def TableErr (e : String) : Prop := e = noInodes ∨ LogErr e

/-- `dirlookup` for the inode number, with the reference given back. -/
def lookupName (dp : Nat) (name : Name) : FsM (Option (Nat × Nat)) := do
  match ← dirlookup dp name with
  | none => return none
  | some (ip, off) =>
    let inum := ((← get).itable ip).inum
    iput ip
    return some (inum, off)

/-- An entry without an inode. -/
def noDirent : Dirent := ⟨0, List.replicate dirsiz 0⟩

/-- The part of `sys_unlink` that clears the entry of a name. -/
def removeName (dp : Nat) (name : Name) : FsM Bool := do
  match ← lookupName dp name with
  | none => return false
  | some (_, off) =>
    if (← writeDirent dp off noDirent) ≠ sizeofDirent then throw "unlink: writei" else return true

theorem lookupName_spec (h : DirAt s dp nd) :
    Sat (lookupName dp name) s (fun r t => r = nd.lookup name ∧ OnlyFree s t) TableErr := by
  unfold lookupName
  rw [sat_bind, sat_dirlookup h]
  cases hl : nd.lookup name with
  | none => exact ⟨rfl, rfl, fun _ => rfl, fun _ _ => rfl⟩
  | some v =>
    dsimp only
    refine iget_borrowed.mono (fun ip t ht => ?_) fun _ he => .inl he
    rw [sat_bind, sat_get, sat_bind, sat_of_eq (iput_kept ht.kept), sat_pure, ht.inum]
    exact ⟨rfl, ht.back⟩

/-- What `dirlink` does to a directory. -/
inductive Linked (dp : Nat) (name : Name) (inum : Nat) (nd : Node) (s : State) : Int → State → Prop
  | present (t : State) : nd.lookup name ≠ none → OnlyFree s t → Linked dp name inum nd s (-1) t
  | stuck (t : State) : nd.lookup name = none → nd.freeEntry = nd.count → Blocked dp nd s t → Linked dp name inum nd s (-1) t
  | linked (t : State) : nd.lookup name = none → Entered dp nd.freeEntry ⟨inum, strncpy name⟩ nd s t →
      ¬(maxfile * bsize < sizeofDirent * nd.freeEntry + sizeofDirent) →
      t.blockOf (s.itable dp).inum (sizeofDirent * nd.freeEntry / bsize) ≠ 0 → Linked dp name inum nd s 0 t

/-- **`dirlink` adds an entry for a new name**, unless the directory cannot grow. -/
theorem dirlink_spec (h : DirAt s dp nd) :
    Sat (dirlink dp name inum) s (fun r t => Linked dp name inum nd s r t) TableErr := by
  unfold dirlink
  rw [sat_bind, sat_dirlookup h]
  cases hl : nd.lookup name with
  | some v =>
    dsimp only
    refine iget_borrowed.mono (fun ip t ht => ?_) fun _ he => .inl he
    rw [sat_bind, sat_of_eq (iput_kept ht.kept)]
    exact .present _ (by rw [hl]; exact some_ne_none _) ht.back
  | none =>
    dsimp only
    rw [sat_bind, sat_get, sat_bind, sat_freeDirent h]
    refine ((writeDirent_spec h (freeEntry_unused nd).1 (length_strncpy name)).err fun he => .inr he).bind fun r t ht => ?_
    rw [sat_ite]
    rcases ht with ⟨hr, hent, hmax, hblock⟩ | ⟨hr, hend, hblk⟩
    · exact ⟨fun hne => absurd hr hne, fun _ => .linked _ hl hent hmax hblock⟩
    · exact ⟨fun _ => .stuck _ hl hend hblk, fun heq => absurd hr heq⟩

theorem Entered.dirAt (h : DirAt s dp nd) (hj : j ≤ nd.count) (hname : de.name.length = dirsiz)
    (he : Entered dp j de nd s t) : DirAt t dp (nd.setEntry j de) where
  disk := he.disk
  live := h.live.frame he.frame
  node := by rw [he.node, he.frame.inum, update_self]
  dir := h.dir
  rows := rows_setEntry h.rows hj hname

theorem Blocked.dirAt (h : DirAt s dp nd) (hb : Blocked dp nd s t) : DirAt t dp nd where
  disk := hb.disk
  live := h.live.frame hb.frame
  node := by
    rw [hb.node, hb.frame.inum]
    exact h.node
  dir := h.dir
  rows := h.rows

/-- **The entry of a name is cleared.** -/
theorem removeName_spec (h : DirAt s dp nd) (hd : nd.Distinct) :
    Sat (removeName dp name) s (fun r t => ∃ nd', DirAt t dp nd' ∧ nd'.Distinct ∧
      ((r = false ∧ nd.lookup name = none ∧ nd' = nd) ∨
        (r = true ∧ nd.lookup name ≠ none ∧ nd'.lookup = setName nd.lookup name none))) TableErr := by
  unfold removeName
  refine (lookupName_spec h).bind fun r t ht => ?_
  obtain ⟨rfl, hfree⟩ := ht
  have hdir := hfree.dirAt h
  cases hl : nd.lookup name with
  | none => exact ⟨nd, hdir, hd, .inl ⟨rfl, rfl, rfl⟩⟩
  | some v =>
    obtain ⟨j, hj, h0, hname, rfl⟩ := lookup_some hl
    have hlen : noDirent.name.length = dirsiz := length_replicate
    dsimp only
    refine ((writeDirent_spec hdir hj.le hlen).err fun he => .inr he).bind fun r u hu => ?_
    rcases hu with ⟨hr, hent, -⟩ | ⟨-, hend, -⟩
    · rw [if_neg (not_not.mpr hr)]
      obtain ⟨hd', hl'⟩ := lookup_clear h.rows hd hj h0 hname hlen rfl
      exact ⟨_, hent.dirAt hdir hj.le hlen, hd', .inr ⟨rfl, some_ne_none _, hl'⟩⟩
    · exact absurd hend hj.ne

/-! ### Sequences of operations -/

/-- The map of the directory of an entry of the table. -/
def State.dirMap (s : State) (dp : Nat) : Name → Option (Nat × Nat) :=
  match s.node (s.itable dp).inum with
  | some nd => nd.lookup
  | none => fun _ => none

theorem DirAt.map_eq (h : DirAt s dp nd) : s.dirMap dp = nd.lookup := by
  unfold State.dirMap
  rw [h.node]

/-- An operation on a directory, with what it returned; `stuck` says that the directory was full and has not
got a block for one more entry. -/
inductive DirOp
  | lookup (name : Name) (r : Option (Nat × Nat))
  | link (name : Name) (inum : Nat) (r : Int) (stuck : Bool)
  | remove (name : Name) (found : Bool)

/-- The inode numbers that are linked fit in an entry and are not 0. -/
def DirOp.Fits : DirOp → Prop
  | .link _ inum _ _ => inum ≠ 0 ∧ inum < 2 ^ 16
  | _ => True

instance : (op : DirOp) → Decidable op.Fits
  | .link _ inum _ _ => inferInstanceAs (Decidable (inum ≠ 0 ∧ inum < 2 ^ 16))
  | .lookup _ _ => isTrue trivial
  | .remove _ _ => isTrue trivial

/-- All entries of the directory were in use in `s`, and it is at the largest size or has no block for one more
in `t`, where no block is free. -/
def stuckIn (dp : Nat) (s t : State) : Bool :=
  match s.node (s.itable dp).inum with
  | some nd => decide (nd.freeEntry = nd.count) && (decide (maxfile * bsize < nd.contents.length + sizeofDirent) ||
      (t.diskFull && decide (t.blockOf (s.itable dp).inum (nd.contents.length / bsize) = 0)))
  | none => false

/-- An operation that returns what the event says. -/
def dirStep (dp : Nat) (s : State) : DirOp → Option State
  | .lookup name r =>
    match lookupName dp name s with
    | .ok (r', t) => if r' = r then some t else none
    | .error _ => none
  | .link name inum r stuck =>
    match dirlink dp name inum s with
    | .ok (r', t) => if r' = r ∧ stuckIn dp s t = stuck then some t else none
    | .error _ => none
  | .remove name found =>
    match removeName dp name s with
    | .ok (r, t) => if r = found then some t else none
    | .error _ => none

/-- The operations on a map from names to inode numbers and offsets. -/
inductive MapStep : (Name → Option (Nat × Nat)) → DirOp → (Name → Option (Nat × Nat)) → Prop
  | lookup {M name} : MapStep M (.lookup name (M name)) M
  | present {M name inum stuck} : M name ≠ none → MapStep M (.link name inum (-1) stuck) M
  | stuck {M name inum} : M name = none → MapStep M (.link name inum (-1) true) M
  | link {M name inum} (j : Nat) : M name = none → (∀ name' v, M name' = some v → v.2 ≠ sizeofDirent * j) →
      MapStep M (.link name inum 0 false) (setName M name (some (inum, sizeofDirent * j)))
  | absent {M name} : M name = none → MapStep M (.remove name false) M
  | remove {M name} : M name ≠ none → MapStep M (.remove name true) (setName M name none)

/-- The entry is in use for a directory with distinct names. -/
def Mapping (dp : Nat) (s : State) : Prop := ∃ nd, DirAt s dp nd ∧ nd.Distinct

theorem stuckIn_iff (h : DirAt s dp nd) : stuckIn dp s t = true ↔ nd.freeEntry = nd.count ∧
    (maxfile * bsize < nd.contents.length + sizeofDirent ∨
      (t.diskFull = true ∧ t.blockOf (s.itable dp).inum (nd.contents.length / bsize) = 0)) := by
  unfold stuckIn
  rw [h.node]
  simp

theorem lookup_step {r : Option (Nat × Nat)} (h : Mapping dp s) (hs : dirStep dp s (.lookup name r) = some t) :
    Mapping dp t ∧ MapStep (s.dirMap dp) (.lookup name r) (t.dirMap dp) := by
  obtain ⟨nd, hdir, hd⟩ := h
  cases hw : lookupName dp name s with
  | error e =>
    simp only [dirStep, hw] at hs
    cases hs
  | ok res =>
    simp only [dirStep, hw] at hs
    obtain ⟨hr, hu⟩ := ite_none_right_eq_some.mp hs
    cases hu
    obtain ⟨hres, hfree⟩ := (lookupName_spec hdir).of_ok hw
    have hdir' := hfree.dirAt hdir
    refine ⟨⟨nd, hdir', hd⟩, ?_⟩
    rw [hdir.map_eq, hdir'.map_eq, ← hr, hres]
    exact .lookup

theorem link_step {r : Int} {stuck : Bool} (h : Mapping dp s) (h0 : inum ≠ 0) (hlt : inum < 2 ^ 16)
    (hs : dirStep dp s (.link name inum r stuck) = some t) :
    Mapping dp t ∧ MapStep (s.dirMap dp) (.link name inum r stuck) (t.dirMap dp) := by
  obtain ⟨nd, hdir, hd⟩ := h
  cases hw : dirlink dp name inum s with
  | error e =>
    simp only [dirStep, hw] at hs
    cases hs
  | ok res =>
    simp only [dirStep, hw] at hs
    obtain ⟨⟨hr, hstuck⟩, hu⟩ := ite_none_right_eq_some.mp hs
    cases hu
    have hlink := (dirlink_spec hdir).of_ok hw
    rw [hdir.map_eq, ← hr]
    generalize res.1 = r', res.2 = u at *
    cases hlink with
    | present _ hpres hfree =>
      have hdir' := hfree.dirAt hdir
      rw [hdir'.map_eq]
      exact ⟨⟨nd, hdir', hd⟩, .present hpres⟩
    | stuck _ hnone hend hblk =>
      have hdir' := hblk.dirAt hdir
      have htrue : stuck = true := by
        rw [← hstuck, stuckIn_iff hdir]
        exact ⟨hend, hblk.why⟩
      rw [hdir'.map_eq, htrue]
      exact ⟨⟨nd, hdir', hd⟩, .stuck hnone⟩
    | linked _ hnone hent hmax hblock =>
      obtain ⟨hle, hfree⟩ := freeEntry_unused nd
      have hdir' := hent.dirAt hdir hle (length_strncpy name)
      obtain ⟨hd', hl'⟩ := lookup_add hdir.rows hd hnone h0 hlt
      have hfalse : stuck = false := by
        rw [← hstuck, Bool.eq_false_iff]
        intro htrue
        obtain ⟨hend, hwhy⟩ := (stuckIn_iff hdir).mp htrue
        rw [hend, hdir.length] at hmax hblock
        rcases hwhy with hwhy | ⟨-, hmiss⟩
        · exact hmax hwhy
        · exact hblock hmiss
      rw [hdir'.map_eq, hl', hfalse]
      refine ⟨⟨_, hdir', hd'⟩, .link nd.freeEntry hnone fun name' v hv heq => ?_⟩
      -- the place of the new entry was not in use
      obtain ⟨i, hi, hi0, -, rfl⟩ := lookup_some hv
      have hij : i = nd.freeEntry := Nat.eq_of_mul_eq_mul_left (by decide) heq
      rw [hij] at hi hi0
      exact hi0 (hfree hi)

theorem remove_step {found : Bool} (h : Mapping dp s) (hs : dirStep dp s (.remove name found) = some t) :
    Mapping dp t ∧ MapStep (s.dirMap dp) (.remove name found) (t.dirMap dp) := by
  obtain ⟨nd, hdir, hd⟩ := h
  cases hw : removeName dp name s with
  | error e =>
    simp only [dirStep, hw] at hs
    cases hs
  | ok res =>
    simp only [dirStep, hw] at hs
    obtain ⟨hr, hu⟩ := ite_none_right_eq_some.mp hs
    cases hu
    obtain ⟨nd', hdir', hd', hcase⟩ := (removeName_spec hdir hd).of_ok hw
    refine ⟨⟨nd', hdir', hd'⟩, ?_⟩
    rw [hdir.map_eq, hdir'.map_eq, ← hr]
    rcases hcase with ⟨hres, hnone, rfl⟩ | ⟨hres, hsome, hl⟩
    · rw [hres]
      exact .absent hnone
    · rw [hres, hl]
      exact .remove hsome

/-- **Directories are finite maps**: in every sequence of operations on a directory with distinct names, each
does what a map from names to inode numbers and offsets allows, and the names stay distinct; and
`isdirempty` says whether an entry besides the first two is in use. An operation that does not return has
found the table of inodes full or the log. -/
theorem directories_are_maps {tr : List DirOp} (h : DirAt s dp nd) (hd : nd.Distinct)
    (hrun : Run (dirStep dp) (fun _ op => op.Fits) s tr t) : ∃ nd', DirAt t dp nd' ∧ nd'.Distinct ∧
      Steps MapStep nd.lookup tr nd'.lookup ∧ isdirempty dp t = .ok (nd'.bare, t) ∧
      (nd'.bare = true ↔ ∀ j, 2 ≤ j → j < nd'.count → (nd'.entry j).inum = 0) ∧
      (∀ name e, dirlookup dp name t = .error e → TableErr e) ∧
      (∀ name inum e, dirlink dp name inum t = .error e → TableErr e) ∧
      ∀ name e, removeName dp name t = .error e → TableErr e := by
  obtain ⟨⟨nd', hdir', hd'⟩, hsteps⟩ := hrun.simulates (P := Mapping dp) (R := MapStep)
    (f := fun s => s.dirMap dp) ⟨nd, h, hd⟩ fun a op b ha hop hs => by
      cases op with
      | lookup name r => exact lookup_step ha hs
      | link name inum r stuck => exact link_step ha hop.1 hop.2 hs
      | remove name found => exact remove_step ha hs
  rw [h.map_eq, hdir'.map_eq] at hsteps
  have hempty : Sat (isdirempty dp) t (fun r u => r = nd'.bare ∧ u = t) fun _ => False :=
    (sat_isdirempty hdir').mpr ⟨rfl, rfl⟩
  obtain ⟨r, u, heq, hr, hu⟩ := hempty.ok
  rw [hr, hu] at heq
  refine ⟨nd', hdir', hd', hsteps, heq, bare_iff, fun name e he => ?_, fun name inum e he => ?_, fun name e he => ?_⟩
  · have hsat : Sat (dirlookup dp name) t (fun _ _ => True) TableErr := by
      rw [sat_dirlookup hdir']
      cases nd'.lookup name with
      | none => trivial
      | some v => exact iget_borrowed.mono (fun _ _ _ => trivial) fun _ he => .inl he
    exact hsat.of_error he
  · exact (dirlink_spec hdir').of_error he
  · exact (removeName_spec hdir' hd').of_error he

/-- A name is added behind the last entry, one is removed, and its entry is used for another. -/
def naming : List DirOp :=
  [.link [99] 7 0 false, .lookup [99] (some (7, 64)), .remove [98] true, .link [100] 9 0 false,
    .lookup [100] (some (9, 48))]

/-- The names of a directory are distinct, in a form that can be computed. -/
def Node.distinct (nd : Node) : Bool := decide (∀ i, i < nd.count → ∀ j, j < nd.count → (nd.entry i).inum ≠ 0 →
  (nd.entry j).inum ≠ 0 → namecmp (nd.entry i).name (nd.entry j).name → i = j)

/-- The root directory after `fourWritten`, on which the operations above are accepted. -/
def Named (s : State) : Prop :=
  (0 < (s.itable 0).ref ∧ (s.itable 0).valid = true ∧ (s.nodeOf (s.itable 0).inum).type = tDir ∧
    (s.nodeOf (s.itable 0).inum).contents.length % sizeofDirent = 0 ∧
    (s.nodeOf (s.itable 0).inum).distinct = true) ∧
    (StepRun.exec (dirStep 0) (fun _ op => op.Fits) s.began naming).isSome = true

instance (s : State) : Decidable (Named s) := inferInstanceAs (Decidable (_ ∧ _))

theorem directories_are_maps_naming : ∃ (s : State) (nd : Node) (t : State) (nd' : Node), DirAt s 0 nd ∧
    Run (dirStep 0) (fun _ op => op.Fits) s naming t ∧ Steps MapStep nd.lookup naming nd'.lookup := by
  have hexec : (StepRun.exec step (fun _ _ => True) (boot chainImage) fourWritten).map
      (fun s => decide (Named s)) = some true := by decide +kernel
  obtain ⟨s, hs, hend⟩ := map_eq_some_iff.mp hexec
  obtain ⟨⟨href, hvalid, hdir, hrows, hdist⟩, hops⟩ := of_decide_eq_true hend
  have hd : Disk s.dinode s := (chainImage_consistent.run (run_of_exec hs)).ok.disk trivial
  have hd' : Disk s.dinode s.began :=
    ⟨hd.size_lt, hd.owns, hd.reserved, hd.small, hd.filled, hd.dev, hd.uniq, hd.sync⟩
  have hlive : Live s.began 0 := ⟨href, hvalid⟩
  have hat : DirAt s.began 0 (s.nodeOf (s.itable 0).inum) :=
    ⟨hd', hlive, hd'.node_eq hlive, hdir, Nat.dvd_of_mod_eq_zero hrows⟩
  have hd'' : (s.nodeOf (s.itable 0).inum).Distinct := fun i j hi hj => of_decide_eq_true hdist i hi j hj
  have hrun := run_get hops
  obtain ⟨nd', -, -, hsteps, -⟩ := directories_are_maps hat hd'' hrun
  exact ⟨s.began, _, _, nd', hat, hrun, hsteps⟩

end Xv6Armv8.Fs

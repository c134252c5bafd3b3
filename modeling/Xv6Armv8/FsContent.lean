
import Mathlib.Data.List.GetD
import Mathlib.Data.List.TakeWhile
import Xv6Armv8.FsBlocks

/-! The contents of a file are the bytes of its blocks in order. `readi` returns them without touching the
disk, because every block below the size is there; `writei` puts new ones in place and adds blocks at the end;
`itrunc` gives all blocks back. -/

namespace Xv6Armv8.Fs

open Spec Alloc FileTable Function List

variable {s t u : State} {k i b off n : Nat} {E : Nat → Dinode}

/-- Byte `x` of the file with inode number `i`. -/
def State.byteOf (s : State) (i x : Nat) : UInt8 :=
  s.data (slots s.dinode s.data (i, place (x / bsize))) (x % bsize)

/-- The `n` bytes from `off` on. -/
def State.bytesOf (s : State) (i off n : Nat) : List UInt8 := (List.range n).map fun j => s.byteOf i (off + j)

@[simp] theorem length_bytesOf : (s.bytesOf i off n).length = n := by simp [State.bytesOf]

@[simp] theorem bytesOf_zero : s.bytesOf i off 0 = [] := rfl

theorem bytesOf_add (m n : Nat) : s.bytesOf i off (m + n) = s.bytesOf i off m ++ s.bytesOf i (off + m) n := by
  unfold State.bytesOf
  rw [range_add, map_append, map_map]
  congr 1
  refine map_congr_left fun j _ => ?_
  rw [Function.comp_apply, Nat.add_assoc]

variable {bs : List UInt8} {j m o : Nat} {l : List Nat} {src : Nat → Option UInt8}

theorem take_bytesOf (h : m ≤ n) : (s.bytesOf i off n).take m = s.bytesOf i off m := by
  obtain ⟨r, rfl⟩ := Nat.exists_eq_add_of_le h
  rw [bytesOf_add]
  exact take_left' length_bytesOf

theorem chunk_div (hm : m ≤ bsize - off % bsize) (hj : j < m) :
    (off + j) / bsize = off / bsize ∧ (off + j) % bsize = off % bsize + j := by
  unfold bsize at *
  omega

theorem bytes_chunk (hm : m ≤ bsize - off % bsize) :
    (s.data (slots s.dinode s.data (i, place (off / bsize)))).bytes (off % bsize) m = s.bytesOf i off m := by
  unfold ByteStore.bytes State.bytesOf
  refine map_congr_left fun j hj => ?_
  obtain ⟨hdiv, hmod⟩ := chunk_div hm (mem_range.mp hj)
  rw [State.byteOf, hdiv, hmod]

/-! ### readi -/

/-- The outcome of a read of `n` bytes after `tot` of them: all bytes, or those before the first that the
destination cannot take. -/
inductive ReadEnd (s : State) (i : Nat) (dst : Nat → Bool) (n tot off : Nat) : Int → List UInt8 → Prop
  | all : (∀ j, tot ≤ j → j < n → dst j = true) → ReadEnd s i dst n tot off n (s.bytesOf i off (n - tot))
  | fault (m : Nat) : tot ≤ m → m < n → dst m = false → (∀ j, tot ≤ j → j < m → dst j = true) →
      ReadEnd s i dst n tot off (-1) (s.bytesOf i off (m - tot))

theorem length_takeWhile_range {q : Nat → Bool} : ∀ {m : Nat}, (List.range m).all q = false →
    ((List.range m).takeWhile q).length < m ∧ q ((List.range m).takeWhile q).length = false ∧
      ∀ j, j < ((List.range m).takeWhile q).length → q j = true
  | 0, h => by simp at h
  | m + 1, h => by
    rw [range_succ, takeWhile_append]
    by_cases hall : (List.range m).all q = true
    · have htake : (List.range m).takeWhile q = List.range m :=
        takeWhile_eq_self_iff.mpr fun x hx => all_eq_true.mp hall x hx
      have hm : q m = false := by
        rw [range_succ, all_append, hall] at h
        simpa using h
      rw [htake, if_pos rfl, takeWhile_cons, hm]
      simp only [Bool.false_eq_true, if_false, append_nil, length_range]
      exact ⟨Nat.lt_succ_self m, hm, fun j hj => all_eq_true.mp hall j (mem_range.mpr hj)⟩
    · obtain ⟨hlt, hfalse, htrue⟩ := length_takeWhile_range (q := q) (m := m) (by simpa using hall)
      have hne : ¬((List.range m).takeWhile q).length = (List.range m).length := by
        rw [length_range]
        exact hlt.ne
      rw [if_neg hne]
      exact ⟨Nat.lt_succ_of_lt hlt, hfalse, htrue⟩

/-- The blocks that a live entry of the table finds are those of the inode on the disk. -/
theorem Disk.slot_eq (h : Disk s.dinode s) (hk : Live s k) (c : Nat) :
    slot s.data (s.itable k).d c = slots s.dinode s.data ((s.itable k).inum, c) := by
  unfold slots
  rw [(h.sync k hk.1 hk.2).1]

/-- **Below the size `bmap` finds a block and allocates none.** -/
theorem bmap_below (h : Disk s.dinode s) (hk : Live s k) (hoff : off < (s.itable k).d.size) :
    bmap k (off / bsize) s = .ok (slots s.dinode s.data ((s.itable k).inum, place (off / bsize)), s) ∧
      slots s.dinode s.data ((s.itable k).inum, place (off / bsize)) ≠ 0 := by
  obtain ⟨hd, ht⟩ := h.sync k hk.1 hk.2
  have hsize : (s.itable k).d.size ≤ maxfile * bsize := by
    rw [hd]
    exact h.small _ ht
  have hbn : off / bsize < maxfile := Nat.div_lt_of_lt_mul (by rw [Nat.mul_comm]; omega)
  have hne : slots s.dinode s.data ((s.itable k).inum, place (off / bsize)) ≠ 0 := by
    refine h.filled _ _ ht (lt_of_le_of_lt (Nat.div_mul_le_self off bsize) ?_)
    rwa [← hd]
  refine ⟨?_, hne⟩
  rw [← h.slot_eq hk]
  exact bmap_held (by rwa [hd]) hbn (by rwa [h.slot_eq hk])

/-- The first `lim` bytes of the file of entry `k` are in blocks that `bmap` finds. -/
def Readable (s : State) (k lim : Nat) : Prop := ∀ off, off < lim →
  bmap k (off / bsize) s = .ok (slots s.dinode s.data ((s.itable k).inum, place (off / bsize)), s) ∧
    slots s.dinode s.data ((s.itable k).inum, place (off / bsize)) ≠ 0

theorem readiLoop_spec {dst : Nat → Bool} {lim : Nat} (h : Readable s k lim) : ∀ turns tot off,
    n - tot ≤ turns → tot ≤ n → off + (n - tot) ≤ lim →
    Sat (readiLoop k dst n turns tot off) s
      (fun r t => t = s ∧ ReadEnd s (s.itable k).inum dst n tot off r.1 r.2) fun _ => False
  | 0, tot, off, hturns, htot, _ => by
    have heq : tot = n := by omega
    subst heq
    refine ⟨rfl, ?_⟩
    have hend : ReadEnd s (s.itable k).inum dst tot tot off tot (s.bytesOf (s.itable k).inum off (tot - tot)) :=
      .all fun j h1 h2 => by omega
    rwa [Nat.sub_self] at hend
  | turns + 1, tot, off, hturns, htot, hoff => by
    unfold readiLoop
    rw [sat_ite]
    refine ⟨fun hlt => ?_, fun hge => ?_⟩
    · obtain ⟨hbmap, hne⟩ := h off (by omega)
      rw [sat_bind, sat_of_eq hbmap, if_neg hne, sat_bind, sat_get]
      generalize hm : min (n - tot) (bsize - off % bsize) = m
      have hm1 : m ≤ n - tot := by rw [← hm]; exact Nat.min_le_left ..
      have hm2 : m ≤ bsize - off % bsize := by rw [← hm]; exact Nat.min_le_right ..
      have hm0 : 0 < m := by
        have := Nat.mod_lt off (show 0 < bsize by decide)
        omega
      rw [bytes_chunk hm2]
      by_cases hall : (List.range m).all (fun i => dst (tot + i)) = true
      · rw [if_pos hall, sat_bind]
        refine (readiLoop_spec h turns (tot + m) (off + m) (by omega) (by omega) (by omega)).imp ?_
        rintro ⟨r, bs⟩ t ⟨rfl, hend⟩
        refine ⟨rfl, ?_⟩
        have hdst : ∀ j, tot ≤ j → j < tot + m → dst j = true := fun j h1 h2 => by
          have := all_eq_true.mp hall (j - tot) (mem_range.mpr (by omega))
          rwa [Nat.add_sub_cancel' h1] at this
        dsimp only at hend ⊢
        cases hend with
        | all hrest =>
          rw [← bytesOf_add, show m + (n - (tot + m)) = n - tot by omega]
          exact .all fun j h1 h2 => (Nat.lt_or_ge j (tot + m)).elim (hdst j h1) fun h3 => hrest j h3 h2
        | fault x h1 h2 hbad hrest =>
          rw [← bytesOf_add, show m + (x - (tot + m)) = x - tot by omega]
          exact .fault x (by omega) h2 hbad fun j h3 h4 =>
            (Nat.lt_or_ge j (tot + m)).elim (hdst j h3) fun h5 => hrest j h5 h4
      · rw [if_neg hall]
        refine ⟨rfl, ?_⟩
        obtain ⟨hlen, hbad, hgood⟩ := length_takeWhile_range (q := fun i => dst (tot + i)) (m := m)
          (by simpa using hall)
        dsimp only
        rw [take_bytesOf hlen.le]
        generalize ((List.range m).takeWhile fun i => dst (tot + i)).length = x at *
        have hend : ReadEnd s (s.itable k).inum dst n tot off (-1)
            (s.bytesOf (s.itable k).inum off (tot + x - tot)) :=
          .fault (tot + x) (by omega) (by omega) hbad fun j h1 h2 => by
            have := hgood (j - tot) (by omega)
            rwa [Nat.add_sub_cancel' h1] at this
        rwa [Nat.add_sub_cancel_left] at hend
    · have heq : tot = n := by omega
      subst heq
      refine ⟨rfl, ?_⟩
      have hend : ReadEnd s (s.itable k).inum dst tot tot off tot (s.bytesOf (s.itable k).inum off (tot - tot)) :=
        .all fun j h1 h2 => by omega
      rwa [Nat.sub_self] at hend

/-- The number of bytes that `readi` is to copy. -/
def readCount (size off n : Nat) : Nat :=
  if size < off ∨ u32 (off + n) < off then 0 else if size < off + n then size - off else n

theorem readCount_le {size : Nat} : readCount size off n = 0 ∨ off + readCount size off n ≤ size := by
  unfold readCount
  split
  · exact .inl rfl
  · split <;> omega

theorem readi_readable {dst : Nat → Bool} {lim : Nat} (h : Readable s k lim)
    (hlim : readCount (s.itable k).d.size off n = 0 ∨ off + readCount (s.itable k).d.size off n ≤ lim) :
    Sat (readi k dst off n) s (fun r t => t = s ∧
      ReadEnd s (s.itable k).inum dst (readCount (s.itable k).d.size off n) 0 off r.1 r.2) fun _ => False := by
  unfold readi
  unfold readCount at hlim ⊢
  rw [sat_bind, sat_get]
  dsimp only
  by_cases hc : (s.itable k).d.size < off ∨ u32 (off + n) < off
  · rw [if_pos hc, if_pos hc]
    exact ⟨rfl, .all fun j _ hj => absurd hj (Nat.not_lt_zero j)⟩
  · rw [if_neg hc] at hlim ⊢
    rw [if_neg hc]
    generalize (if (s.itable k).d.size < off + n then (s.itable k).d.size - off else n) = r at hlim ⊢
    rcases hlim with rfl | hlim
    · exact ⟨rfl, .all fun j _ hj => absurd hj (Nat.not_lt_zero j)⟩
    · exact readiLoop_spec h _ _ _ (Nat.sub_le ..) (Nat.zero_le _) hlim

/-- **`readi` returns the bytes of the file below its size** and changes nothing. -/
theorem readi_spec {dst : Nat → Bool} (h : Disk s.dinode s) (hk : Live s k) :
    Sat (readi k dst off n) s (fun r t => t = s ∧
      ReadEnd s (s.itable k).inum dst (readCount (s.itable k).d.size off n) 0 off r.1 r.2) fun _ => False := by
  have hread : Readable s k (s.itable k).d.size := fun _ hoff => bmap_below h hk hoff
  exact readi_readable hread readCount_le

/-! ### writei -/

/-- Byte `x` of the file that entry `k` of the table stands for, while it is changed. -/
def State.byteAt (s : State) (k x : Nat) : UInt8 :=
  s.data (s.slotsAt k ((s.itable k).inum, place (x / bsize))) (x % bsize)

/-- The file of entry `k` may hold more blocks and have other bytes from `lo` up to `hi`. Nothing else
changes. -/
structure Wrote (k lo hi : Nat) (s t : State) : Prop where
  frame : Frame s t
  dinode : t.dinode = s.dinode
  others : ∀ j, j ≠ k → t.itable j = s.itable j
  fields : ∃ a, (t.itable k).d = { (s.itable k).d with addrs := a }
  slots : ∀ p, s.slotsAt k p ≠ 0 → t.slotsAt k p = s.slotsAt k p
  bytes : ∀ p x, s.slotsAt k p ≠ 0 → p.2 ≠ ndirect → x < bsize →
    (∀ y, lo ≤ y → y < hi → (p.1, p.2, x) ≠ ((s.itable k).inum, place (y / bsize), y % bsize)) →
    t.data (s.slotsAt k p) x = s.data (s.slotsAt k p) x

variable {lo hi mid lo' hi' : Nat}

theorem Wrote.refl (k lo hi : Nat) (s : State) : Wrote k lo hi s s where
  frame := refl_of Frame s
  dinode := rfl
  others := fun _ _ => rfl
  fields := ⟨_, rfl⟩
  slots := fun _ _ => rfl
  bytes := fun _ _ _ _ _ _ => rfl

theorem Grown.wrote (h : Grown k s t) (lo hi : Nat) : Wrote k lo hi s t where
  frame := h.frame
  dinode := h.dinode
  others := h.others
  fields := h.fields
  slots := fun p hp => (h.keep p hp).1
  bytes := fun p x hp hne _ _ => congrFun ((h.keep p hp).2 hne) x

theorem Wrote.trans (h : Wrote k lo mid s t) (h' : Wrote k mid hi t u) (h1 : lo ≤ mid) (h2 : mid ≤ hi) :
    Wrote k lo hi s u where
  frame := trans_of Frame h.frame h'.frame
  dinode := h'.dinode.trans h.dinode
  others := fun j hj => (h'.others j hj).trans (h.others j hj)
  fields := by
    obtain ⟨a, ha⟩ := h.fields
    obtain ⟨a', ha'⟩ := h'.fields
    exact ⟨a', by rw [ha', ha]⟩
  slots := by
    intro p hp
    have hst := h.slots p hp
    rw [h'.slots p (by rwa [hst]), hst]
  bytes := by
    intro p x hp hne hx hout
    have hst := h.slots p hp
    rw [← h.bytes p x hp hne hx fun y hy hy' => hout y hy (by omega), ← hst]
    refine h'.bytes p x (by rwa [hst]) hne hx fun y hy hy' => ?_
    rw [h.frame.inum k]
    exact hout y (by omega) hy'

theorem Wrote.widen (h : Wrote k lo hi s t) (h1 : lo' ≤ lo) (h2 : hi ≤ hi') : Wrote k lo' hi' s t :=
  { h with bytes := fun p x hp hne hx hout => h.bytes p x hp hne hx fun y hy hy' => hout y (by omega) (by omega) }

theorem Wrote.byteAt {x : Nat} (h : Wrote k lo hi s t) (hx : x < lo ∨ hi ≤ x)
    (h0 : s.slotsAt k ((s.itable k).inum, place (x / bsize)) ≠ 0) : t.byteAt k x = s.byteAt k x := by
  unfold State.byteAt
  rw [h.frame.inum k, h.slots _ h0]
  refine h.bytes _ _ h0 (place_ne _) (Nat.mod_lt _ (by decide)) fun y hy hy' heq => ?_
  simp only [Prod.mk.injEq, true_and] at heq
  have hdiv := place_inj heq.1
  have hxy : x = y := by
    rw [← Nat.div_add_mod x bsize, ← Nat.div_add_mod y bsize, hdiv, heq.2]
  omega

/-- The state after bytes have been put in a block. -/
def State.withPut (s : State) (b o : Nat) (bs : List UInt8) (l : List Nat) : State :=
  { s with data := update s.data b ((s.data b).put o bs), logged := l }

theorem Disk.put {c : Nat} (h : Disk (s.eff k) s)
    (hc : s.slotsAt k ((s.itable k).inum, place c) = b) (hb : b ≠ 0) :
    Disk ((s.withPut b o bs l).eff k) (s.withPut b o bs l) ∧ (s.withPut b o bs l).slotsAt k = s.slotsAt k := by
  have hslots : slots (s.eff k) (s.withPut b o bs l).data = slots (s.eff k) s.data := by
    refine slots_update fun i ht => ?_
    rw [← hc]
    refine h.not_indirect (fun heq => place_ne c (congrArg Prod.snd heq)) ?_ ht
    rwa [← hc] at hb
  refine ⟨⟨h.size_lt, ?_, h.reserved, h.small, ?_, h.dev, h.uniq, h.sync⟩, hslots⟩
  · show Owns (slots (s.eff k) (s.withPut b o bs l).data) _ _
    rw [hslots]
    exact h.owns
  · intro i n ht hn
    show slots (s.eff k) (s.withPut b o bs l).data _ ≠ 0
    rw [hslots]
    exact h.filled i n ht hn

theorem put_of_not_mem {m : ByteStore} {x : Nat} (hx : x < o ∨ o + bs.length ≤ x) : m.put o bs x = m x := by
  unfold ByteStore.put
  rw [if_neg (by omega)]

theorem put_of_mem {m : ByteStore} (hj : j < bs.length) : m.put o bs (o + j) = bs[j] := by
  unfold ByteStore.put
  rw [if_pos (by omega), Nat.add_sub_cancel_left, getD_eq_getElem _ _ hj]

theorem wrote_put (h : Disk (s.eff k) s)
    (hoff : off % bsize = o) (hc : s.slotsAt k ((s.itable k).inum, place (off / bsize)) = b) (hb : b ≠ 0)
    (hlen : bs.length ≤ bsize - off % bsize) : Wrote k off (off + bs.length) s (s.withPut b o bs l) where
  frame := ⟨rfl, rfl, rfl, rfl, fun _ => ⟨_, rfl⟩⟩
  dinode := rfl
  others := fun _ _ => rfl
  fields := ⟨_, rfl⟩
  slots := fun p _ => congrFun (h.put hc hb).2 p
  bytes := by
    intro p x hp hne hx hout
    show update s.data b _ (s.slotsAt k p) x = _
    by_cases heq : s.slotsAt k p = b
    · have hpc : p = ((s.itable k).inum, place (off / bsize)) := by
        refine h.owns.inj p _ (heq.trans hc.symm) hp
      rw [heq, update_self]
      refine put_of_not_mem ?_
      by_contra hin
      have hx' : x = off % bsize + (x - o) := by omega
      obtain ⟨hdiv, hmod⟩ := chunk_div hlen (show x - o < bs.length by omega)
      refine hout (off + (x - o)) (by omega) (by omega) ?_
      rw [hdiv, hmod, ← hx', hpc]
    · rw [update_of_ne heq]

theorem byteAt_withPut (h : Disk (s.eff k) s)
    (hc : s.slotsAt k ((s.itable k).inum, place (off / bsize)) = b) (hb : b ≠ 0)
    (hlen : bs.length ≤ bsize - off % bsize) (hj : j < bs.length) :
    (s.withPut b (off % bsize) bs l).byteAt k (off + j) = bs[j] := by
  obtain ⟨hdiv, hmod⟩ := chunk_div hlen hj
  show (s.withPut b (off % bsize) bs l).data
    ((s.withPut b (off % bsize) bs l).slotsAt k ((s.itable k).inum, place ((off + j) / bsize))) _ = _
  rw [(h.put hc hb).2, hdiv, hmod, hc]
  show update s.data b _ b _ = _
  rw [update_self, put_of_mem hj]

/-- How a copying loop of `writei` ends. -/
structure WriteEnd (k : Nat) (src : Nat → Option UInt8) (n tot off : Nat) (s : State) (r : Nat × Nat)
    (t : State) : Prop where
  disk : Disk (t.eff k) t
  wrote : Wrote k off (off + (n - tot)) s t
  le : tot ≤ r.1 ∧ r.1 ≤ n ∧ r.2 = off + (r.1 - tot)
  below : ∀ x, x * bsize < r.2 → t.slotsAt k ((s.itable k).inum, place x) ≠ 0
  copied : ∀ j, tot ≤ j → j < r.1 → src j = some (t.byteAt k (off + (j - tot)))
  short : r.1 < n → (∃ j, tot ≤ j ∧ j < n ∧ src j = none) ∨ ∀ x, x < t.sb.size → t.bitmap x = true

theorem srcBytes_spec (src : Nat → Option UInt8) (tot : Nat) : ∀ m, (srcBytes src tot m).length ≤ m ∧
      (∀ j (h : j < (srcBytes src tot m).length), src (tot + j) = some (srcBytes src tot m)[j]) ∧
      ((srcBytes src tot m).length < m → src (tot + (srcBytes src tot m).length) = none)
  | 0 => by simp [srcBytes]
  | m + 1 => by
    obtain ⟨hle, hget, hnone⟩ := srcBytes_spec src tot m
    have hstep : srcBytes src tot (m + 1) =
        if (srcBytes src tot m).length = m then srcBytes src tot m ++ (src (tot + m)).toList
        else srcBytes src tot m := by
      unfold srcBytes
      rw [range_succ, map_append, takeWhile_append, length_map, length_map, length_range]
      split
      · rename_i hfull
        rw [map_append]
        have htake : ((List.range m).map fun i => src (tot + i)).takeWhile (·.isSome) =
            (List.range m).map fun i => src (tot + i) :=
          ( takeWhile_prefix _).eq_of_length (by rw [hfull, length_map, length_range])
        rw [htake]
        congr 1
        cases h : src (tot + m) with
        | none => simp [h]
        | some b => simp [h]
      · rfl
    rw [hstep]
    split
    · rename_i hfull
      cases h : src (tot + m) with
      | none =>
        simp only [Option.toList_none, append_nil]
        refine ⟨by omega, hget, fun _ => ?_⟩
        rw [hfull]
        exact h
      | some b =>
        simp only [Option.toList_some, length_append, length_cons, length_nil]
        refine ⟨by omega, fun j hj => ?_, fun hlt => by omega⟩
        by_cases hjm : j < (srcBytes src tot m).length
        · rw [getElem_append_left hjm]
          exact hget j hjm
        · have hj' : j = (srcBytes src tot m).length := by omega
          subst hj'
          rw [getElem_concat_length rfl, hfull, h]
    · rename_i hne
      exact ⟨by omega, hget, fun _ => hnone (by omega)⟩

theorem WriteEnd.stop {tot : Nat} (hd : Disk (t.eff k) t)
    (hw : Wrote k off (off + (n - tot)) s t) (htot : tot ≤ n)
    (hbelow : ∀ x, x * bsize < off → s.slotsAt k ((s.itable k).inum, place x) ≠ 0)
    (hshort : tot < n → (∃ j, tot ≤ j ∧ j < n ∧ src j = none) ∨ ∀ x, x < t.sb.size → t.bitmap x = true) :
    WriteEnd k src n tot off s (tot, off) t where
  disk := hd
  wrote := hw
  le := ⟨le_rfl, htot, by simp⟩
  below := fun x hx => by
    rw [hw.slots _ (hbelow x hx)]
    exact hbelow x hx
  copied := fun j h1 h2 => by omega
  short := hshort

theorem WriteEnd.cons {tot : Nat} {r : Nat × Nat} (hw : Wrote k off (off + m) s t) (hm : tot + m ≤ n)
    (hcopied : ∀ j, j < m → src (tot + j) = some (t.byteAt k (off + j)))
    (hslot : ∀ j, j < m → t.slotsAt k ((t.itable k).inum, place ((off + j) / bsize)) ≠ 0)
    (h : WriteEnd k src n (tot + m) (off + m) t r u) : WriteEnd k src n tot off s r u where
  disk := h.disk
  wrote := by
    have h2 : off + m + (n - (tot + m)) = off + (n - tot) := by omega
    have hw' := h.wrote
    rw [h2] at hw'
    exact hw.trans hw' (by omega) (by omega)
  le := by
    obtain ⟨h1, h2, h3⟩ := h.le
    refine ⟨by omega, h2, by omega⟩
  below := by
    rw [← hw.frame.inum k]
    exact h.below
  copied := by
    intro j h1 h2
    by_cases hj : j < tot + m
    · have hkeep : u.byteAt k (off + (j - tot)) = t.byteAt k (off + (j - tot)) :=
        h.wrote.byteAt (.inl (by omega)) (hslot (j - tot) (by omega))
      rw [hkeep, ← hcopied (j - tot) (by omega), Nat.add_sub_cancel' h1]
    · rw [h.copied j (by omega) h2]
      congr 2
      omega
  short := fun hlt => (h.short hlt).imp (fun ⟨j, h1, h2, h3⟩ => ⟨j, by omega, h2, h3⟩) id

theorem writeiLoop_spec {src : Nat → Option UInt8} : ∀ turns tot off s, n - tot ≤ turns → tot ≤ n →
    off + (n - tot) ≤ maxfile * bsize → Disk (s.eff k) s → Live s k →
    (∀ x, x * bsize < off → s.slotsAt k ((s.itable k).inum, place x) ≠ 0) →
    Sat (writeiLoop k src n turns tot off) s (fun r t => WriteEnd k src n tot off s r t) LogErr
  | 0, tot, off, s, hturns, htot, _, hd, _, hbelow =>
    .stop hd (Wrote.refl ..) htot hbelow fun hlt => by omega
  | turns + 1, tot, off, s, hturns, htot, hmax, hd, hk, hbelow => by
    unfold writeiLoop
    rw [sat_ite]
    refine ⟨fun hlt => ?_, fun hge => .stop hd (Wrote.refl ..) htot hbelow fun hlt => absurd hlt hge⟩
    have hbn : off / bsize < maxfile := Nat.div_lt_of_lt_mul (by rw [Nat.mul_comm]; omega)
    refine (bmap_spec hd hk hbn).bind fun b t ht => ?_
    rw [sat_ite]
    refine ⟨fun hb => ?_, fun hb => ?_⟩
    · exact .stop ht.disk (ht.grown.wrote ..) htot hbelow fun _ => .inr (ht.full hb).1
    · generalize hm : min (n - tot) (bsize - off % bsize) = m
      have hm1 : m ≤ n - tot := by rw [← hm]; exact Nat.min_le_left ..
      have hm2 : m ≤ bsize - off % bsize := by rw [← hm]; exact Nat.min_le_right ..
      have hm0 : 0 < m := by
        have := Nat.mod_lt off (show 0 < bsize by decide)
        omega
      obtain ⟨hlen, hget, hnone⟩ := srcBytes_spec src tot m
      generalize hbs : srcBytes src tot m = bs at hlen hget hnone
      have hheld : t.slotsAt k ((t.itable k).inum, place (off / bsize)) = b := by
        rw [ht.grown.frame.inum k]
        exact ht.held hb
      -- the state after the copy, whatever the log holds
      have hput : ∀ l, Wrote k off (off + bs.length) s (t.withPut b (off % bsize) bs l) := fun l =>
        (ht.grown.wrote off off).trans (wrote_put ht.disk rfl hheld hb (by omega)) le_rfl (by omega)
      dsimp only
      unfold setBlock
      rw [sat_bind, sat_modify, hbs, sat_ite]
      refine ⟨fun hpart => ?_, fun hall => ?_⟩
      · refine .stop (ht.disk.put hheld hb).1 ((hput t.logged).widen le_rfl (by omega)) htot hbelow fun _ =>
          .inl ⟨tot + bs.length, by omega, by omega, hnone hpart⟩
      · have hlen' : bs.length = m := by omega
        rw [sat_bind]
        refine logWrite_spec.imp fun _ u hu => ?_
        obtain ⟨l, rfl⟩ := hu
        show Sat (writeiLoop k src n turns (tot + m) (off + m)) (t.withPut b (off % bsize) bs l) _ _
        have hslots : (t.withPut b (off % bsize) bs l).slotsAt k = t.slotsAt k := (ht.disk.put hheld hb).2
        have hw := hput l
        rw [hlen'] at hw
        have hchunk : ∀ j, j < m → (t.withPut b (off % bsize) bs l).slotsAt k
            ((t.itable k).inum, place ((off + j) / bsize)) = b := fun j hj => by
          rw [(chunk_div hm2 hj).1, hslots, hheld]
        refine (writeiLoop_spec turns (tot + m) (off + m) (t.withPut b (off % bsize) bs l) (by omega) (by omega)
          (by omega) (ht.disk.put hheld hb).1 (hk.frame hw.frame) fun x hx => ?_).imp fun r u hu =>
            .cons hw (by omega) (fun j hj => ?_) (fun j hj => ?_) hu
        · rw [hslots]
          by_cases hx' : x * bsize < off
          · show t.slotsAt k ((t.itable k).inum, place x) ≠ 0
            rw [ht.grown.frame.inum k, (ht.grown.keep _ (hbelow x hx')).1]
            exact hbelow x hx'
          · have hxeq : x = off / bsize := by
              have h1 := Nat.div_add_mod off bsize
              have h2 := Nat.mod_lt off (show 0 < bsize by decide)
              unfold bsize at *
              omega
            show t.slotsAt k ((t.itable k).inum, place x) ≠ 0
            rw [hxeq, hheld]
            exact hb
        · have hjl : j < bs.length := by omega
          rw [hget j hjl, byteAt_withPut ht.disk hheld hb (by omega) hjl]
        · show (t.withPut b (off % bsize) bs l).slotsAt k ((t.itable k).inum, place ((off + j) / bsize)) ≠ 0
          rw [hchunk j hj]
          exact hb

/-! ### The inode on the disk -/

/-- The state after a change to the fields of entry `k`. -/
def State.fields (s : State) (k : Nat) (f : Dinode → Dinode) : State := s.inode k fun ip => { ip with d := f ip.d }

/-- The state after the fields of entry `k` have gone to the disk. -/
def State.flushed (s : State) (k : Nat) (l : List Nat) : State := { s with dinode := s.eff k, logged := l }

variable {f : Dinode → Dinode}

theorem sat_setFields {Q : Unit → State → Prop} {E : String → Prop} :
    Sat (setFields k f) s Q E ↔ Q () (s.fields k f) := Iff.rfl

theorem iupdate_spec : Sat (iupdate k) s (fun _ t => ∃ l, t = s.flushed k l) LogErr := by
  unfold iupdate
  rw [sat_bind, sat_get, sat_bind, sat_modify]
  exact logWrite_spec

theorem fields_self : ((s.fields k f).itable k).d = f (s.itable k).d := by
  unfold State.fields State.inode
  simp only [update_self]

theorem fields_of_ne (hj : j ≠ k) : (s.fields k f).itable j = s.itable j := update_of_ne hj ..

theorem fields_frame : Frame s (s.fields k f) := setFields_frame s

theorem eff_fields : (s.fields k f).eff k = update (s.eff k) (s.itable k).inum (f (s.itable k).d) := by
  unfold State.eff State.fields State.inode
  simp only [update_self, update_idem]

theorem slot_fields {data : Nat → ByteStore} {d d' : Dinode} (ha : d'.addrs = d.addrs) (ht : d'.type = d.type)
    (c : Nat) : slot data d' c = slot data d c := by
  unfold slot
  rw [ha, ht]

/-- Fields other than the type and the addresses change, and the blocks cover the new size. -/
theorem Disk.fields (h : Disk (s.eff k) s) (hk : Live s k) (ha : (f (s.itable k).d).addrs = (s.itable k).d.addrs)
    (ht : (f (s.itable k).d).type = (s.itable k).d.type) (hsmall : (f (s.itable k).d).size ≤ maxfile * bsize)
    (hfill : ∀ x, x * bsize < (f (s.itable k).d).size → s.slotsAt k ((s.itable k).inum, place x) ≠ 0) :
    Disk ((s.fields k f).eff k) (s.fields k f) ∧ (s.fields k f).slotsAt k = s.slotsAt k := by
  have htype : ∀ i, ((s.fields k f).eff k i).type = (s.eff k i).type := by
    intro i
    rw [eff_fields]
    by_cases hi : i = (s.itable k).inum
    · subst hi
      rw [update_self, eff_self, ht]
    · rw [update_of_ne hi]
  have hslots : slots ((s.fields k f).eff k) s.data = slots (s.eff k) s.data := by
    funext p
    unfold slots
    rw [eff_fields]
    by_cases hi : p.1 = (s.itable k).inum
    · rw [hi, update_self, eff_self]
      exact slot_fields ha ht _
    · rw [update_of_ne hi]
  have hf : Frame s (s.fields k f) := fields_frame
  refine ⟨⟨h.size_lt, ?_, h.reserved, fun i hi => ?_, fun i n hi hn => ?_, fun j hj => ?_, fun j j' hj hj' heq => ?_,
    fun j hj hv => ?_⟩, hslots⟩
  · show Owns (slots ((s.fields k f).eff k) s.data) _ _
    rw [hslots]
    exact h.owns
  · rw [htype i] at hi
    rw [eff_fields]
    by_cases hik : i = (s.itable k).inum
    · subst hik
      rwa [update_self]
    · rw [update_of_ne hik]
      exact h.small i hi
  · show slots ((s.fields k f).eff k) s.data _ ≠ 0
    rw [htype i] at hi
    rw [hslots]
    rw [eff_fields] at hn
    by_cases hik : i = (s.itable k).inum
    · subst hik
      rw [update_self] at hn
      exact hfill n hn
    · rw [update_of_ne hik] at hn
      exact h.filled i n hi hn
  · rw [hf.ref] at hj
    rw [hf.dev]
    exact h.dev j hj
  · rw [hf.ref] at hj hj'
    rw [hf.inum, hf.inum] at heq
    exact h.uniq j j' hj hj' heq
  · rw [hf.ref] at hj
    rw [hf.valid] at hv
    rw [hf.inum, htype]
    refine ⟨?_, (h.sync j hj hv).2⟩
    rw [eff_fields]
    by_cases hjk : j = k
    · subst hjk
      rw [update_self, fields_self]
    · have hne : (s.itable j).inum ≠ (s.itable k).inum := fun heq => hjk (h.uniq j k hj hk.1 heq)
      rw [update_of_ne hne, fields_of_ne hjk]
      exact (h.sync j hj hv).1

theorem Disk.flushed (h : Disk (s.eff k) s) : Disk (s.flushed k l).dinode (s.flushed k l) :=
  ⟨h.size_lt, h.owns, h.reserved, h.small, h.filled, h.dev, h.uniq, h.sync⟩

theorem flushed_frame : Frame s (s.flushed k l) := ⟨rfl, rfl, rfl, rfl, fun _ => ⟨_, rfl⟩⟩

theorem flushed_slots : slots (s.flushed k l).dinode (s.flushed k l).data = s.slotsAt k := rfl

/-- The outcome of a `writei` that has copied `m` bytes. -/
structure Written (k : Nat) (src : Nat → Option UInt8) (off n : Nat) (s : State) (m : Nat) (t : State) : Prop where
  disk : Disk t.dinode t
  frame : Frame s t
  others : ∀ j, j ≠ k → t.itable j = s.itable j
  inodes : ∀ i, i ≠ (s.itable k).inum → t.dinode i = s.dinode i
  fields : ∃ a, t.dinode (s.itable k).inum =
    { s.dinode (s.itable k).inum with addrs := a, size := max (s.itable k).d.size (off + m) }
  held : ∀ p, slots s.dinode s.data p ≠ 0 → slots t.dinode t.data p = slots s.dinode s.data p
  bytes : ∀ i x, slots s.dinode s.data (i, place (x / bsize)) ≠ 0 →
    (i ≠ (s.itable k).inum ∨ x < off ∨ off + n ≤ x) → t.byteOf i x = s.byteOf i x
  le : m ≤ n
  copied : ∀ j, j < m → src j = some (t.byteOf (s.itable k).inum (off + j))
  short : m < n → (∃ j, j < n ∧ src j = none) ∨ ∀ x, x < t.sb.size → t.bitmap x = true

theorem WriteEnd.written {r : Nat × Nat} (h : Disk s.dinode s)
    (hk : Live s k) (hmax : off + n ≤ maxfile * bsize) (hend : WriteEnd k src n 0 off s r t)
    (hf : f = fun d => { d with size := if d.size < r.2 then r.2 else d.size }) :
    Written k src off n s r.1 ((t.fields k f).flushed k l) := by
  have hw := hend.wrote
  have hlive : Live t k := hk.frame hw.frame
  obtain ⟨-, hle, hr⟩ := hend.le
  obtain ⟨a, ha⟩ := hw.fields
  obtain ⟨hd, ht⟩ := h.sync k hk.1 hk.2
  have hs : s.slotsAt k = slots s.dinode s.data := by
    unfold State.slotsAt
    rw [h.eff_eq hk]
  have hsize : (f (t.itable k).d).size = max (s.itable k).d.size (off + r.1) := by
    rw [hf, ha, hr, Nat.sub_zero]
    dsimp only
    split <;> omega
  have hsmall : (s.itable k).d.size ≤ maxfile * bsize := by
    rw [hd]
    exact h.small _ ht
  obtain ⟨hdisk, hslots⟩ := hend.disk.fields (f := f) hlive (by rw [hf]) (by rw [hf])
    (by rw [hsize]; omega) fun x hx => by
      rw [hsize] at hx
      rw [hw.frame.inum k]
      by_cases hx' : x * bsize < (s.itable k).d.size
      · have h0 : s.slotsAt k ((s.itable k).inum, place x) ≠ 0 := by
          rw [hs]
          exact h.filled _ _ ht (by rwa [hd] at hx')
        rwa [hw.slots _ h0]
      · exact hend.below x (by omega)
  have hbyte : ∀ x, ((t.fields k f).flushed k l).byteOf (s.itable k).inum x = t.byteAt k x := fun x => by
    unfold State.byteOf State.byteAt
    rw [flushed_slots, hslots, hw.frame.inum k]
    rfl
  refine ⟨hdisk.flushed, trans_of Frame hw.frame (trans_of Frame fields_frame flushed_frame), fun j hj => ?_,
    fun i hi => ?_, ⟨a, ?_⟩, fun p hp => ?_, fun i x h0 hout => ?_, hle, fun j hj => ?_, fun hlt => ?_⟩
  · exact (fields_of_ne hj).trans (hw.others j hj)
  · show (t.fields k f).eff k i = _
    rw [eff_fields, hw.frame.inum k, update_of_ne hi, eff_of_ne (by rwa [hw.frame.inum k]), hw.dinode]
  · show (t.fields k f).eff k _ = _
    rw [eff_fields, hw.frame.inum k, update_self, ← hsize, hf, ha, ← hd]
  · rw [flushed_slots, hslots, hw.slots p (by rwa [hs]), hs]
  · rcases eq_or_ne i (s.itable k).inum with rfl | hi
    · rw [hbyte, hw.byteAt (hout.resolve_left fun hne => hne rfl) (by rwa [hs])]
      unfold State.byteAt State.byteOf
      rw [hs]
    · unfold State.byteOf
      rw [flushed_slots, hslots, hw.slots _ (by rwa [hs]), ← hs]
      refine hw.bytes _ _ (by rwa [hs]) (place_ne _) (Nat.mod_lt _ (by decide)) fun y _ _ heq => hi ?_
      exact congrArg Prod.fst heq
  · rw [hbyte]
    exact hend.copied j (Nat.zero_le _) hj
  · exact (hend.short hlt).imp (fun ⟨j, _, h2, h3⟩ => ⟨j, h2, h3⟩) id

/-- **`writei` copies a part of the source into the file** and leaves all other bytes, or does nothing. -/
theorem writei_spec (h : Disk s.dinode s) (hk : Live s k) :
    Sat (writei k src off n) s (fun r t => (r = -1 ∧ t = s) ∨ ∃ m : Nat, r = m ∧ Written k src off n s m t) LogErr := by
  unfold writei
  rw [sat_bind, sat_get]
  dsimp only
  rw [sat_ite]
  refine ⟨fun _ => .inl ⟨rfl, rfl⟩, fun hoff => ?_⟩
  rw [sat_ite]
  refine ⟨fun _ => .inl ⟨rfl, rfl⟩, fun hmax => ?_⟩
  obtain ⟨hd, ht⟩ := h.sync k hk.1 hk.2
  have heff := h.eff_eq hk
  rw [sat_bind]
  refine (writeiLoop_spec n 0 off s (by omega) (Nat.zero_le _) (by omega) (by rwa [heff]) hk fun x hx => ?_).imp
    fun r t hend => ?_
  · unfold State.slotsAt
    rw [heff]
    refine h.filled _ _ ht ?_
    rw [← hd]
    omega
  · rw [sat_bind, sat_setFields, sat_bind]
    refine iupdate_spec.imp fun _ u hu => ?_
    obtain ⟨l, rfl⟩ := hu
    exact .inr ⟨r.1, rfl, hend.written h hk (by omega) rfl⟩

/-! ### itrunc -/

theorem bfree_spec (h : s.bitmap b = true) :
    Sat (bfree b) s (fun _ t => ∃ l, t = { s with bitmap := update s.bitmap b false, logged := l }) LogErr := by
  unfold bfree setBit
  rw [sat_bind, sat_get, if_neg (by rw [h]; decide), sat_bind, sat_modify]
  exact logWrite_spec

/-- The blocks that are still held when the places `q` of inode `i` have been cleared. -/
def clear (S : Nat × Nat → Nat) (i : Nat) (q : Nat → Bool) (p : Nat × Nat) : Nat :=
  if p.1 = i ∧ q p.2 = true then 0 else S p

theorem clear_add {S : Nat × Nat → Nat} {q q' : Nat → Bool} {c : Nat} (h : ∀ x, q' x = (q x || x == c)) :
    clear S i q' = update (clear S i q) (i, c) 0 := by
  funext p
  by_cases hp : p = (i, c)
  · subst hp
    rw [update_self]
    exact if_pos ⟨rfl, by rw [h]; simp⟩
  · rw [update_of_ne hp]
    unfold clear
    rw [h]
    by_cases hi : p.1 = i
    · have hc : p.2 ≠ c := fun hc => hp (Prod.ext hi hc)
      simp [hi, hc]
    · simp [hi]

theorem clear_congr {S : Nat × Nat → Nat} {q q' : Nat → Bool} (h : ∀ x, q' x ≠ q x → S (i, x) = 0) :
    clear S i q' = clear S i q := by
  funext p
  unfold clear
  by_cases hi : p.1 = i
  · by_cases hx : q' p.2 = q p.2
    · rw [hx]
    · have h0 : S p = 0 := by
        rw [← h p.2 hx, ← hi]
      simp [h0]
  · simp [hi]

/-- The state while the blocks of entry `k` are freed. -/
def State.freeing (s : State) (k : Nat) (a : Nat → Nat) (m : Nat → Bool) (l : List Nat) : State :=
  { s with
    itable := update s.itable k { s.itable k with d := { (s.itable k).d with addrs := a } }
    bitmap := m
    logged := l }

/-- The blocks at the places `q` of the inode have been freed. -/
structure Freeing (k : Nat) (q : Nat → Bool) (s u : State) : Prop where
  eq : ∃ a m l, u = s.freeing k a m l ∧ ∀ c, c ≤ ndirect → a c = if q c then 0 else (s.itable k).d.addrs c
  owns : Owns (clear (s.slotsAt k) (s.itable k).inum q) u.bitmap s.sb.inData
  reserved : ∀ b, b < s.sb.datastart → u.bitmap b = true

variable {q q' : Nat → Bool} {c : Nat}

theorem Freeing.addrs (h : Freeing k q s u) (hc : c ≤ ndirect) :
    (u.itable k).d.addrs c = if q c then 0 else (s.itable k).d.addrs c := by
  obtain ⟨a, m, l, rfl, ha⟩ := h.eq
  unfold State.freeing
  simp only [update_self]
  exact ha c hc

theorem Freeing.data (h : Freeing k q s u) : u.data = s.data := by
  obtain ⟨a, m, l, rfl, -⟩ := h.eq
  rfl

theorem Freeing.skip (h : Freeing k q s u) (h0 : ∀ x, q' x ≠ q x → s.slotsAt k ((s.itable k).inum, x) = 0)
    (ht : (s.itable k).d.type ≠ 0) : Freeing k q' s u := by
  obtain ⟨a, m, l, rfl, ha⟩ := h.eq
  refine ⟨⟨a, m, l, rfl, fun c hc => ?_⟩, ?_, h.reserved⟩
  · rw [ha c hc]
    by_cases hq : q' c = q c
    · rw [hq]
    · have hz : (s.itable k).d.addrs c = 0 := by
        have := h0 c hq
        unfold State.slotsAt slots at this
        rwa [slot_le (by rwa [eff_self]) hc, eff_self] at this
      rw [hz, ite_self, ite_self]
  · rw [clear_congr h0]
    exact h.owns

theorem Freeing.bfree (h : Freeing k q s u) (hb : clear (s.slotsAt k) (s.itable k).inum q ((s.itable k).inum, c) = b)
    (h0 : b ≠ 0) (hq : ∀ x, q' x = (q x || x == c)) :
    Sat (bfree b) u (fun _ t => (∃ m l, t = { u with bitmap := m, logged := l }) ∧
      Owns (clear (s.slotsAt k) (s.itable k).inum q') t.bitmap s.sb.inData ∧
      ∀ b, b < s.sb.datastart → t.bitmap b = true) LogErr := by
  subst hb
  refine (bfree_spec (h.owns.marked h0)).imp fun _ t ht => ?_
  obtain ⟨l, rfl⟩ := ht
  refine ⟨⟨_, l, rfl⟩, ?_, fun x hx => ?_⟩
  · rw [clear_add hq]
    exact h.owns.remove h0
  · have hdata := (h.owns.area _ h0).1
    show update u.bitmap _ false x = true
    rw [update_of_ne (by omega)]
    exact h.reserved x hx

theorem freeEntry_spec (h : Freeing k q s u) (hc : c ≤ ndirect) (hqc : q c = false)
    (ht : (s.itable k).d.type ≠ 0) (hq : ∀ x, q' x = (q x || x == c)) :
    Sat (freeEntry k c) u (fun _ t => Freeing k q' s t) LogErr := by
  have haddr := h.addrs hc
  rw [hqc, if_neg Bool.false_ne_true] at haddr
  have hslot : s.slotsAt k ((s.itable k).inum, c) = (s.itable k).d.addrs c := by
    unfold State.slotsAt slots
    rw [slot_le (by rwa [eff_self]) hc, eff_self]
  unfold freeEntry
  rw [sat_bind, sat_get, sat_ite, haddr]
  refine ⟨fun h0 => ?_, fun h0 => ?_⟩
  · refine h.skip (fun x hx => ?_) ht
    rw [hq x] at hx
    have hxc : x = c := by
      by_contra hne
      simp [hne] at hx
    rw [hxc, hslot, h0]
  · have hclear : clear (s.slotsAt k) (s.itable k).inum q ((s.itable k).inum, c) = (s.itable k).d.addrs c := by
      unfold clear
      rw [if_neg (by simp [hqc]), hslot]
    refine (h.bfree hclear h0 hq).bind fun _ t hbf => ?_
    obtain ⟨⟨m, l, rfl⟩, howns, hres⟩ := hbf
    obtain ⟨a, m₀, l₀, rfl, ha⟩ := h.eq
    refine ⟨⟨update a c 0, m, l, ?_, fun x hx => ?_⟩, howns, hres⟩
    · unfold State.freeing State.inode
      simp only [update_self, update_idem]
    · rw [hq x]
      by_cases hxc : x = c
      · subst hxc
        simp
      · rw [update_of_ne hxc, ha x hx]
        simp [hxc]

theorem freeDirect_spec (h : Freeing k (fun _ => false) s u) (ht : (s.itable k).d.type ≠ 0) :
    Sat ((List.range ndirect).forM fun i => freeEntry k i) u
      (fun _ t => Freeing k (fun x => decide (x < ndirect)) s t) LogErr := by
  refine sat_forM_range (I := fun i t => Freeing k (fun x => decide (x < i)) s t) ?_ fun i hi t hF => ?_
  · refine h.skip (fun x hx => absurd ?_ hx) ht
    simp
  · refine freeEntry_spec hF hi.le (by simp) ht fun x => ?_
    by_cases hx : x < i
    · simp [hx, Nat.lt_succ_of_lt hx]
    · by_cases hxi : x = i
      · simp [hxi]
      · have hx' : ¬x < i + 1 := by omega
        simp [hx, hxi, hx']

theorem freeIndirect_loop {ind : Nat} (h : Freeing k (fun x => decide (x < ndirect)) s u)
    (ht : (s.itable k).d.type ≠ 0) (hind : (s.itable k).d.addrs ndirect = ind) (hi0 : ind ≠ 0) :
    Sat ((List.range nindirect).forM fun j => do
        let addr := ((← get).data ind).ld (4 * j) 4
        if addr = 0 then pure () else bfree addr) u
      (fun _ t => Freeing k (fun x => decide (x ≠ ndirect ∧ x < ndirect + 1 + nindirect)) s t) LogErr := by
  refine sat_forM_range (I := fun j t => Freeing k (fun x => decide (x ≠ ndirect ∧ x < ndirect + 1 + j)) s t) ?_
    fun j hj t hF => ?_
  · refine h.skip (fun x hx => absurd ?_ hx) ht
    simp only [decide_eq_decide]
    omega
  · have hslot : s.slotsAt k ((s.itable k).inum, ndirect + 1 + j) = (s.data ind).ld (4 * j) 4 := by
      unfold State.slotsAt slots
      rw [slot_indirect (by rwa [eff_self]) (by rwa [eff_self, hind]) hj, eff_self, hind]
    have hstep : ∀ x, decide (x ≠ ndirect ∧ x < ndirect + 1 + (j + 1)) =
        (decide (x ≠ ndirect ∧ x < ndirect + 1 + j) || x == ndirect + 1 + j) := by
      intro x
      rw [Bool.eq_iff_iff]
      simp only [decide_eq_true_eq, Bool.or_eq_true, beq_iff_eq]
      omega
    rw [sat_bind, sat_get, sat_ite, hF.data]
    refine ⟨fun h0 => ?_, fun h0 => ?_⟩
    · refine hF.skip (fun x hx => ?_) ht
      rw [hstep x] at hx
      have hxj : x = ndirect + 1 + j := by
        by_contra hne
        simp [hne] at hx
      rw [hxj, hslot, h0]
    · have hclear : clear (s.slotsAt k) (s.itable k).inum (fun x => decide (x ≠ ndirect ∧ x < ndirect + 1 + j))
          ((s.itable k).inum, ndirect + 1 + j) = (s.data ind).ld (4 * j) 4 := by
        unfold clear
        rw [if_neg (by simp), hslot]
      refine (hF.bfree hclear h0 hstep).imp fun _ t' hbf => ?_
      obtain ⟨⟨m, l, rfl⟩, howns, hres⟩ := hbf
      obtain ⟨a, m₀, l₀, rfl, ha⟩ := hF.eq
      refine ⟨⟨a, m, l, rfl, fun c hc => ?_⟩, howns, hres⟩
      rw [ha c hc, hstep c]
      have hne : (c == ndirect + 1 + j) = false := by
        rw [beq_eq_false_iff_ne]
        omega
      rw [hne, Bool.or_false]

theorem freeIndirect_spec (h : Freeing k (fun x => decide (x < ndirect)) s u) (ht : (s.itable k).d.type ≠ 0) :
    Sat (freeIndirect k) u (fun _ t => Freeing k (fun _ => true) s t) LogErr := by
  have haddr := h.addrs (c := ndirect) le_rfl
  rw [if_neg (by simp)] at haddr
  have hbeyond : ∀ x, ndirect + nindirect < x → s.slotsAt k ((s.itable k).inum, x) = 0 := fun x hx => by
    unfold State.slotsAt slots slot
    rw [eff_self, if_neg ht, if_neg (show ¬x ≤ ndirect by omega), if_pos (.inr hx)]
  unfold freeIndirect
  rw [sat_bind, sat_get, sat_ite, haddr]
  refine ⟨fun h0 => ?_, fun h0 => ?_⟩
  · refine h.skip (fun x hx => ?_) ht
    have hle : ndirect ≤ x := by
      by_contra hlt
      simp [not_le.mp hlt] at hx
    unfold State.slotsAt slots
    rcases Nat.eq_or_lt_of_le hle with rfl | hlt
    · rw [slot_le (by rwa [eff_self]) le_rfl, eff_self, h0]
    · exact slot_none (by rwa [eff_self]) hlt
  · refine (freeIndirect_loop h ht rfl h0).bind fun _ t hF => ?_
    have hslot : s.slotsAt k ((s.itable k).inum, ndirect) = (s.itable k).d.addrs ndirect := by
      unfold State.slotsAt slots
      rw [slot_le (by rwa [eff_self]) le_rfl, eff_self]
    have hclear : clear (s.slotsAt k) (s.itable k).inum
        (fun x => decide (x ≠ ndirect ∧ x < ndirect + 1 + nindirect)) ((s.itable k).inum, ndirect) =
        (s.itable k).d.addrs ndirect := by
      unfold clear
      rw [if_neg (by simp), hslot]
    have hstep : ∀ x, decide (x < ndirect + 1 + nindirect) =
        (decide (x ≠ ndirect ∧ x < ndirect + 1 + nindirect) || x == ndirect) := by
      intro x
      rw [Bool.eq_iff_iff]
      simp only [decide_eq_true_eq, Bool.or_eq_true, beq_iff_eq]
      omega
    refine (hF.bfree hclear h0 hstep).bind fun _ t' hbf => ?_
    obtain ⟨⟨m, l, rfl⟩, howns, hres⟩ := hbf
    obtain ⟨a, m₀, l₀, rfl, ha⟩ := hF.eq
    have hend : Freeing k (fun x => decide (x < ndirect + 1 + nindirect)) s
        (s.freeing k (update a ndirect 0) m l) := by
      refine ⟨⟨_, m, l, rfl, fun c hc => ?_⟩, howns, hres⟩
      rw [hstep c]
      by_cases hcn : c = ndirect
      · subst hcn
        simp
      · rw [update_of_ne hcn, ha c hc]
        simp [hcn]
    have hstate : s.freeing k (update a ndirect 0) m l =
        ({ s.freeing k a m₀ l₀ with bitmap := m, logged := l } : State).inode k
          (fun ip => { ip with d := { ip.d with addrs := update ip.d.addrs ndirect 0 } }) := by
      unfold State.freeing State.inode
      simp only [update_self, update_idem]
    show Freeing k _ s (({ s.freeing k a m₀ l₀ with bitmap := m, logged := l } : State).inode k _)
    rw [← hstate]
    refine hend.skip (fun x hx => hbeyond x ?_) ht
    by_contra hle
    refine hx ?_
    simp only [true_eq_decide_iff]
    omega

/-- The outcome of `itrunc`. -/
structure Truncated (k : Nat) (s t : State) : Prop where
  disk : Disk t.dinode t
  frame : Frame s t
  others : ∀ j, j ≠ k → t.itable j = s.itable j
  inodes : ∀ i, i ≠ (s.itable k).inum → t.dinode i = s.dinode i
  fields : ∃ a, t.dinode (s.itable k).inum = { s.dinode (s.itable k).inum with addrs := a, size := 0 } ∧
    ∀ c, c ≤ ndirect → a c = 0
  data : t.data = s.data

theorem slot_empty {data : Nat → ByteStore} {d : Dinode} (h : ∀ c, c ≤ ndirect → d.addrs c = 0) (c : Nat) :
    slot data d c = 0 := by
  rcases Nat.lt_or_ge ndirect c with hlt | hle
  · exact slot_none (h ndirect le_rfl) hlt
  · unfold slot
    split
    · rfl
    · exact h c hle

theorem slots_clear {data : Nat → ByteStore} {d : Dinode} (h : ∀ c, c ≤ ndirect → d.addrs c = 0) :
    slots (update E i d) data = clear (slots E data) i fun _ => true := by
  funext p
  unfold slots clear
  by_cases hp : p.1 = i
  · rw [hp, update_self, if_pos ⟨rfl, rfl⟩]
    exact slot_empty h _
  · rw [update_of_ne hp, if_neg fun hc => hp hc.1]

theorem Freeing.truncated (h : Disk s.dinode s) (hk : Live s k) (hF : Freeing k (fun _ => true) s u)
    (hf : f = fun d => { d with size := 0 }) : Truncated k s ((u.fields k f).flushed k l) := by
  obtain ⟨a, m, l₀, rfl, ha⟩ := hF.eq
  have ha0 : ∀ c, c ≤ ndirect → a c = 0 := fun c hc => by
    rw [ha c hc]
    rfl
  obtain ⟨hd, ht⟩ := h.sync k hk.1 hk.2
  have hfree : Frame s (s.freeing k a m l₀) := by
    refine ⟨rfl, rfl, rfl, rfl, fun j => ?_⟩
    by_cases hj : j = k
    · subst hj
      exact ⟨{ (s.itable j).d with addrs := a }, by simp [State.freeing]⟩
    · exact ⟨(s.itable j).d, by simp [State.freeing, hj]⟩
  have hself : (((s.freeing k a m l₀).fields k f).itable k).d = { (s.itable k).d with addrs := a, size := 0 } := by
    rw [fields_self, hf]
    simp [State.freeing]
  have hdi : ((s.freeing k a m l₀).fields k f).eff k =
      update s.dinode (s.itable k).inum { (s.itable k).d with addrs := a, size := 0 } := by
    unfold State.eff
    rw [hself, (trans_of Frame hfree fields_frame : Frame s ((s.freeing k a m l₀).fields k f)).inum k]
    rfl
  have hslots : slots (((s.freeing k a m l₀).fields k f).eff k) s.data =
      clear (s.slotsAt k) (s.itable k).inum fun _ => true := by
    unfold State.slotsAt
    rw [hdi, h.eff_eq hk, slots_clear ha0]
  have hframe : Frame s (((s.freeing k a m l₀).fields k f).flushed k l) :=
    trans_of Frame (trans_of Frame hfree fields_frame) flushed_frame
  have hothers : ∀ j, j ≠ k → (((s.freeing k a m l₀).fields k f).flushed k l).itable j = s.itable j := fun j hj =>
    (fields_of_ne hj).trans (update_of_ne hj ..)
  have hdi' : (((s.freeing k a m l₀).fields k f).flushed k l).dinode = ((s.freeing k a m l₀).fields k f).eff k := rfl
  have hself' : ((((s.freeing k a m l₀).fields k f).flushed k l).itable k).d = _ := hself
  have hdata : (((s.freeing k a m l₀).fields k f).flushed k l).data = s.data := rfl
  have hmap : (((s.freeing k a m l₀).fields k f).flushed k l).bitmap = (s.freeing k a m l₀).bitmap := rfl
  generalize ((s.freeing k a m l₀).fields k f).flushed k l = w at hframe hothers hdi' hself' hdata hmap ⊢
  rw [hdi] at hdi' hslots
  refine ⟨⟨?_, ?_, fun b hb => ?_, fun i hi => ?_, fun i n hi hn => ?_, fun j hj => ?_,
    fun j j' hj hj' heq => ?_, fun j hj hv => ?_⟩, hframe, hothers, fun i hi => ?_, ⟨a, ?_, ha0⟩, hdata⟩
  · rw [hframe.sb]
    exact h.size_lt
  · rw [hdi', hdata, hslots, hmap, hframe.sb]
    exact hF.owns
  · rw [hmap]
    exact hF.reserved b (by rwa [hframe.sb] at hb)
  · rw [hdi'] at hi ⊢
    by_cases hik : i = (s.itable k).inum
    · subst hik
      rw [update_self]
      exact Nat.zero_le _
    · rw [update_of_ne hik] at hi ⊢
      exact h.small i hi
  · rw [hdi'] at hi hn ⊢
    rw [hdata, hslots]
    by_cases hik : i = (s.itable k).inum
    · subst hik
      rw [update_self] at hn
      exact absurd hn (Nat.not_lt_zero _)
    · rw [update_of_ne hik] at hi hn
      rw [clear, if_neg fun hc => hik hc.1, State.slotsAt, h.eff_eq hk]
      exact h.filled i n hi hn
  · rw [hframe.ref] at hj
    rw [hframe.dev]
    exact h.dev j hj
  · rw [hframe.ref] at hj hj'
    rw [hframe.inum, hframe.inum] at heq
    exact h.uniq j j' hj hj' heq
  · rw [hframe.ref] at hj
    rw [hframe.valid] at hv
    rw [hframe.inum, hdi']
    by_cases hjk : j = k
    · subst hjk
      rw [update_self, hself']
      refine ⟨rfl, ?_⟩
      show (s.itable j).d.type ≠ 0
      rwa [hd]
    · have hne : (s.itable j).inum ≠ (s.itable k).inum := fun heq => hjk (h.uniq j k hj hk.1 heq)
      rw [update_of_ne hne, hothers j hjk]
      exact h.sync j hj hv
  · rw [hdi', update_of_ne hi]
  · rw [hdi', update_self, hd]

/-- **`itrunc` gives back every block of the inode.** -/
theorem itrunc_spec (h : Disk s.dinode s) (hk : Live s k) : Sat (itrunc k) s (fun _ t => Truncated k s t) LogErr := by
  have hd := h.sync k hk.1 hk.2
  have ht : (s.itable k).d.type ≠ 0 := by
    rw [hd.1]
    exact hd.2
  have hstart : Freeing k (fun _ => false) s s := by
    refine ⟨⟨(s.itable k).d.addrs, s.bitmap, s.logged, ?_, fun _ _ => rfl⟩, ?_, h.reserved⟩
    · unfold State.freeing
      rw [update_eq_self]
    · have hclear : clear (s.slotsAt k) (s.itable k).inum (fun _ => false) = s.slotsAt k := by
        funext p
        exact if_neg fun hc => Bool.false_ne_true hc.2
      rw [hclear, State.slotsAt, h.eff_eq hk]
      exact h.owns
  unfold itrunc
  refine (freeDirect_spec hstart ht).bind fun _ u hu => ?_
  refine (freeIndirect_spec hu ht).bind fun _ u hu => ?_
  rw [sat_bind, sat_setFields]
  refine iupdate_spec.imp fun _ t htrunc => ?_
  obtain ⟨l, rfl⟩ := htrunc
  exact hu.truncated h hk rfl

end Xv6Armv8.Fs

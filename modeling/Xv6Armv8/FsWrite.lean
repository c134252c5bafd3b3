import Xv6Armv8.FsConsistent
import Xv6Armv8.FsLog

/-! Where a `writei` stops. The bytes that it reports are in the file; if the source faults in the middle of a
chunk, the bytes before the fault are in the cached block too, and this block is not logged. -/

namespace Xv6Armv8.Fs

open Spec Alloc StepRun Function Option

variable {s t u v : State} {k i b bn off n tot p : Nat} {src : Nat → Option UInt8} {r : Nat × Nat}

/-! ### The blocks that bmap logs -/

/-- A block that is new in the log is metadata, was free, or is one of `A`. -/
structure Noted (A : Nat → Prop) (s t : State) : Prop where
  sb : t.sb = s.sb
  bits : ∀ x, t.bitmap x = false → s.bitmap x = false
  logged : ∀ x ∈ t.logged, x ∈ s.logged ∨ x < s.sb.datastart ∨ s.bitmap x = false ∨ A x

variable {A : Nat → Prop}

instance : Std.Refl (Noted A) where
  refl _ := ⟨rfl, fun _ h => h, fun _ h => .inl h⟩

theorem Noted.trans (h : Noted A s t) (h' : Noted A t u) : Noted A s u where
  sb := h'.sb.trans h.sb
  bits := fun x hx => h.bits x (h'.bits x hx)
  logged := by
    intro x hx
    rcases h'.logged x hx with hx | hx | hx | hx
    · exact h.logged x hx
    · rw [h.sb] at hx
      exact .inr (.inl hx)
    · exact .inr (.inr (.inl (h.bits x hx)))
    · exact .inr (.inr (.inr hx))

instance : IsTrans State (Noted A) where
  trans _ _ _ := Noted.trans

theorem Noted.weaken {B : Nat → Prop} (h : Noted A s t) (hA : ∀ x, A x → s.bitmap x = false ∨ B x) : Noted B s t where
  sb := h.sb
  bits := h.bits
  logged := by
    intro x hx
    rcases h.logged x hx with hx | hx | hx | hx
    · exact .inl hx
    · exact .inr (.inl hx)
    · exact .inr (.inr (.inl hx))
    · exact .inr (.inr (hA x hx))

theorem setFields_noted {f : Dinode → Dinode} : Keeps (Noted A) (fun _ => True) (setFields k f) :=
  .modify fun _ => ⟨rfl, fun _ h => h, fun _ h => .inl h⟩

theorem setBlock_noted {f : ByteStore → ByteStore} : Keeps (Noted A) (fun _ => True) (setBlock b f) :=
  .modify fun _ => ⟨rfl, fun _ h => h, fun _ h => .inl h⟩

theorem logWrite_noted (hb : A b) : Keeps (Noted A) (fun _ => True) (logWrite b) := fun s =>
  logWrite_exact.mono (fun _ t ht => by
    rw [ht]
    refine ⟨rfl, fun _ h => h, fun x hx => ?_⟩
    rcases of_mem_log hx with rfl | hx
    · exact .inr (.inr (.inr hb))
    · exact .inl hx) fun _ _ => trivial

theorem bblock_lt {sb : Superblock} (hb : b < sb.size) : sb.bblock b < sb.datastart := by
  have hdiv : b / bpb ≤ sb.size / bpb := Nat.div_le_div_right hb.le
  unfold Superblock.bblock Superblock.datastart
  omega

theorem balloc_noted (A : Nat → Prop) (s : State) :
    Sat balloc s (fun r t => Noted A s t ∧ (r = 0 ∨ s.bitmap r = false)) fun _ => True := by
  unfold balloc setBit bzero setBlock
  rw [sat_bind, sat_get]
  cases hfind : (List.range s.sb.size).find? fun b => s.bitmap b = false with
  | none => exact ⟨refl_of (Noted A) s, .inl rfl⟩
  | some b =>
    have hfree : s.bitmap b = false := by simpa using List.find?_some hfind
    have hlt : b < s.sb.size := List.mem_range.mp (List.mem_of_find?_eq_some hfind)
    dsimp only
    rw [sat_bind, sat_modify, sat_bind]
    refine logWrite_exact.mono (fun _ t ht => ?_) fun _ _ => trivial
    rw [sat_bind, sat_bind, sat_modify]
    refine logWrite_exact.mono (fun _ u hu => ?_) fun _ _ => trivial
    rw [sat_pure, hu]
    refine ⟨⟨by rw [ht]; rfl, fun x hx => ?_, fun x hx => ?_⟩, .inr hfree⟩
    · by_cases hxb : x = b
      · rw [hxb]
        exact hfree
      · have hsame : t.bitmap x = s.bitmap x := by
          rw [ht]
          exact update_of_ne hxb ..
        exact hsame.symm.trans hx
    · rcases of_mem_log hx with rfl | hx
      · exact .inr (.inr (.inl hfree))
      · rw [ht] at hx
        rcases of_mem_log hx with rfl | hx
        · exact .inr (.inl (bblock_lt hlt))
        · exact .inl hx

theorem addrsEntry_noted (A : Nat → Prop) (s : State) : Sat (addrsEntry k i) s
    (fun r t => Noted A s t ∧ (r = 0 ∨ s.bitmap r = false ∨ r = (s.itable k).d.addrs i)) fun _ => True := by
  unfold addrsEntry
  rw [sat_bind, sat_get, sat_ite]
  refine ⟨fun _ => ?_, fun _ => ⟨refl_of (Noted A) s, .inr (.inr rfl)⟩⟩
  refine (balloc_noted A s).bind fun b t ht => ?_
  rw [sat_ite]
  refine ⟨fun _ => ⟨ht.1, .inl rfl⟩, fun _ => ?_⟩
  refine (setFields_noted (A := A) t).bind fun _ u hu => ?_
  exact ⟨ht.1.trans hu, ht.2.imp_right .inl⟩

theorem indirectEntry_noted {ind j : Nat} (hind : A ind) : Keeps (Noted A) (fun _ => True) (indirectEntry ind j) :=
  .bind .get fun _ => .ite
    (.bind (fun s => (balloc_noted A s).imp fun _ _ ht => ht.1) fun _ => .ite .pure
      (.bind setBlock_noted fun _ => .bind (logWrite_noted hind) fun _ => .pure)) .pure

theorem bmap_noted (s : State) :
    Sat (bmap k bn) s (fun _ t => Noted (· = (s.itable k).d.addrs ndirect) s t) fun _ => True := by
  generalize haddr : (s.itable k).d.addrs ndirect = a
  unfold bmap
  rw [sat_ite]
  refine ⟨fun _ => (addrsEntry_noted (· = a) s).imp fun _ _ ht => ht.1, fun _ => ?_⟩
  rw [sat_ite]
  refine ⟨fun _ => ?_, fun _ => trivial⟩
  refine (addrsEntry_noted (· = a) s).bind fun ind t ht => ?_
  obtain ⟨ht, hind⟩ := ht
  rw [haddr] at hind
  rw [sat_ite]
  refine ⟨fun _ => ht, fun h0 => ?_⟩
  refine (indirectEntry_noted (A := fun x => x = a ∨ x = ind) (.inr rfl) t).imp fun _ u hu => ?_
  have hfirst : Noted (fun x => x = a ∨ x = ind) s t := ht.weaken fun x hx => .inr (.inl hx)
  -- an indirect block that is not the old one was free
  refine (hfirst.trans hu).weaken fun x hx => ?_
  rcases hx with hx | rfl
  · exact .inr hx
  · exact hind.resolve_left h0

theorem Noted.quiet {q : Nat × Nat} (h : Noted (· = (s.itable k).d.addrs ndirect) s t) (hs : Disk (s.eff k) s)
    (hk : Live s k) (h0 : s.slotsAt k q ≠ 0) (hq : q.2 ≠ ndirect) (hmem : s.slotsAt k q ∈ t.logged) :
    s.slotsAt k q ∈ s.logged := by
  rcases h.logged _ hmem with hx | hx | hx | hx
  · exact hx
  · exact absurd (hs.owns.area q h0).1 (not_le.mpr hx)
  · exact absurd (hx.symm.trans (hs.owns.marked h0)) Bool.false_ne_true
  · have htype : (s.eff k (s.itable k).inum).type ≠ 0 := by
      rw [eff_self]
      exact hs.type_ne hk
    have hind : s.slotsAt k ((s.itable k).inum, ndirect) = s.slotsAt k q := by
      rw [hx]
      exact (slots_indirect htype).trans (by rw [eff_self])
    have heq : ((s.itable k).inum, ndirect) = q := hs.owns.inj _ q hind fun hz => h0 (hind.symm.trans hz)
    exact absurd (congrArg Prod.snd heq).symm hq

/-! ### Where the loop stops -/

theorem put_nil (m : ByteStore) (o : Nat) : m.put o [] = m := by
  funext x
  refine put_of_not_mem ?_
  rw [List.length_nil]
  exact Nat.lt_or_ge x o

theorem withPut_logs {o : Nat} {bs : List UInt8} : Logs s (s.withPut b o bs (s.log b).logged) := by
  refine ⟨rfl, fun _ => sub_log, fun x hx => ?_, fun _ h => absurd rfl h, fun _ h => absurd rfl h,
    fun _ h h' => absurd (h.symm.trans h') Bool.false_ne_true⟩
  have heq : x = b := by
    by_contra hne
    exact hx (update_of_ne hne ..)
  rw [heq]
  exact mem_log

/-- How a copying loop of `writei` stops: `p` bytes of a chunk that was not finished are in the block. -/
structure Stopped (k : Nat) (src : Nat → Option UInt8) (n tot off : Nat) (s : State) (r : Nat × Nat) (p : Nat)
    (t : State) : Prop where
  disk : Disk (t.eff k) t
  le : tot ≤ r.1 ∧ r.1 + p ≤ n ∧ r.2 = off + (r.1 - tot)
  wrote : Wrote k off (r.2 + p) s t
  start : r.1 < n → r.1 = tot ∨ r.2 % bsize = 0
  read : ∀ j, tot ≤ j → j < r.1 + p → src j ≠ none
  part : ∀ j, j < p → src (r.1 + j) = some (t.byteAt k (r.2 + j))
  cut : p ≠ 0 → r.1 + p < n ∧ r.2 % bsize + p < bsize ∧ t.slotsAt k ((s.itable k).inum, place (r.2 / bsize)) ≠ 0
  stop : r.1 < n → src (r.1 + p) = none ∨ p = 0 ∧ (∀ x, x < t.sb.size → t.bitmap x = true) ∧
    t.slotsAt k ((s.itable k).inum, place (r.2 / bsize)) = 0
  /-- The state without the part of a chunk. -/
  logs : ∃ v, Logs s v ∧ v.logged = t.logged ∧ v.dinode = t.dinode ∧ v.bitmap = t.bitmap ∧ (p = 0 → v.data = t.data) ∧
    ∀ b, b ≠ t.slotsAt k ((s.itable k).inum, place (r.2 / bsize)) → v.data b = t.data b
  /-- A block of the contents that is not written to is not logged. -/
  quiet : ∀ q, s.slotsAt k q ≠ 0 → q.2 ≠ ndirect →
    (∀ y, off ≤ y → y < r.2 → q ≠ ((s.itable k).inum, place (y / bsize))) →
    s.slotsAt k q ∈ t.logged → s.slotsAt k q ∈ s.logged
  news : ∀ q, t.slotsAt k q ≠ 0 → s.slotsAt k q ≠ 0 ∨ q.2 = ndirect ∨
    ∃ y, off ≤ y ∧ y ≤ r.2 ∧ q = ((s.itable k).inum, place (y / bsize))

theorem Stopped.idle (hd : Disk (t.eff k) t) (hw : Wrote k off off s t) (htot : tot ≤ n) (hlogs : Logs s t)
    (hquiet : ∀ q, s.slotsAt k q ≠ 0 → q.2 ≠ ndirect → s.slotsAt k q ∈ t.logged → s.slotsAt k q ∈ s.logged)
    (hstop : tot < n → (∀ x, x < t.sb.size → t.bitmap x = true) ∧
      t.slotsAt k ((s.itable k).inum, place (off / bsize)) = 0)
    (hnews : ∀ q, t.slotsAt k q ≠ 0 → s.slotsAt k q ≠ 0 ∨ q = ((s.itable k).inum, place (off / bsize)) ∨ q.2 = ndirect) :
    Stopped k src n tot off s (tot, off) 0 t where
  disk := hd
  le := ⟨le_rfl, htot, by simp⟩
  wrote := hw
  start := fun _ => .inl rfl
  read := fun j h1 h2 => absurd h1 (not_le.mpr h2)
  part := fun j hj => absurd hj (Nat.not_lt_zero j)
  cut := fun h => absurd rfl h
  stop := fun hlt => .inr ⟨rfl, hstop hlt⟩
  logs := ⟨t, hlogs, rfl, rfl, rfl, fun _ => rfl, fun _ _ => rfl⟩
  quiet := fun q h0 hne _ => hquiet q h0 hne
  news := fun q hq => (hnews q hq).imp id fun h => h.symm.imp id fun heq => ⟨off, le_rfl, le_rfl, heq⟩

theorem Stopped.cons {m : Nat} (hm : 0 < m) (hle : tot + m ≤ n) (hw : Wrote k off (off + m) s t) (hlogs : Logs s t)
    (hend : tot + m < n → (off + m) % bsize = 0) (hread : ∀ j, tot ≤ j → j < tot + m → src j ≠ none)
    (hquiet : ∀ q, s.slotsAt k q ≠ 0 → q.2 ≠ ndirect → q ≠ ((s.itable k).inum, place (off / bsize)) →
      s.slotsAt k q ∈ t.logged → s.slotsAt k q ∈ s.logged)
    (hnews : ∀ q, t.slotsAt k q ≠ 0 → s.slotsAt k q ≠ 0 ∨ q = ((s.itable k).inum, place (off / bsize)) ∨ q.2 = ndirect)
    (h : Stopped k src n (tot + m) (off + m) t r p u) : Stopped k src n tot off s r p u := by
  obtain ⟨h1, h2, h3⟩ := h.le
  have hinum := hw.frame.inum k
  refine ⟨h.disk, ⟨by omega, h2, by omega⟩, hw.trans h.wrote (by omega) (by omega), fun hlt => ?_, fun j hj hj' => ?_,
    h.part, fun hp => ?_, fun hlt => (h.stop hlt).imp id fun hs => ⟨hs.1, hs.2.1, ?_⟩, ?_,
    fun q h0 hne hout hmem => ?_, fun q hq => ?_⟩
  · rcases h.start hlt with heq | hz
    · have hr : r.2 = off + m := by omega
      rw [hr]
      exact .inr (hend (by omega))
    · exact .inr hz
  · by_cases hlt : j < tot + m
    · exact hread j hj hlt
    · exact h.read j (by omega) hj'
  · rw [← hinum]
    exact h.cut hp
  · rw [← hinum]
    exact hs.2.2
  · obtain ⟨v, hv, hrest⟩ := h.logs
    rw [hinum] at hrest
    exact ⟨v, hlogs.trans hv, hrest⟩
  · have hkeep := hw.slots q h0
    have hq0 : t.slotsAt k q ≠ 0 := by rwa [hkeep]
    have hmem' : t.slotsAt k q ∈ t.logged := by
      apply h.quiet q hq0 hne
      · intro y hy hy'
        rw [hinum]
        exact hout y (by omega) hy'
      · rwa [hkeep]
    rw [hkeep] at hmem'
    exact hquiet q h0 hne (hout off le_rfl (by omega)) hmem'
  · rcases h.news q hq with ht | hind | ⟨y, hy, hy', heq⟩
    · rcases hnews q ht with hs | heq | hind
      · exact .inl hs
      · exact .inr (.inr ⟨off, le_rfl, by omega, heq⟩)
      · exact .inr (.inl hind)
    · exact .inr (.inl hind)
    · rw [hinum] at heq
      exact .inr (.inr ⟨y, by omega, hy', heq⟩)

theorem writeiLoop_stopped (turns : Nat) : ∀ tot off s, n - tot ≤ turns → tot ≤ n →
    off + (n - tot) ≤ maxfile * bsize → Disk (s.eff k) s → Live s k →
    Sat (writeiLoop k src n turns tot off) s (fun r t => ∃ p, Stopped k src n tot off s r p t) LogErr := by
  induction turns with
  | zero =>
    intro tot off s hturns htot _ hd _
    exact ⟨0, .idle hd (Wrote.refl ..) htot (refl_of Logs s) (fun _ _ _ h => h) (fun hlt => by omega) fun _ => .inl⟩
  | succ turns ih =>
    intro tot off s hturns htot hmax hd hk
    unfold writeiLoop
    rw [sat_ite]
    refine ⟨fun hlt => ?_, fun hge => ⟨0, .idle hd (Wrote.refl ..) htot (refl_of Logs s) (fun _ _ _ h => h)
      (fun hlt => absurd hlt hge) fun _ => .inl⟩⟩
    have hbn : off / bsize < maxfile := Nat.div_lt_of_lt_mul (by rw [Nat.mul_comm]; omega)
    have hbmap := (bmap_spec hd hk hbn).and ((bmap_logs (k := k) s).and (bmap_noted s))
    rw [sat_bind]
    refine hbmap.mono (fun b t ht => ?_) fun _ he => he.1
    obtain ⟨ht, hlogs, hnoted⟩ := ht
    have hquiet : ∀ q, s.slotsAt k q ≠ 0 → q.2 ≠ ndirect → s.slotsAt k q ∈ t.logged → s.slotsAt k q ∈ s.logged :=
      fun q h0 hne hmem => hnoted.quiet hd hk h0 hne hmem
    rw [sat_ite]
    refine ⟨fun hb => ⟨0, .idle ht.disk (ht.grown.wrote ..) htot hlogs hquiet (fun _ => ht.full hb) ht.only⟩,
      fun hb => ?_⟩
    generalize hm : min (n - tot) (bsize - off % bsize) = m
    have hmod := Nat.mod_lt off (show 0 < bsize by decide)
    have hm1 : m ≤ n - tot := by rw [← hm]; exact Nat.min_le_left ..
    have hm2 : m ≤ bsize - off % bsize := by rw [← hm]; exact Nat.min_le_right ..
    have hm0 : 0 < m := by omega
    obtain ⟨hlen, hget, hnone⟩ := srcBytes_spec src tot m
    generalize hbs : srcBytes src tot m = bs at hlen hget hnone
    have hheld : t.slotsAt k ((t.itable k).inum, place (off / bsize)) = b := by
      rw [ht.grown.frame.inum k]
      exact ht.held hb
    have hput : ∀ l, Wrote k off (off + bs.length) s (t.withPut b (off % bsize) bs l) := fun l =>
      (ht.grown.wrote off off).trans (wrote_put ht.disk rfl hheld hb (by omega)) le_rfl (by omega)
    have hslots : ∀ l, (t.withPut b (off % bsize) bs l).slotsAt k = t.slotsAt k := fun l => (ht.disk.put hheld hb).2
    have hreadable : ∀ j, tot ≤ j → j < tot + bs.length → src j ≠ none := by
      intro j hj hj' h0
      have hsome := hget (j - tot) (by omega)
      rw [Nat.add_sub_cancel' hj, h0] at hsome
      cases hsome
    dsimp only
    unfold setBlock
    rw [sat_bind, sat_modify, hbs, sat_ite]
    constructor
    · intro hpart
      -- the source faults in this chunk
      refine ⟨bs.length, ?_⟩
      show Stopped k src n tot off s (tot, off) bs.length (t.withPut b (off % bsize) bs t.logged)
      have hinum := ht.grown.frame.inum k
      have hblock : ∀ l, (t.withPut b (off % bsize) bs l).slotsAt k ((s.itable k).inum, place (off / bsize)) = b := by
        intro l
        rw [hslots, ← hinum, hheld]
      refine ⟨(ht.disk.put hheld hb).1, ⟨le_rfl, by omega, by simp⟩, hput t.logged, fun _ => .inl rfl, hreadable,
        fun j hj => ?_, fun _ => ⟨by dsimp only; omega, by dsimp only; omega, by rw [hblock]; exact hb⟩,
        fun _ => .inl (hnone hpart), ?_, fun q h0 hne _ => hquiet q h0 hne, fun q hq => ?_⟩
      · rw [hget j hj]
        exact congrArg some (byteAt_withPut ht.disk hheld hb (by omega) hj).symm
      · refine ⟨t, hlogs, rfl, rfl, rfl, fun h0 => ?_, fun x hx => ?_⟩
        · show t.data = update t.data b _
          rw [List.length_eq_zero_iff.mp h0, put_nil, update_eq_self]
        · rw [hblock] at hx
          exact (update_of_ne hx ..).symm
      · rw [hslots] at hq
        exact (ht.only q hq).imp id fun h => h.symm.imp id fun heq => ⟨off, le_rfl, le_rfl, heq⟩
    · intro hall
      have hlen' : bs.length = m := by omega
      rw [sat_bind]
      refine logWrite_exact.imp fun _ u hu => ?_
      rw [show u = t.withPut b (off % bsize) bs (t.log b).logged from hu]
      have hw := hput (t.log b).logged
      rw [hlen'] at hw hreadable
      refine (ih (tot + m) (off + m) (t.withPut b (off % bsize) bs (t.log b).logged) (by omega) (by omega)
        (by omega) (ht.disk.put hheld hb).1 (hk.frame hw.frame)).imp fun r v hv => ?_
      obtain ⟨p, hv⟩ := hv
      refine ⟨p, hv.cons hm0 (by omega) hw (hlogs.trans withPut_logs) (fun hlt => ?_) hreadable
        (fun q h0 hne hout hmem => ?_) fun q hq => ht.only q (by rwa [hslots] at hq)⟩
      · have hfull : m = bsize - off % bsize := by omega
        unfold bsize at *
        omega
      · rcases of_mem_log hmem with heq | hmem
        · -- the block of this chunk belongs to no other place
          have hkeep : t.slotsAt k q = b := ((ht.grown.keep q h0).1).trans heq
          rw [ht.grown.frame.inum k] at hheld
          exact absurd (ht.disk.owns.inj q _ (hkeep.trans hheld.symm) fun hz => hb (hkeep.symm.trans hz)) hout
        · exact hquiet q h0 hne hmem

/-! ### What a write leaves behind -/

/-- `writei` does not turn the arguments down. -/
def Accepts (s : State) (k off n : Nat) : Prop :=
  off ≤ (s.itable k).d.size ∧ off ≤ u32 (off + n) ∧ off + n ≤ maxfile * bsize

theorem iupdate_exact : Sat (iupdate k) s
    (fun _ t => t = s.flushed k (s.log (s.sb.iblock (s.itable k).inum)).logged) LogErr := by
  unfold iupdate
  rw [sat_bind, sat_get, sat_bind, sat_modify]
  exact logWrite_exact

/-- The state after a write that stopped in `u` at the offset `e`. -/
def State.ended (u : State) (k e : Nat) : State :=
  let v := u.fields k fun d => { d with size := if d.size < e then e else d.size }
  v.flushed k (v.log (v.sb.iblock (v.itable k).inum)).logged

/-- **Where `writei` stops**: it turns the arguments down, or its loop stops and the inode is updated. -/
theorem writei_stopped (h : Disk s.dinode s) (hk : Live s k) :
    Sat (writei k src off n) s (fun r t => (r = -1 ∧ t = s ∧ ¬Accepts s k off n) ∨
      (Accepts s k off n ∧ ∃ (m : Nat) (e p : Nat) (u : State), r = m ∧ Stopped k src n 0 off s (m, e) p u ∧
        WriteEnd k src n 0 off s (m, e) u ∧ t = u.ended k e)) LogErr := by
  unfold writei
  rw [sat_bind, sat_get]
  dsimp only
  rw [sat_ite]
  refine ⟨fun hbad => .inl ⟨rfl, rfl, fun hacc => ?_⟩, fun hoff => ?_⟩
  · have h1 := hacc.1
    have h2 := hacc.2.1
    omega
  rw [sat_ite]
  refine ⟨fun hbad => .inl ⟨rfl, rfl, fun hacc => absurd hacc.2.2 (not_le.mpr hbad)⟩, fun hmax => ?_⟩
  have hacc : Accepts s k off n := ⟨by omega, by omega, by omega⟩
  obtain ⟨hd, ht⟩ := h.sync k hk.1 hk.2
  have heff := h.eff_eq hk
  have hdisk : Disk (s.eff k) s := by rwa [heff]
  have hbelow : ∀ x, x * bsize < off → s.slotsAt k ((s.itable k).inum, place x) ≠ 0 := by
    intro x hx
    unfold State.slotsAt
    rw [heff]
    refine h.filled _ _ ht ?_
    rw [← hd]
    omega
  have hends : Sat (writeiLoop k src n n 0 off) s (fun r u => WriteEnd k src n 0 off s r u) LogErr :=
    writeiLoop_spec n 0 off s (by omega) (Nat.zero_le _) (by omega) hdisk hk hbelow
  have hstops : Sat (writeiLoop k src n n 0 off) s (fun r u => ∃ p, Stopped k src n 0 off s r p u) LogErr :=
    writeiLoop_stopped n 0 off s (by omega) (Nat.zero_le _) (by omega) hdisk hk
  refine ((hends.and hstops).err fun he => he.1).bind fun r u hu => ?_
  obtain ⟨hend, p, hstop⟩ := hu
  rw [sat_bind, sat_setFields, sat_bind]
  refine iupdate_exact.imp fun _ t hu => ?_
  exact .inr ⟨hacc, r.1, r.2, p, u, rfl, hstop, hend, hu⟩

theorem slotsAt_fields {f : Dinode → Dinode} (ha : ∀ d, (f d).addrs = d.addrs) (ht : ∀ d, (f d).type = d.type) :
    (s.fields k f).slotsAt k = s.slotsAt k := by
  funext q
  unfold State.slotsAt slots
  rw [eff_fields]
  show slot s.data _ q.2 = _
  by_cases hi : q.1 = (s.itable k).inum
  · rw [hi, update_self, eff_self]
    exact slot_fields (ha _) (ht _) _
  · rw [update_of_ne hi]

variable {e p : Nat} {img : Image}

theorem ended_slots : slots (u.ended k e).dinode (u.ended k e).data = u.slotsAt k :=
  (flushed_slots (s := u.fields k _)).trans (slotsAt_fields (fun _ => rfl) fun _ => rfl)

theorem ended_byteOf {x : Nat} : (u.ended k e).byteOf (u.itable k).inum x = u.byteAt k x := by
  unfold State.byteOf State.byteAt
  rw [ended_slots]
  rfl

theorem mem_ended : b ∈ (u.ended k e).logged ↔ b = u.sb.iblock (u.itable k).inum ∨ b ∈ u.logged := by
  have hinum : ((u.fields k fun d => { d with size := if d.size < e then e else d.size }).itable k).inum =
      (u.itable k).inum := fields_frame.inum k
  have heq : (u.ended k e).logged = (u.log (u.sb.iblock (u.itable k).inum)).logged := by
    rw [← hinum]
    rfl
  rw [heq]
  refine ⟨of_mem_log, fun h => ?_⟩
  rcases h with rfl | h
  · exact mem_log
  · exact sub_log h

/-- What `readi` finds at an offset of the file of entry `k`. -/
def State.readByte (s : State) (k x : Nat) : Option UInt8 :=
  match readi k (fun _ => true) x 1 s with
  | .ok (r, _) => r.2.head?
  | .error _ => none

theorem readByte_eq {x : Nat} (h : Disk s.dinode s) (hk : Live s k) :
    s.readByte k x = if x < (s.itable k).d.size then some (s.byteOf (s.itable k).inum x) else none := by
  obtain ⟨hd, ht⟩ := h.sync k hk.1 hk.2
  have hsmall : (s.itable k).d.size ≤ maxfile * bsize := by
    rw [hd]
    exact h.small _ ht
  have hspec : Sat (readi k (fun _ => true) x 1) s _ _ := readi_spec h hk
  obtain ⟨⟨r, bs⟩, t, heq, -, hread⟩ := hspec.ok
  unfold State.readByte
  rw [heq]
  dsimp only at hread ⊢
  cases hread with
  | all _ =>
    by_cases hx : x < (s.itable k).d.size
    · have hcount : readCount (s.itable k).d.size x 1 = 1 := by
        unfold readCount u32 maxfile bsize ndirect nindirect at *
        rw [if_neg (by omega), if_neg (by omega)]
      rw [if_pos hx, hcount]
      simp [State.bytesOf]
    · have hcount : readCount (s.itable k).d.size x 1 = 0 := by
        unfold readCount
        split
        · rfl
        · rw [if_pos (by omega)]
          omega
      rw [if_neg hx, hcount]
      simp [State.bytesOf]
  | fault _ _ _ hbad _ => cases hbad

/-- Every block that is not in the log is as it is on the disk `img`. -/
structure Clean (img : Image) (s : State) : Prop where
  data : ∀ b, b ∉ s.logged → ∀ x, x < bsize → s.data b x = img.data b x
  inode : ∀ i, s.sb.iblock i ∉ s.logged → s.dinode i = img.dinode i
  bitmap : ∀ b, s.sb.bblock b ∉ s.logged → s.bitmap b = img.bitmap b

/-- The block of the contents of inode `i` with the number `c`. -/
def State.blockOf (s : State) (i c : Nat) : Nat := slots s.dinode s.data (i, place c)

/-- The blocks of the file of entry `k` are the first ones. -/
def Dense (s : State) (k : Nat) : Prop :=
  ∀ x y, x ≤ y → s.blockOf (s.itable k).inum y ≠ 0 → s.blockOf (s.itable k).inum x ≠ 0

/-- The bytes of the source before the first that cannot be read, and in the same block of the file, are in
the file already; beyond the end of the file any bytes will do in a block that is in the log. -/
def Traceless (src : Nat → Option UInt8) (k off n : Nat) (s : State) : Prop :=
  Accepts s k off n → ∀ f, f < n → src f = none → (∀ j, j < f → src j ≠ none) →
    s.blockOf (s.itable k).inum ((off + f) / bsize) ≠ 0 → ∀ j, j < f → (off + j) / bsize = (off + f) / bsize →
      src j = some (s.byteOf (s.itable k).inum (off + j)) ∨
        ((s.itable k).d.size ≤ off + j ∧ s.blockOf (s.itable k).inum ((off + f) / bsize) ∈ s.logged)

/-- A write that returned `r` has changed no more than it says. -/
structure Faithful (img : Image) (k off : Nat) (s : State) (r : Int) (t : State) : Prop where
  bytes : ∀ x, x < off ∨ off + r.toNat ≤ x → t.readByte k x = s.readByte k x
  clean : Clean img t

theorem Logs.clean (h : Logs s t) (hc : Clean img s) : Clean img t where
  data := by
    intro b hb x hx
    have hsame : t.data b = s.data b := by
      by_contra hne
      exact hb (h.data b hne)
    rw [hsame]
    exact hc.data b (fun hs => hb (h.sub b hs)) x hx
  inode := by
    intro i hi
    rw [h.sb] at hi
    have hsame : t.dinode i = s.dinode i := by
      by_contra hne
      exact hi (h.inode i hne)
    rw [hsame]
    exact hc.inode i fun hs => hi (h.sub _ hs)
  bitmap := by
    intro b hb
    rw [h.sb] at hb
    have hsame : t.bitmap b = s.bitmap b := by
      by_contra hne
      exact hb (h.bitmap b hne)
    rw [hsame]
    exact hc.bitmap b fun hs => hb (h.sub _ hs)

theorem Disk.slotsAt_eq (h : Disk s.dinode s) (hk : Live s k) : s.slotsAt k = slots s.dinode s.data := by
  unfold State.slotsAt
  rw [h.eff_eq hk]

theorem Disk.byteAt_eq {x : Nat} (h : Disk s.dinode s) (hk : Live s k) :
    s.byteAt k x = s.byteOf (s.itable k).inum x := by
  unfold State.byteAt State.byteOf
  rw [h.slotsAt_eq hk]

section Ended

variable {m : Nat}

theorem Stopped.later {y : Nat} (h : Stopped k src n 0 off s (m, e) p u) (hm : m < n) (hy : off ≤ y) (hy' : y < e) :
    y / bsize ≠ e / bsize := by
  have hle : e = off + (m - 0) := h.le.2.2
  have hmod : e % bsize = 0 := by
    rcases h.start hm with h0 | hmod
    · dsimp only at h0
      omega
    · exact hmod
  have h1 := Nat.div_add_mod e bsize
  have h2 := Nat.div_add_mod y bsize
  have h3 := Nat.mod_lt y (show 0 < bsize by decide)
  intro heq
  rw [heq] at h2
  omega

theorem Stopped.chunk {j : Nat} (h : Stopped k src n 0 off s (m, e) p u) (hj : j ≤ p) (hp : p ≠ 0) :
    off + (m + j) = e + j ∧ (e + j) / bsize = e / bsize := by
  have hle : e = off + (m - 0) := h.le.2.2
  obtain ⟨-, hlt, -⟩ := h.cut hp
  dsimp only at hlt
  refine ⟨by omega, ?_⟩
  exact (chunk_div (m := p + 1) (by omega) (by omega)).1

/-- The bytes that are seen are those from before, if those of the chunk that was not finished are. -/
theorem Stopped.bytes_iff (h : Disk s.dinode s) (hk : Live s k) (hacc : Accepts s k off n)
    (hstop : Stopped k src n 0 off s (m, e) p u) (hw : Written k src off n s m (u.ended k e)) :
    (∀ x, x < off ∨ off + m ≤ x → (u.ended k e).readByte k x = s.readByte k x) ↔
      ∀ j, j < p → e + j < (s.itable k).d.size → src (m + j) = some (s.byteOf (s.itable k).inum (e + j)) := by
  have hinum : (u.itable k).inum = (s.itable k).inum := hstop.wrote.frame.inum k
  have hlive : Live (u.ended k e) k := hk.frame hw.frame
  have hsize : ((u.ended k e).itable k).d.size = max (s.itable k).d.size (off + m) := by
    obtain ⟨a, ha⟩ := hw.fields
    rw [(hw.disk.sync k hlive.1 hlive.2).1, hw.frame.inum k, ha]
  have hoff := hacc.1
  have heq : e = off + (m - 0) := hstop.le.2.2
  have hslot : ∀ x, x < (s.itable k).d.size → s.slotsAt k ((s.itable k).inum, place (x / bsize)) ≠ 0 := by
    intro x hx
    rw [h.slotsAt_eq hk]
    exact (bmap_below h hk hx).2
  have hseen : ∀ x, x < off ∨ off + m ≤ x → ((u.ended k e).readByte k x = s.readByte k x ↔
      (x < (s.itable k).d.size → u.byteAt k x = s.byteAt k x)) := by
    intro x hx
    rw [readByte_eq hw.disk hlive, readByte_eq h hk, hsize, hw.frame.inum k, ← hinum, ended_byteOf, hinum,
      ← h.byteAt_eq hk]
    by_cases hlt : x < (s.itable k).d.size
    · rw [if_pos (lt_of_lt_of_le hlt (le_max_left ..)), if_pos hlt, some_inj]
      exact ⟨fun heq _ => heq, fun himp => himp hlt⟩
    · rw [if_neg (by omega), if_neg hlt]
      exact ⟨fun _ hx' => absurd hx' hlt, fun _ => rfl⟩
  constructor
  · intro hsame j hj hlt
    rw [hstop.part j hj, ← h.byteAt_eq hk]
    exact congrArg some ((hseen (e + j) (by omega)).mp (hsame (e + j) (by omega)) hlt)
  · intro hpart x hx
    rw [hseen x hx]
    intro hlt
    by_cases hin : e ≤ x ∧ x < e + p
    · have hj := hpart (x - e) (by omega) (by omega)
      rw [hstop.part (x - e) (by omega), ← h.byteAt_eq hk, Nat.add_sub_cancel' hin.1] at hj
      exact some_inj.mp hj
    · exact hstop.wrote.byteAt (by dsimp only; omega) (hslot x hlt)

theorem Stopped.clean_iff (hc : Clean img s) (hstop : Stopped k src n 0 off s (m, e) p u)
    (hwritten : Written k src off n s m (u.ended k e)) :
    Clean img (u.ended k e) ↔ (p ≠ 0 → u.slotsAt k ((s.itable k).inum, place (e / bsize)) ∉ (u.ended k e).logged →
      ∀ x, x < bsize → u.data (u.slotsAt k ((s.itable k).inum, place (e / bsize))) x =
        img.data (u.slotsAt k ((s.itable k).inum, place (e / bsize))) x) := by
  have hw := hstop.wrote
  have hinum : (u.itable k).inum = (s.itable k).inum := hw.frame.inum k
  obtain ⟨v, hlogs, hlog, hdi, hmap, hdata, hother⟩ := hstop.logs
  have hv : Clean img v := hlogs.clean hc
  have hsub : ∀ x, x ∉ (u.ended k e).logged → x ∉ v.logged := by
    intro x hx hmem
    rw [hlog] at hmem
    exact hx (mem_ended.mpr (.inr hmem))
  constructor
  · intro hclean _ hb x hx
    exact hclean.data _ hb x hx
  · intro hblock
    refine ⟨fun b hb x hx => ?_, fun i hi => ?_, fun b hb => ?_⟩
    · show u.data b x = _
      by_cases hpb : p ≠ 0 ∧ b = u.slotsAt k ((s.itable k).inum, place (e / bsize))
      · rw [hpb.2] at hb ⊢
        exact hblock hpb.1 hb x hx
      · have hsame : v.data b = u.data b := by
          by_cases hp : p = 0
          · rw [hdata hp]
          · exact hother b fun heq => hpb ⟨hp, heq⟩
        rw [← hsame]
        exact hv.data b (hsub b hb) x hx
    · have hne : i ≠ (s.itable k).inum := by
        intro heq
        apply hi
        rw [mem_ended, heq, hinum]
        exact .inl rfl
      have hsb : v.sb = (u.ended k e).sb := hlogs.sb.trans hw.frame.sb.symm
      rw [← hsb] at hi
      rw [← hv.inode i (hsub _ hi), hdi, hw.dinode]
      exact hwritten.inodes i hne
    · have hsb : v.sb = (u.ended k e).sb := hlogs.sb.trans hw.frame.sb.symm
      rw [← hsb] at hb
      rw [← hv.bitmap b (hsub _ hb), hmap]
      rfl

/-- The block of the chunk that was not finished is in the log if and only if it was there before. -/
theorem Stopped.logged_iff (h : Disk s.dinode s) (hk : Live s k)
    (hlayout : s.sb.iblock (s.itable k).inum < s.sb.datastart) (hstop : Stopped k src n 0 off s (m, e) p u)
    (hm : m < n) (h0 : s.slotsAt k ((s.itable k).inum, place (e / bsize)) ≠ 0) :
    s.slotsAt k ((s.itable k).inum, place (e / bsize)) ∈ (u.ended k e).logged ↔
      s.slotsAt k ((s.itable k).inum, place (e / bsize)) ∈ s.logged := by
  have hdisk : Disk (s.eff k) s := by rwa [h.eff_eq hk]
  have hframe := hstop.wrote.frame
  obtain ⟨v, hlogs, hlog, -⟩ := hstop.logs
  rw [mem_ended]
  constructor
  · rintro (heq | hmem)
    · have harea := (hdisk.owns.area _ h0).1
      rw [hframe.inum k, hframe.sb] at heq
      have heq' : slots (s.eff k) s.data ((s.itable k).inum, place (e / bsize)) = s.sb.iblock (s.itable k).inum := heq
      omega
    · refine hstop.quiet _ h0 (place_ne _) (fun y hy hy' heq => ?_) hmem
      exact hstop.later hm hy hy' (place_inj (congrArg Prod.snd heq)).symm
  · intro hmem
    rw [← hlog]
    exact .inr (hlogs.sub _ hmem)

/-- The bytes of the block of the chunk that was not finished, if the file had it before. -/
theorem Stopped.data_eq {x : Nat} (hstop : Stopped k src n 0 off s (m, e) p u) (hp : p ≠ 0)
    (h0 : s.slotsAt k ((s.itable k).inum, place (e / bsize)) ≠ 0)
    (hall : ∀ j, j < p → src (m + j) = some (s.byteAt k (e + j))) (hx : x < bsize) :
    u.data (s.slotsAt k ((s.itable k).inum, place (e / bsize))) x =
      s.data (s.slotsAt k ((s.itable k).inum, place (e / bsize))) x := by
  have hm : m < n := lt_of_le_of_lt (Nat.le_add_right m p) (hstop.cut hp).1
  have hslot := hstop.wrote.slots _ h0
  by_cases hin : ∃ j, j < p ∧ (e + j) % bsize = x
  · obtain ⟨j, hj, hjx⟩ := hin
    have hpart := (hstop.part j hj).symm.trans (hall j hj)
    have hdiv := (hstop.chunk hj.le hp).2
    unfold State.byteAt at hpart
    rw [hstop.wrote.frame.inum k] at hpart
    dsimp only at hpart
    rw [hdiv, hslot, hjx] at hpart
    exact some_inj.mp hpart
  · refine hstop.wrote.bytes _ _ h0 (place_ne _) hx fun y hy hy' heq => hin ?_
    simp only [Prod.mk.injEq, true_and] at heq
    have hdiv : e / bsize = y / bsize := place_inj heq.1
    have hge : e ≤ y := by
      by_contra hlt
      exact hstop.later hm hy (by omega) hdiv.symm
    dsimp only at hy'
    exact ⟨y - e, by omega, by rw [Nat.add_sub_cancel' hge, heq.2]⟩

theorem Stopped.fault (hstop : Stopped k src n 0 off s (m, e) p u) (hp : p ≠ 0) :
    m + p < n ∧ src (m + p) = none ∧ ∀ j, j < m + p → src j ≠ none := by
  have hlt : m + p < n := (hstop.cut hp).1
  refine ⟨hlt, ?_, fun j hj => hstop.read j (Nat.zero_le j) hj⟩
  rcases hstop.stop (by dsimp only; omega) with hnone | ⟨h0, -⟩
  · exact hnone
  · exact absurd h0 hp

theorem Traceless.part (htrace : Traceless src k off n s) (h : Disk s.dinode s) (hk : Live s k)
    (hacc : Accepts s k off n) (hstop : Stopped k src n 0 off s (m, e) p u) (hp : p ≠ 0)
    (h0 : s.slotsAt k ((s.itable k).inum, place (e / bsize)) ≠ 0) {j : Nat} (hj : j < p) :
    src (m + j) = some (s.byteAt k (e + j)) ∨
      ((s.itable k).d.size ≤ e + j ∧ s.slotsAt k ((s.itable k).inum, place (e / bsize)) ∈ s.logged) := by
  obtain ⟨hlt, hnone, hfirst⟩ := hstop.fault hp
  obtain ⟨hend, hdiv⟩ := hstop.chunk le_rfl hp
  obtain ⟨hpos, hdiv'⟩ := hstop.chunk hj.le hp
  have hpart := htrace hacc (m + p) hlt hnone hfirst
  unfold State.blockOf at hpart
  rw [hend, hdiv, ← h.slotsAt_eq hk] at hpart
  have hres := hpart h0 (m + j) (by omega) (by rw [hpos, hdiv'])
  rwa [hpos, ← h.byteAt_eq hk] at hres

section

variable (h : Disk s.dinode s) (hk : Live s k) (hc : Clean img s) (hlayout : s.sb.iblock (s.itable k).inum < s.sb.datastart)
include h hk hc hlayout

theorem Stopped.faithful (hacc : Accepts s k off n)
    (hstop : Stopped k src n 0 off s (m, e) p u) (hw : Written k src off n s m (u.ended k e))
    (htrace : Traceless src k off n s) : Faithful img k off s m (u.ended k e) := by
  refine ⟨(hstop.bytes_iff h hk hacc hw).mpr fun j hj hlt => ?_, (hstop.clean_iff hc hw).mpr fun hp hb x hx => ?_⟩
  · have hp : p ≠ 0 := by omega
    have h0 : s.slotsAt k ((s.itable k).inum, place (e / bsize)) ≠ 0 := by
      have hbelow := (bmap_below h hk hlt).2
      rwa [(hstop.chunk hj.le hp).2, ← h.slotsAt_eq hk] at hbelow
    rcases htrace.part h hk hacc hstop hp h0 hj with hsame | ⟨hge, -⟩
    · rw [hsame, h.byteAt_eq hk]
    · omega
  · have hm : m < n := lt_of_le_of_lt (Nat.le_add_right m p) (hstop.cut hp).1
    by_cases h0 : s.slotsAt k ((s.itable k).inum, place (e / bsize)) = 0
    · -- a block that the file has got is in the log
      obtain ⟨v, hlogs, hlog, -, hmap, -⟩ := hstop.logs
      have hfresh := hlogs.fresh (by rwa [h.eff_eq hk]) hstop.disk hstop.wrote.frame.sb hmap hstop.wrote.slots h0
        (hstop.cut hp).2.2
      rw [hlog] at hfresh
      exact absurd (mem_ended.mpr (.inr hfresh)) hb
    · rw [hstop.wrote.slots _ h0] at hb ⊢
      rw [hstop.logged_iff h hk hlayout hm h0] at hb
      rw [hstop.data_eq hp h0 (fun j hj => ?_) hx]
      · exact hc.data _ hb x hx
      · exact (htrace.part h hk hacc hstop hp h0 hj).resolve_right fun hright => hb hright.2

theorem Stopped.traceless (hdense : Dense s k) (hacc : Accepts s k off n)
    (hstop : Stopped k src n 0 off s (m, e) p u) (hw : Written k src off n s m (u.ended k e))
    (hfaith : Faithful img k off s m (u.ended k e)) : Traceless src k off n s := by
  intro _ f hf hnone hfirst hblock j hj hdiv
  unfold State.blockOf at hblock ⊢
  have hpos : e = off + (m - 0) := hstop.le.2.2
  have hle : m + p ≤ f := by
    by_contra hlt
    exact hstop.read f (Nat.zero_le f) (by dsimp only; omega) hnone
  have hm : m < n := by omega
  -- the loop gets to the byte that cannot be read
  have hreach : m + p = f := by
    by_contra hne
    rcases hstop.stop hm with hbad | ⟨hp0, -, hmiss⟩
    · exact hfirst (m + p) (by omega) hbad
    · have h0 := hdense (e / bsize) ((off + f) / bsize) (Nat.div_le_div_right (by omega)) hblock
      have hslot : s.slotsAt k ((s.itable k).inum, place (e / bsize)) ≠ 0 := by
        rw [h.slotsAt_eq hk]
        exact h0
      exact hslot ((hstop.wrote.slots _ hslot).symm.trans hmiss)
  have hge : m ≤ j := by
    by_contra hlt
    have hend : (off + f) / bsize = e / bsize := by
      by_cases hp : p = 0
      · rw [show off + f = e by omega]
      · rw [← hreach, (hstop.chunk le_rfl hp).1, (hstop.chunk le_rfl hp).2]
    exact hstop.later hm (Nat.le_add_right off j) (by omega) (hdiv.trans hend)
  have hp : p ≠ 0 := by omega
  have hjp : j - m < p := by omega
  have hj' : off + j = e + (j - m) := by omega
  have hend : (off + f) / bsize = e / bsize := by
    rw [← hreach, (hstop.chunk le_rfl hp).1, (hstop.chunk le_rfl hp).2]
  rw [hend, ← h.slotsAt_eq hk] at hblock ⊢
  have hbytes := (hstop.bytes_iff h hk hacc hw).mp hfaith.bytes (j - m) hjp
  rw [Nat.add_sub_cancel' hge, ← hj'] at hbytes
  by_cases hsize : off + j < (s.itable k).d.size
  · exact .inl (hbytes hsize)
  by_cases hlog : s.slotsAt k ((s.itable k).inum, place (e / bsize)) ∈ s.logged
  · exact .inr ⟨by omega, hlog⟩
  · left
    have hclean := (hstop.clean_iff hc hw).mp hfaith.clean hp
    rw [hstop.wrote.slots _ hblock, hstop.logged_iff h hk hlayout hm hblock] at hclean
    have hpart := hstop.part (j - m) hjp
    have hmod := Nat.mod_lt (off + j) (show 0 < bsize by decide)
    unfold State.byteAt at hpart
    dsimp only at hpart
    rw [hstop.wrote.frame.inum k, Nat.add_sub_cancel' hge, ← hj', hdiv, hend, hstop.wrote.slots _ hblock,
      hclean hlog _ hmod, ← hc.data _ hlog _ hmod] at hpart
    rw [hpart, ← h.byteAt_eq hk]
    unfold State.byteAt
    rw [hdiv, hend]

end

end Ended

/-- **A write that fails midway changes nothing beyond what it reports** if and only if the bytes it has copied
to the cached block before the fault make no difference. -/
theorem write_faithful_iff {r : Int} (h : Disk s.dinode s) (hk : Live s k) (hc : Clean img s)
    (hlayout : s.sb.iblock (s.itable k).inum < s.sb.datastart) (hdense : Dense s k)
    (hrun : writei k src off n s = .ok (r, t)) : Faithful img k off s r t ↔ Traceless src k off n s := by
  rcases (writei_stopped h hk).of_ok hrun with ⟨rfl, rfl, hrej⟩ | ⟨hacc, m, e, p, u, rfl, hstop, hend, rfl⟩
  · exact ⟨fun _ hacc => absurd hacc hrej, fun _ => ⟨fun _ _ => rfl, hc⟩⟩
  · have hw : Written k src off n s m (u.ended k e) := hend.written h hk hacc.2.2 rfl
    exact ⟨hstop.traceless h hk hc hlayout hdense hacc hw, hstop.faithful h hk hc hlayout hacc hw⟩

/-- What is on the disk when all of the log has been written. -/
def State.image (s : State) : Image := ⟨s.sb, s.dinode, s.bitmap, s.data⟩

/-- Two bytes that can be read, and none after them. -/
def twoBytes (j : Nat) : Option UInt8 := if j < 2 then some 120 else none

/-- Creates the file `b` and writes four bytes to it. -/
def fourWritten : List (Nat × Call) :=
  [(0, .open other 514), (0, .write 0 (fun _ => some 97) 4 0)]

/-- The state in an operation of its own. -/
def State.began (s : State) : State := { s with outstanding := 1 }

/-- What the run above leaves, and what a write that gets two of four bytes does to it. -/
def FourWritten (s : State) : Prop :=
  (s.logged = [] ∧ 0 < (s.itable 1).ref ∧ (s.itable 1).valid = true ∧
    s.sb.iblock (s.itable 1).inum < s.sb.datastart ∧ ∀ c, c < 12 → (s.itable 1).d.addrs (c + 1) = 0) ∧
  (writei 1 twoBytes 0 4 s.began).toOption.map (fun out =>
    decide (out.1 = 0 ∧ s.began.readByte 1 0 = some 97 ∧ out.2.readByte 1 0 = some 120)) = some true

instance (s : State) : Decidable (FourWritten s) := inferInstanceAs (Decidable (_ ∧ _))

theorem dense_single (h : Disk s.dinode s) (hk : Live s k)
    (ha : ∀ c, c < 12 → (s.itable k).d.addrs (c + 1) = 0) : Dense s k := by
  intro x y hxy hy
  unfold State.blockOf at *
  rw [← h.slot_eq hk] at hy ⊢
  have htype : (s.itable k).d.type ≠ 0 := by
    obtain ⟨hd, ht⟩ := h.sync k hk.1 hk.2
    rwa [hd]
  have hy0 : y = 0 := by
    by_contra hne
    apply hy
    unfold place
    split
    · next hlt =>
        rw [slot_le htype hlt.le]
        obtain ⟨c, rfl⟩ := Nat.exists_eq_succ_of_ne_zero hne
        exact ha c (by unfold ndirect at hlt; omega)
    · next hge => exact slot_none (ha 11 (by decide)) (by omega)
  have hx0 : x = 0 := by omega
  rw [hx0]
  rwa [hy0] at hy

theorem fourWritten_state : ∃ s, Run step (fun _ _ => True) (boot chainImage) fourWritten s ∧ Disk s.dinode s.began ∧
    Live s.began 1 ∧ Clean s.image s.began ∧ s.sb.iblock (s.itable 1).inum < s.sb.datastart ∧ Dense s.began 1 ∧
    ∃ t, writei 1 twoBytes 0 4 s.began = .ok (0, t) ∧ s.began.readByte 1 0 = some 97 ∧ t.readByte 1 0 = some 120 := by
  have hexec : (StepRun.exec step (fun _ _ => True) (boot chainImage) fourWritten).map
      (fun s => decide (FourWritten s)) = some true := by decide +kernel
  obtain ⟨s, hs, hend⟩ := map_eq_some_iff.mp hexec
  obtain ⟨⟨hlog, href, hvalid, hlayout, ha⟩, hwrite⟩ := of_decide_eq_true hend
  have hd : Disk s.dinode s := (chainImage_consistent.run (run_of_exec hs)).ok.disk trivial
  have hd' : Disk s.dinode s.began :=
    ⟨hd.size_lt, hd.owns, hd.reserved, hd.small, hd.filled, hd.dev, hd.uniq, hd.sync⟩
  have hlive : Live s.began 1 := ⟨href, hvalid⟩
  refine ⟨s, run_of_exec hs, hd', hlive, ⟨fun _ _ _ _ => rfl, fun _ _ => rfl, fun _ _ => rfl⟩, hlayout,
    dense_single hd' hlive ha, ?_⟩
  cases hw : writei 1 twoBytes 0 4 s.began with
  | ok res =>
    rw [hw] at hwrite
    obtain ⟨hr, h97, h120⟩ := of_decide_eq_true (some_inj.mp hwrite)
    exact ⟨res.2, by rw [← hr], h97, h120⟩
  | error e =>
    rw [hw] at hwrite
    cases hwrite

/-- A write that reports no byte has changed the file: its first two bytes are in the cached block. -/
theorem partial_chunk_seen : ∃ s, Run step (fun _ _ => True) (boot chainImage) fourWritten s ∧ Disk s.dinode s.began ∧
    Live s.began 1 ∧ Clean s.image s.began ∧ ∃ t, writei 1 twoBytes 0 4 s.began = .ok (0, t) ∧
      s.began.readByte 1 0 = some 97 ∧ t.readByte 1 0 = some 120 ∧ ¬Faithful s.image 1 0 s.began 0 t := by
  obtain ⟨s, hrun, hd, hlive, hclean, -, -, t, hw, h97, h120⟩ := fourWritten_state
  refine ⟨s, hrun, hd, hlive, hclean, t, hw, h97, h120, fun hfaith => ?_⟩
  have hsame := hfaith.bytes 0 (.inr (Nat.zero_le _))
  rw [h97, h120] at hsame
  exact absurd hsame (by decide)

theorem write_faithful_four : ∃ s t, writei 1 twoBytes 0 4 s = .ok (0, t) ∧
    (Faithful s.image 1 0 s 0 t ↔ Traceless twoBytes 1 0 4 s) := by
  obtain ⟨s, -, hd, hlive, hclean, hlayout, hdense, t, hw, -⟩ := fourWritten_state
  exact ⟨s.began, t, hw, write_faithful_iff hd hlive hclean hlayout hdense hw⟩

end Xv6Armv8.Fs

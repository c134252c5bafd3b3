import Xv6Armv8.BioModel
import Xv6Armv8.LogSpace

/-! What holds of the buffer cache in every run of its users. The argument about the data is by who has the sleep
lock of a buffer: while nobody has, a valid buffer holds what its last user left, and the disk does too unless the
block is logged and not installed. A buffer is recycled only when nobody uses it and it is not pinned, and then the
disk is up to date; what is then read back is what was left. -/

namespace Xv6Armv8.Bio

open Function List Option StepRun

variable {D : Type*} {c : Log.Cfg} {dev : Nat} {s s' : State D} {n i j : Nat} {st st' : Stage}

/-- The stage of the use that has the sleep lock of a buffer. -/
def State.owner (s : State D) (i : Nat) : Option Stage := (s.buf i).lock.bind fun n => s.uses[n]?.map Use.stage

/-- The block of the buffer is kept by the log, or the disk has it as it was left. -/
def State.Safe (dev : Nat) (s : State D) (b : Buf D) : Prop :=
  s.Pinned dev b ∨ s.disk b.dev b.blockno = s.content b.dev b.blockno

/-- How a buffer, the disk and what was left in the block agree, by what the owner of the buffer has done. -/
def Coherent (dev : Nat) (s : State D) (b : Buf D) : Option Stage → Prop
  | some .reading => b.valid = false ∧ s.disk b.dev b.blockno = s.content b.dev b.blockno
  | some (.holding .same) => b.valid = true ∧ b.data = s.content b.dev b.blockno ∧ s.Safe dev b
  | some (.holding .dirty) => b.valid = true
  | some (.holding .logged) => b.valid = true ∧ s.Pinned dev b
  | some (.holding .written) => b.valid = true ∧ s.disk b.dev b.blockno = b.data
  | _ => (b.valid = true → b.data = s.content b.dev b.blockno) ∧ s.Safe dev b

structure Inv (dev : Nat) (s : State D) : Prop where
  ring : ∃ l, Dlist.Ring s.bcache.next s.bcache.prev head l ∧ l.Perm (List.range nbuf)
  uniq : ∀ i < nbuf, ∀ j < nbuf, (s.buf i).dev ≠ 0 → (s.buf j).caches (s.buf i).dev (s.buf i).blockno → i = j
  refs : ∀ i < nbuf, (s.buf i).refcnt = s.users i + if s.Pinned dev (s.buf i) then 1 else 0
  live : ∀ (n : Nat) (u : Use), s.uses[n]? = some u → u.stage ≠ .over → u.buf < nbuf ∧ (s.buf u.buf).dev ≠ 0
  calls : s.asked.length = s.uses.length
  asked : ∀ (n : Nat) (u : Use), s.uses[n]? = some u → u.stage ≠ .over →
    ∃ q : Nat × Nat, s.asked[n]? = some q ∧ (s.buf u.buf).caches q.1 q.2 = true
  lock : ∀ (n : Nat) (u : Use), s.uses[n]? = some u → u.stage.owns → (s.buf u.buf).lock = some n
  owner : ∀ i < nbuf, ∀ n, (s.buf i).lock = some n → ∃ st, s.uses[n]? = some ⟨i, st⟩ ∧ st.owns
  cached : ∀ d b, s.Logged dev d b → ∃ i < nbuf, (s.buf i).caches d b ∧ (s.buf i).valid = true
  nodup : s.lh.Nodup
  bound : s.installed ≤ s.lh.length
  waits : s.committing = false → s.installed = 0
  alone : s.committing = true → s.outstanding = 0
  data : ∀ i < nbuf, (s.buf i).dev ≠ 0 → Coherent dev s (s.buf i) (s.owner i)
  rest : ∀ d b, d ≠ 0 → (∀ i < nbuf, (s.buf i).caches d b = false) → s.disk d b = s.content d b

theorem caches_iff {b : Buf D} {d k : Nat} : b.caches d k = true ↔ b.dev = d ∧ b.blockno = k := by
  rw [Buf.caches, Bool.and_eq_true, beq_iff_eq, beq_iff_eq]

theorem caches_self (b : Buf D) : b.caches b.dev b.blockno = true := caches_iff.mpr ⟨rfl, rfl⟩

/-! ### The number of users -/

theorem users_set (hu : s.uses[n]? = some ⟨i, st⟩) (hs : s'.uses = s.uses.set n ⟨i, st'⟩) :
    (s'.users i + if st = .over then 0 else 1) = s.users i + if st' = .over then 0 else 1 := by
  obtain ⟨hn, hget⟩ := List.getElem?_eq_some_iff.mp hu
  have hpos : st ≠ .over → 0 < s.users i := fun hst =>
    countP_pos_iff.mpr ⟨⟨i, st⟩, mem_of_getElem? hu, by simpa using hst⟩
  rw [State.users, hs, countP_set hn, hget]
  change s.users i - _ + _ + _ = _
  by_cases h : st = .over <;> by_cases h' : st' = .over <;> simp [h, h'] <;> grind

theorem users_set_ne (hu : s.uses[n]? = some ⟨i, st⟩) (hs : s'.uses = s.uses.set n ⟨i, st'⟩) (hj : j ≠ i) :
    s'.users j = s.users j := by
  obtain ⟨hn, hget⟩ := List.getElem?_eq_some_iff.mp hu
  have hij : (i == j) = false := beq_false_of_ne (Ne.symm hj)
  rw [State.users, hs, countP_set hn, hget]
  simp only [hij, Bool.false_and, Bool.false_eq_true, if_false, Nat.sub_zero, Nat.add_zero]
  rfl

/-! ### A step of one user -/

/-- Nothing but the buffer `i`, its block and the stage of its user `n` is different. -/
structure Touch (dev : Nat) (s s' : State D) (n i : Nat) (st' : Stage) : Prop where
  others : ∀ j, j ≠ i → s'.buf j = s.buf j
  dev_eq : (s'.buf i).dev = (s.buf i).dev
  block_eq : (s'.buf i).blockno = (s.buf i).blockno
  uses : s'.uses = s.uses.set n ⟨i, st'⟩
  asked : s'.asked = s.asked
  off : ∀ d b, (s.buf i).caches d b = false →
    (s'.Logged dev d b ↔ s.Logged dev d b) ∧ s'.disk d b = s.disk d b ∧ s'.content d b = s.content d b

theorem Touch.caches (ht : Touch dev s s' n i st') (j d b : Nat) : (s'.buf j).caches d b = (s.buf j).caches d b := by
  by_cases hj : j = i
  · rw [hj, Buf.caches, Buf.caches, ht.dev_eq, ht.block_eq]
  · rw [ht.others j hj]

theorem Touch.dev_eq_all (ht : Touch dev s s' n i st') (j : Nat) : (s'.buf j).dev = (s.buf j).dev := by
  by_cases hj : j = i
  · rw [hj, ht.dev_eq]
  · rw [ht.others j hj]

theorem Coherent.congr {b : Buf D} {o : Option Stage} (h : Coherent dev s b o)
    (hp : s'.Pinned dev b ↔ s.Pinned dev b) (hd : s'.disk b.dev b.blockno = s.disk b.dev b.blockno)
    (hc : s'.content b.dev b.blockno = s.content b.dev b.blockno) : Coherent dev s' b o := by
  have hsafe : s'.Safe dev b ↔ s.Safe dev b := by rw [State.Safe, State.Safe, hp, hd, hc]
  unfold Coherent at h ⊢
  rw [hsafe, hp, hd, hc]
  exact h

theorem Inv.off (h : Inv dev s) (hi : i < nbuf) (hj : j < nbuf) (hne : j ≠ i) (hdev : (s.buf j).dev ≠ 0) :
    (s.buf i).caches (s.buf j).dev (s.buf j).blockno = false :=
  Bool.eq_false_iff.mpr fun hc => hne (h.uniq j hj i hi hdev hc)

/-- Who has the lock of a buffer, and how far it is, depends on its lock and on its users only. -/
theorem Inv.owner_congr (h : Inv dev s) (hj : j < nbuf) (hl : (s'.buf j).lock = (s.buf j).lock)
    (hu : ∀ (m : Nat) (st : Stage), s.uses[m]? = some ⟨j, st⟩ → st.owns → s'.uses[m]? = s.uses[m]?) : s'.owner j = s.owner j := by
  rw [State.owner, State.owner, hl]
  cases hlk : (s.buf j).lock with
  | none => rfl
  | some m =>
    obtain ⟨st, hum, ho⟩ := h.owner j hj m hlk
    rw [bind_some, bind_some, hu m st hum ho]

/-- The sleep lock of `i` after a step of its user `n`. -/
def nextLock (s : State D) (n i : Nat) (st st' : Stage) : Option Nat :=
  if st'.owns then some n else if st.owns then none else (s.buf i).lock

theorem Inv.touch (h : Inv dev s) (hdev : dev ≠ 0) (hu : s.uses[n]? = some ⟨i, st⟩) (hi : i < nbuf)
    (hidev : (s.buf i).dev ≠ 0)
    (hasked : ∃ q : Nat × Nat, s.asked[n]? = some q ∧ (s.buf i).caches q.1 q.2 = true)
    (ht : Touch dev s s' n i st')
    (hring : ∃ l, Dlist.Ring s'.bcache.next s'.bcache.prev head l ∧ l.Perm (List.range nbuf))
    (hrefs : (s'.buf i).refcnt = s'.users i + if s'.Pinned dev (s'.buf i) then 1 else 0)
    (htake : st'.owns → st.owns ∨ (s.buf i).lock = none)
    (hlock : (s'.buf i).lock = nextLock s n i st st')
    (hvalid : s'.Pinned dev (s'.buf i) → (s'.buf i).valid = true)
    (hnodup : s'.lh.Nodup) (hbound : s'.installed ≤ s'.lh.length)
    (hwaits : s'.committing = false → s'.installed = 0)
    (halone : s'.committing = true → s'.outstanding = 0)
    (hdata : Coherent dev s' (s'.buf i) (s'.owner i)) : Inv dev s' := by
  have hn : n < s.uses.length := (List.getElem?_eq_some_iff.mp hu).1
  have hself : s'.uses[n]? = some ⟨i, st'⟩ := by rw [ht.uses, List.getElem?_set_self hn]
  have hother : ∀ m, m ≠ n → s'.uses[m]? = s.uses[m]? := fun m hm => by
    rw [ht.uses, List.getElem?_set_ne (Ne.symm hm)]
  have hpin : ∀ j < nbuf, j ≠ i → (s'.Pinned dev (s'.buf j) ↔ s.Pinned dev (s.buf j)) := by
    intro j hj hne
    rw [ht.others j hne]
    by_cases hd : (s.buf j).dev = 0
    · have h0 : ∀ t : State D, ¬ t.Pinned dev (s.buf j) := fun t hp => hdev (hp.1.symm.trans hd)
      exact ⟨fun hp => absurd hp (h0 s'), fun hp => absurd hp (h0 s)⟩
    · exact (ht.off _ _ (h.off hi hj hne hd)).1
  -- nobody but `n` can have the lock of `i` when `n` has it before or after
  have hown : ∀ m st₁, m ≠ n → s.uses[m]? = some ⟨i, st₁⟩ → st₁.owns → nextLock s n i st st' = some m := by
    intro m st₁ hm hum ho
    have hlk : (s.buf i).lock = some m := h.lock m _ hum ho
    have hst1 : ¬ st.owns := fun hso => hm (some.inj (hlk.symm.trans (h.lock n _ hu hso)))
    have hst2 : ¬ st'.owns := fun hso => (htake hso).elim hst1 (by rw [hlk]; exact nofun)
    rw [nextLock, if_neg hst2, if_neg hst1, hlk]
  refine ⟨hring, ?_, ?_, ?_, ?_, ?_, ?_, ?_, ?_, hnodup, hbound, hwaits, halone, ?_, ?_⟩
  · intro a ha b hb hda hc
    rw [ht.caches, ht.dev_eq_all] at hc
    rw [ht.dev_eq_all] at hda
    have hblock : (s'.buf a).blockno = (s.buf a).blockno := by
      by_cases hai : a = i
      · rw [hai, ht.block_eq]
      · rw [ht.others a hai]
    exact h.uniq a ha b hb hda (hblock ▸ hc)
  · intro j hj
    by_cases hji : j = i
    · rw [hji, hrefs]
    · rw [users_set_ne hu ht.uses hji, ht.others j hji, h.refs j hj]
      congr 1
      exact if_congr ((hpin j hj hji).symm.trans (by rw [ht.others j hji])) rfl rfl
  · intro m u hm hlive
    rw [ht.dev_eq_all]
    by_cases hmn : m = n
    · cases some.inj (hself.symm.trans (hmn ▸ hm))
      exact ⟨hi, hidev⟩
    · exact h.live m u (hother m hmn ▸ hm) hlive
  · rw [ht.asked, ht.uses, length_set]
    exact h.calls
  · intro m u hm hlive
    rw [ht.asked]
    by_cases hmn : m = n
    · cases some.inj (hself.symm.trans (hmn ▸ hm))
      obtain ⟨q, hq, hc⟩ := hasked
      exact ⟨q, hmn ▸ hq, by rw [ht.caches]; exact hc⟩
    · obtain ⟨q, hq, hc⟩ := h.asked m u (hother m hmn ▸ hm) hlive
      exact ⟨q, hq, by rw [ht.caches]; exact hc⟩
  · intro m u hm ho
    by_cases hmn : m = n
    · cases some.inj (hself.symm.trans (hmn ▸ hm))
      rw [hlock, nextLock, if_pos ho, hmn]
    · rw [hother m hmn] at hm
      by_cases hui : u.buf = i
      · rw [hui, hlock]
        exact hown m u.stage hmn (by rw [hm, ← hui]) ho
      · rw [ht.others _ hui]
        exact h.lock m u hm ho
  · intro j hj m hm
    by_cases hji : j = i
    · subst hji
      rw [hlock, nextLock] at hm
      split_ifs at hm with h1 h2
      · cases hm
        exact ⟨st', hself, h1⟩
      · obtain ⟨st₁, hum, ho⟩ := h.owner j hj m hm
        have hmn : m ≠ n := by
          rintro rfl
          cases some.inj (hu.symm.trans hum)
          exact h2 ho
        exact ⟨st₁, (hother m hmn).trans hum, ho⟩
    · rw [ht.others j hji] at hm
      obtain ⟨st₁, hum, ho⟩ := h.owner j hj m hm
      have hmn : m ≠ n := by
        rintro rfl
        cases some.inj (hu.symm.trans hum)
        exact hji rfl
      exact ⟨st₁, (hother m hmn).trans hum, ho⟩
  · intro d b hl
    by_cases hc : (s.buf i).caches d b = true
    · obtain ⟨rfl, rfl⟩ := caches_iff.mp hc
      refine ⟨i, hi, by rw [ht.caches]; exact hc, hvalid ?_⟩
      rw [State.Pinned, ht.dev_eq, ht.block_eq]
      exact hl
    · obtain ⟨j, hj, hjc, hjv⟩ := h.cached d b ((ht.off d b (Bool.eq_false_iff.mpr hc)).1.mp hl)
      have hji : j ≠ i := by rintro rfl; exact hc hjc
      exact ⟨j, hj, by rw [ht.caches]; exact hjc, by rw [ht.others j hji]; exact hjv⟩
  · intro j hj hd
    by_cases hji : j = i
    · rw [hji]
      exact hdata
    · rw [ht.others j hji] at hd ⊢
      have howner : s'.owner j = s.owner j := by
        refine h.owner_congr hj (by rw [ht.others j hji]) fun m st₁ hum _ => hother m ?_
        rintro rfl
        cases some.inj (hu.symm.trans hum)
        exact hji rfl
      have hoff := ht.off _ _ (h.off hi hj hji hd)
      rw [howner]
      exact (h.data j hj hd).congr hoff.1 hoff.2.1 hoff.2.2
  · intro d b hd hnone
    have hnone' : ∀ j < nbuf, (s.buf j).caches d b = false := fun j hj => (ht.caches j d b) ▸ hnone j hj
    obtain ⟨-, hdisk, hcont⟩ := ht.off d b (hnone' i hi)
    rw [hdisk, hcont]
    exact h.rest d b hd hnone'

theorem Inv.valid_of_pinned (h : Inv dev s) (hdev : dev ≠ 0) (hi : i < nbuf) (hp : s.Pinned dev (s.buf i)) :
    (s.buf i).valid = true := by
  obtain ⟨j, hj, hc, hv⟩ := h.cached _ _ hp
  rw [h.uniq i hi j hj (hp.1 ▸ hdev) hc]
  exact hv

theorem owner_eq (hl : (s.buf i).lock = some n) (hu : s.uses[n]? = some ⟨i, st⟩) : s.owner i = some st := by
  rw [State.owner, hl, bind_some, hu, map_some]

theorem owner_none (hl : (s.buf i).lock = none) : s.owner i = none := by
  rw [State.owner, hl, bind_none]

theorem Inv.owner_of_owns (h : Inv dev s) (hu : s.uses[n]? = some ⟨i, st⟩) (ho : st.owns) : s.owner i = some st :=
  owner_eq (h.lock n _ hu ho) hu

theorem users_of_live (hu : s.uses[n]? = some ⟨i, st⟩) (hs : s'.uses = s.uses.set n ⟨i, st'⟩) (hst : st ≠ .over)
    (hst' : st' ≠ .over) : s'.users i = s.users i := by
  have h := users_set hu hs
  rwa [if_neg hst, if_neg hst', Nat.add_right_cancel_iff] at h

theorem setBuf_self (s : State D) (i : Nat) (b : Buf D) : (s.setBuf i b).buf i = b := update_self ..

theorem setBuf_of_ne (s : State D) (b : Buf D) (h : j ≠ i) : (s.setBuf i b).buf j = s.buf j :=
  update_of_ne h ..

/-- The user of a buffer has changed what is in it, in its block on the disk or in the record of what was left. -/
def State.put (s : State D) (n i : Nat) (st : Stage) (b : Buf D) (disk content : Nat → Nat → D) : State D :=
  { (s.setBuf i b).goto n i st with disk := disk, content := content }

theorem put_self (st : Stage) (b : Buf D) (disk content : Nat → Nat → D) : (s.put n i st b disk content).buf i = b :=
  setBuf_self s i b

theorem Inv.put (h : Inv dev s) (hdev : dev ≠ 0) (hu : s.uses[n]? = some ⟨i, st⟩) (hst : st ≠ .over)
    (st' : Stage) (b : Buf D) (disk content : Nat → Nat → D) (hst' : st' ≠ .over)
    (hkey : b.dev = (s.buf i).dev ∧ b.blockno = (s.buf i).blockno ∧ b.refcnt = (s.buf i).refcnt)
    (hoff : ∀ d k, (s.buf i).caches d k = false → disk d k = s.disk d k ∧ content d k = s.content d k)
    (htake : st'.owns → st.owns ∨ (s.buf i).lock = none) (hlock : b.lock = nextLock s n i st st')
    (hvalid : (s.buf i).valid = true → b.valid = true) (howns : st.owns ∨ st'.owns)
    (hdata : Coherent dev (s.put n i st' b disk content) b (if st'.owns then some st' else none)) :
    Inv dev (s.put n i st' b disk content) := by
  obtain ⟨hi, hidev⟩ := h.live n _ hu hst
  have hn : n < s.uses.length := (List.getElem?_eq_some_iff.mp hu).1
  have hpin : s.Pinned dev b ↔ s.Pinned dev (s.buf i) := by rw [State.Pinned, State.Pinned, hkey.1, hkey.2.1]
  have ht : Touch dev s (s.put n i st' b disk content) n i st' :=
    ⟨fun j hj => setBuf_of_ne s b hj, (put_self ..).symm ▸ hkey.1, (put_self ..).symm ▸ hkey.2.1, rfl, rfl,
      fun d k hc => ⟨Iff.rfl, hoff d k hc⟩⟩
  have howner : (s.put n i st' b disk content).owner i = if st'.owns then some st' else none := by
    split_ifs with ho
    · refine owner_eq (n := n) ?_ (List.getElem?_set_self hn)
      rw [put_self, hlock, nextLock, if_pos ho]
    · apply owner_none
      rw [put_self, hlock, nextLock, if_neg ho, if_pos (howns.resolve_right ho)]
  refine h.touch hdev hu hi hidev (h.asked n _ hu hst) ht h.ring ?_ htake ?_ ?_ h.nodup h.bound h.waits h.alone ?_
  · rw [put_self, hkey.2.2, h.refs i hi, users_of_live hu ht.uses hst hst']
    exact congrArg (s.users i + ·) (if_congr hpin.symm rfl rfl)
  · rw [put_self, hlock]
  · rw [put_self]
    exact fun hp => hvalid (h.valid_of_pinned hdev hi (hpin.mp hp))
  · rw [put_self, howner]
    exact hdata

theorem setBlock_self (f : Nat → Nat → D) (b : Buf D) (d : D) : setBlock f b d b.dev b.blockno = d := by
  rw [setBlock, update_self, update_self]

theorem setBlock_off {f : Nat → Nat → D} {b : Buf D} {d : D} {k m : Nat} (h : b.caches k m = false) :
    setBlock f b d k m = f k m := by
  rw [setBlock]
  by_cases hk : k = b.dev
  · have hm : m ≠ b.blockno := fun hm => Bool.eq_false_iff.mp h (caches_iff.mpr ⟨hk.symm, hm.symm⟩)
    rw [hk, update_self, update_of_ne hm]
  · rw [update_of_ne hk]

theorem Inv.lock_step (h : Inv dev s) (hdev : dev ≠ 0) (hu : s.uses[n]? = some ⟨i, .waiting⟩)
    (hs : stepUse c dev s n i .waiting .lock = some s') : Inv dev s' := by
  obtain ⟨hl, rfl⟩ := guarded hs
  obtain ⟨hi, hidev⟩ := h.live n _ hu nofun
  have hdata := h.data i hi hidev
  rw [owner_none hl] at hdata
  obtain ⟨hleft, hsafe⟩ := hdata
  cases hv : (s.buf i).valid with
  | true =>
    exact h.put hdev hu nofun (.holding .same) { s.buf i with lock := some n } s.disk s.content
      nofun ⟨rfl, rfl, rfl⟩ (fun _ _ _ => ⟨rfl, rfl⟩) (fun _ => .inr hl) rfl id
      (.inr rfl) ⟨hv, hleft hv, hsafe⟩
  | false =>
    refine h.put hdev hu nofun .reading { s.buf i with lock := some n } s.disk s.content
      nofun ⟨rfl, rfl, rfl⟩ (fun _ _ _ => ⟨rfl, rfl⟩) (fun _ => .inr hl) rfl id
      (.inr rfl) ⟨hv, hsafe.resolve_left fun hp => ?_⟩
    rw [h.valid_of_pinned hdev hi hp] at hv
    cases hv

theorem Inv.read_step (h : Inv dev s) (hdev : dev ≠ 0) (hu : s.uses[n]? = some ⟨i, .reading⟩)
    (hs : stepUse c dev s n i .reading .read = some s') : Inv dev s' := by
  cases some.inj hs
  obtain ⟨hi, hidev⟩ := h.live n _ hu nofun
  have hdata := h.data i hi hidev
  rw [h.owner_of_owns hu rfl] at hdata
  exact h.put hdev hu nofun (.holding .same)
    { s.buf i with data := s.disk (s.buf i).dev (s.buf i).blockno, valid := true } s.disk s.content nofun
    ⟨rfl, rfl, rfl⟩ (fun _ _ _ => ⟨rfl, rfl⟩) (fun _ => .inl rfl) (h.lock n _ hu rfl) (fun _ => rfl) (.inl rfl)
    ⟨rfl, hdata.2, .inr hdata.2⟩

section Holding

variable {w : Work}

theorem Inv.valid_of_holding (h : Inv dev s) (hu : s.uses[n]? = some ⟨i, .holding w⟩) : (s.buf i).valid = true := by
  obtain ⟨hi, hidev⟩ := h.live n _ hu nofun
  have hdata := h.data i hi hidev
  rw [h.owner_of_owns hu rfl] at hdata
  cases w with
  | same => exact hdata.1
  | dirty => exact hdata
  | logged => exact hdata.1
  | written => exact hdata.1

section

variable (h : Inv dev s) (hdev : dev ≠ 0) (hu : s.uses[n]? = some ⟨i, .holding w⟩)
include h hdev hu

theorem Inv.modify_step {d : D}
    (hs : stepUse c dev s n i (.holding w) (.modify d) = some s') : Inv dev s' := by
  cases some.inj hs
  exact h.put hdev hu nofun (.holding .dirty) { s.buf i with data := d } s.disk s.content nofun ⟨rfl, rfl, rfl⟩
    (fun _ _ _ => ⟨rfl, rfl⟩) (fun _ => .inl rfl) (h.lock n _ hu rfl) id (.inl rfl) (h.valid_of_holding hu)

theorem Inv.bwrite_step
    (hs : stepUse c dev s n i (.holding w) .bwrite = some s') : Inv dev s' := by
  obtain ⟨hl, rfl⟩ := guarded hs
  have hself : s.setBuf i (s.buf i) = s := by
    rw [State.setBuf, Bcache.set, State.buf, update_eq_self]
  have hput : Inv dev (s.put n i (.holding .written) (s.buf i) (setBlock s.disk (s.buf i) (s.buf i).data)
      s.content) :=
    h.put hdev hu nofun (.holding .written) (s.buf i) _ _ nofun ⟨rfl, rfl, rfl⟩
      (fun _ _ hc => ⟨setBlock_off hc, rfl⟩) (fun _ => .inl rfl) (h.lock n _ hu rfl) id (.inl rfl)
      ⟨h.valid_of_holding hu, setBlock_self ..⟩
  rw [State.put, hself] at hput
  exact hput

/-- What is in the buffer when it is given back is what was left in the block. It is on the disk too, or the block is
logged, because nothing was changed or the change was logged or written. -/
theorem Inv.unlock_step
    (hw : w ≠ .dirty) (hs : stepUse c dev s n i (.holding w) .unlock = some s') : Inv dev s' := by
  obtain ⟨hl, rfl⟩ := guarded hs
  obtain ⟨hi, hidev⟩ := h.live n _ hu nofun
  have hdata := h.data i hi hidev
  rw [h.owner_of_owns hu rfl] at hdata
  refine h.put hdev hu nofun .leaving { s.buf i with lock := none } s.disk
    (setBlock s.content (s.buf i) (s.buf i).data) nofun ⟨rfl, rfl, rfl⟩ (fun _ _ hc => ⟨rfl, setBlock_off hc⟩)
    nofun rfl id (.inl rfl) ⟨fun _ => (setBlock_self ..).symm, ?_⟩
  have hleft : setBlock s.content (s.buf i) (s.buf i).data (s.buf i).dev (s.buf i).blockno = (s.buf i).data :=
    setBlock_self ..
  cases w with
  | same => exact hdata.2.2.imp id fun hd => hd.trans (hdata.2.1.symm.trans hleft.symm)
  | dirty => exact absurd rfl hw
  | logged => exact .inl hdata.2
  | written => exact .inr (hdata.2.trans hleft.symm)

end

theorem logWrite_eq (s : State D) (i : Nat) : logWrite s i =
    { s.setBuf i { s.buf i with refcnt := (s.buf i).refcnt + if (s.buf i).blockno ∈ s.lh then 0 else 1 } with
      lh := Log.absorb s.lh (s.buf i).blockno } := by
  rw [logWrite]
  by_cases hb : (s.buf i).blockno ∈ s.lh
  · rw [if_neg (fun he => idxOf_eq_length_iff.mp he hb), if_pos hb, State.setBuf, Bcache.set, Nat.add_zero,
      State.buf, update_eq_self]
  · rw [if_pos (idxOf_eq_length_iff.mpr hb), if_neg hb]
    rfl

/-- `log_write` pins the buffer of a block that was not in the header, and only then. While it may be called no commit
is under way, so that the header holds no block that is installed already. -/
theorem Inv.logWrite_step (h : Inv dev s) (hdev : dev ≠ 0) (hu : s.uses[n]? = some ⟨i, .holding w⟩)
    (hd : (s.buf i).dev = dev) (hs : stepUse c dev s n i (.holding w) .logWrite = some s') : Inv dev s' := by
  obtain ⟨hg, rfl⟩ := ite_none_left_eq_some.mp hs |>.imp id some.inj
  have hout : 1 ≤ s.outstanding := Nat.le_of_not_lt fun hlt => hg (.inr hlt)
  have hcom : s.committing = false := Bool.eq_false_iff.mpr fun hc => by have := h.alone hc; omega
  have hinst : s.installed = 0 := h.waits hcom
  obtain ⟨hi, hidev⟩ := h.live n _ hu nofun
  have hn : n < s.uses.length := (List.getElem?_eq_some_iff.mp hu).1
  have hl : (s.buf i).lock = some n := h.lock n _ hu rfl
  rw [logWrite_eq]
  generalize hb : ({ s.buf i with
    refcnt := (s.buf i).refcnt + if (s.buf i).blockno ∈ s.lh then 0 else 1 } : Buf D) = b
  generalize hs₁ : ({ s.setBuf i b with lh := Log.absorb s.lh (s.buf i).blockno } : State D).goto n i
    (.holding .logged) = s₁
  have hbuf : s₁.buf i = b := by rw [← hs₁]; exact setBuf_self s i b
  have hlogged : ∀ d k, s₁.Logged dev d k ↔ d = dev ∧ (k ∈ s.lh ∨ k = (s.buf i).blockno) := fun d k => by
    rw [State.Logged, ← hs₁]
    change _ ∧ k ∈ List.drop s.installed (Log.absorb s.lh _) ↔ _
    rw [hinst, drop_zero, Log.mem_absorb]
  have hpin : s₁.Pinned dev b := (hlogged _ _).mpr (hb ▸ ⟨hd, .inr rfl⟩)
  have huses : s₁.uses = s.uses.set n ⟨i, .holding .logged⟩ := by rw [← hs₁]; rfl
  have ht : Touch dev s s₁ n i (.holding .logged) := by
    refine ⟨fun j hj => ?_, by rw [hbuf, ← hb], by rw [hbuf, ← hb], huses, by rw [← hs₁]; rfl, fun d k hc => ⟨?_, ?_, ?_⟩⟩
    · rw [← hs₁]
      exact setBuf_of_ne s b hj
    · rw [hlogged, State.Logged, hinst, drop_zero]
      refine and_congr_right fun hdk => or_iff_left fun hk => Bool.eq_false_iff.mp hc ?_
      exact caches_iff.mpr ⟨hd.trans hdk.symm, hk.symm⟩
    · rw [← hs₁]; rfl
    · rw [← hs₁]; rfl
  refine h.touch hdev hu hi hidev (h.asked n _ hu nofun) ht ?_ ?_ (fun _ => .inl rfl) ?_ ?_ ?_ ?_ ?_ ?_ ?_
  · rw [← hs₁]
    exact h.ring
  · have hold := h.refs i hi
    have hiff : s.Pinned dev (s.buf i) ↔ (s.buf i).blockno ∈ s.lh := by
      rw [State.Pinned, State.Logged, hinst, drop_zero]
      exact and_iff_right hd
    rw [hbuf, if_pos hpin, users_of_live hu huses nofun nofun, ← hb]
    rw [if_congr hiff rfl rfl] at hold
    change (s.buf i).refcnt + _ = _
    split_ifs at hold ⊢ <;> omega
  · rw [hbuf, ← hb]
    exact hl
  · rw [hbuf, ← hb]
    exact fun _ => h.valid_of_holding hu
  · rw [← hs₁]
    exact Log.absorb_nodup h.nodup
  · rw [← hs₁]
    exact hinst ▸ Nat.zero_le _
  · rw [← hs₁]
    exact fun _ => hinst
  · rw [← hs₁]
    exact h.alone
  · have hown : s₁.owner i = some (.holding .logged) :=
      owner_eq (by rw [hbuf, ← hb]; exact hl) (by rw [huses, List.getElem?_set_self hn])
    rw [hown, hbuf]
    exact ⟨by rw [← hb]; exact h.valid_of_holding hu, hpin⟩

end Holding

/-- `bunpin` in `install_trans`: the disk has the block, and the log no longer keeps it. -/
theorem Inv.bunpin_step (h : Inv dev s) (hdev : dev ≠ 0) (hu : s.uses[n]? = some ⟨i, .holding .written⟩)
    (hs : stepUse c dev s n i (.holding .written) .bunpin = some s') : Inv dev s' := by
  obtain ⟨⟨hcom, hd, hlh⟩, rfl⟩ := guarded hs
  obtain ⟨hlt, hget⟩ := List.getElem?_eq_some_iff.mp hlh
  obtain ⟨hi, hidev⟩ := h.live n _ hu nofun
  have hn : n < s.uses.length := (List.getElem?_eq_some_iff.mp hu).1
  have hl : (s.buf i).lock = some n := h.lock n _ hu rfl
  have hdrop : s.lh.drop s.installed = (s.buf i).blockno :: s.lh.drop (s.installed + 1) := by
    rw [drop_eq_getElem_cons hlt, hget]
  have hnot : (s.buf i).blockno ∉ s.lh.drop (s.installed + 1) :=
    (nodup_cons.mp (hdrop ▸ h.nodup.sublist (drop_sublist ..))).1
  have hdata := h.data i hi hidev
  rw [h.owner_of_owns hu rfl] at hdata
  have hpin : s.Pinned dev (s.buf i) := ⟨hd, hdrop ▸ mem_cons_self⟩
  generalize hb : ({ s.buf i with refcnt := (s.buf i).refcnt - 1 } : Buf D) = b
  generalize hs₁ : ({ s.goto n i (.holding .written) with
    bcache := bunpin s.bcache i, installed := s.installed + 1 } : State D) = s₁
  have hbuf : s₁.buf i = b := by rw [← hs₁, ← hb]; exact setBuf_self s i _
  have huses : s₁.uses = s.uses.set n ⟨i, .holding .written⟩ := by rw [← hs₁]; rfl
  have hlogged : ∀ d k, s₁.Logged dev d k ↔ d = dev ∧ k ∈ s.lh.drop (s.installed + 1) := fun d k => by
    rw [← hs₁]
    rfl
  have hfree : ¬ s₁.Pinned dev b := fun hp => hnot (by
    have hp := ((hlogged _ _).mp hp).2
    rwa [← hb] at hp)
  have ht : Touch dev s s₁ n i (.holding .written) := by
    refine ⟨fun j hj => ?_, by rw [hbuf, ← hb], by rw [hbuf, ← hb], huses, by rw [← hs₁]; rfl, fun d k hc => ⟨?_, ?_, ?_⟩⟩
    · rw [← hs₁]
      exact setBuf_of_ne s _ hj
    · rw [hlogged, State.Logged, hdrop, mem_cons]
      refine and_congr_right fun hdk => (or_iff_right fun hk => Bool.eq_false_iff.mp hc ?_).symm
      exact caches_iff.mpr ⟨hd.trans hdk.symm, hk.symm⟩
    · rw [← hs₁]; rfl
    · rw [← hs₁]; rfl
  refine h.touch hdev hu hi hidev (h.asked n _ hu nofun) ht ?_ ?_ (fun _ => .inl rfl) ?_ ?_ ?_ ?_ ?_ ?_ ?_
  · rw [← hs₁]
    exact h.ring
  · have hold := h.refs i hi
    rw [if_pos hpin] at hold
    rw [hbuf, if_neg hfree, users_of_live hu huses nofun nofun, ← hb]
    change (s.buf i).refcnt - 1 = _
    rw [hold, Nat.add_sub_cancel, Nat.add_zero]
  · rw [hbuf, ← hb]
    exact hl
  · rw [hbuf]
    exact fun hp => absurd hp hfree
  · rw [← hs₁]
    exact h.nodup
  · rw [← hs₁]
    exact hlt
  · rw [← hs₁]
    exact fun hc => absurd hcom (Bool.eq_false_iff.mp hc)
  · rw [← hs₁]
    exact h.alone
  · have hown : s₁.owner i = some (.holding .written) :=
      owner_eq (by rw [hbuf, ← hb]; exact hl) (by rw [huses, List.getElem?_set_self hn])
    rw [hown, hbuf, ← hb, ← hs₁]
    exact hdata

theorem ring_brelse {cache : Bcache D} {l : List Nat} (hr : Dlist.Ring cache.next cache.prev head l)
    (hl : l.Perm (List.range nbuf)) (hi : i < nbuf) :
    ∃ l', Dlist.Ring (brelse cache i).next (brelse cache i).prev head l' ∧ l'.Perm (List.range nbuf) := by
  rw [brelse]
  split
  · have hmem : i ∈ l := hl.mem_iff.mpr (mem_range.mpr hi)
    have hnot : i ∉ head :: l.erase i := by
      rw [mem_cons, not_or]
      exact ⟨Nat.ne_of_lt hi, (nodup_cons.mp hr.nodup).2.not_mem_erase⟩
    exact ⟨i :: l.erase i, (hr.unlink hmem).link hnot, (perm_cons_erase hmem).symm.trans hl⟩
  · exact ⟨l, hr, hl⟩

theorem brelse_buf (cache : Bcache D) (i : Nat) : (brelse cache i).buf =
    update cache.buf i { cache.buf i with refcnt := (cache.buf i).refcnt - 1 } := by
  rw [brelse]
  split <;> rfl

theorem Inv.brelse_step (h : Inv dev s) (hdev : dev ≠ 0) (hu : s.uses[n]? = some ⟨i, .leaving⟩)
    (hs : stepUse c dev s n i .leaving .brelse = some s') : Inv dev s' := by
  cases some.inj hs
  obtain ⟨hi, hidev⟩ := h.live n _ hu nofun
  obtain ⟨l, hr, hl⟩ := h.ring
  generalize hs₁ : ({ s.goto n i .over with bcache := brelse s.bcache i } : State D) = s₁
  have hbufs : s₁.buf = update s.buf i { s.buf i with refcnt := (s.buf i).refcnt - 1 } := by
    rw [← hs₁]
    exact brelse_buf s.bcache i
  have hbuf : s₁.buf i = { s.buf i with refcnt := (s.buf i).refcnt - 1 } := by rw [hbufs, update_self]
  have huses : s₁.uses = s.uses.set n ⟨i, .over⟩ := by rw [← hs₁]; rfl
  have ht : Touch dev s s₁ n i .over := by
    refine ⟨fun j hj => ?_, by rw [hbuf], by rw [hbuf], huses, by rw [← hs₁]; rfl, fun d k hc => ⟨?_, ?_, ?_⟩⟩
    · rw [hbufs, update_of_ne hj]
    · rw [← hs₁]; rfl
    · rw [← hs₁]; rfl
    · rw [← hs₁]; rfl
  have hpin : s₁.Pinned dev (s₁.buf i) ↔ s.Pinned dev (s.buf i) := by rw [hbuf, ← hs₁]; rfl
  refine h.touch hdev hu hi hidev (h.asked n _ hu nofun) ht ?_ ?_ nofun ?_ ?_ ?_ ?_ ?_ ?_ ?_
  · rw [← hs₁]
    exact ring_brelse hr hl hi
  · have hold := h.refs i hi
    have husers := users_set hu huses
    rw [if_neg nofun, if_pos rfl] at husers
    rw [if_congr hpin rfl rfl, hbuf]
    change (s.buf i).refcnt - 1 = _
    omega
  · rw [hbuf]; rfl
  · rw [hpin, hbuf]
    exact h.valid_of_pinned hdev hi
  · rw [← hs₁]
    exact h.nodup
  · rw [← hs₁]
    exact h.bound
  · rw [← hs₁]
    exact h.waits
  · rw [← hs₁]
    exact h.alone
  · have howner : s₁.owner i = s.owner i := by
      refine h.owner_congr hi (by rw [hbuf]) fun m st₁ hum ho => huses ▸ List.getElem?_set_ne ?_
      rintro rfl
      cases some.inj (hu.symm.trans hum)
      cases ho
    rw [howner, hbuf, ← hs₁]
    exact h.data i hi hidev

/-! ### A new user -/

/-- What `bget` returns: the buffer of the block, or if there is none a buffer that nobody uses. -/
theorem Inv.bget_spec (h : Inv dev s) {d k : Nat} {cache : Bcache D} (hs : bget s.bcache d k = some (i, cache)) :
    i < nbuf ∧
    (((s.buf i).caches d k = true ∧ cache = s.bcache.set i { s.buf i with refcnt := (s.buf i).refcnt + 1 }) ∨
      ((∀ j < nbuf, (s.buf j).caches d k = false) ∧ (s.buf i).refcnt = 0 ∧
        cache = s.bcache.set i { s.buf i with dev := d, blockno := k, valid := false, refcnt := 1 })) := by
  obtain ⟨l, hr, hl⟩ := h.ring
  have hlen : l.length < nbuf + 1 := by rw [hl.length_eq, length_range]; exact Nat.lt_succ_self _
  have hmem : ∀ x, x ∈ l ↔ x < nbuf := fun x => hl.mem_iff.trans mem_range
  rw [bget, hr.scan_next _ hlen, hr.scan_prev _ hlen] at hs
  split at hs
  · next b hb =>
      cases some.inj hs
      have hcaches := List.find?_some hb
      exact ⟨(hmem _).mp (List.mem_of_find?_eq_some hb), .inl ⟨hcaches, rfl⟩⟩
  · next hnone =>
      split at hs
      · next b hb =>
          cases some.inj hs
          have hunused := List.find?_some hb
          refine ⟨(hmem _).mp (mem_reverse.mp (List.mem_of_find?_eq_some hb)), .inr ⟨fun j hj => ?_, ?_, rfl⟩⟩
          · exact Bool.eq_false_iff.mpr (List.find?_eq_none.mp hnone j ((hmem j).mpr hj))
          · exact beq_iff_eq.mp hunused
      · cases hs

theorem Inv.append (h : Inv dev s) (i : Nat) (q : Nat × Nat) :
    Inv dev { s with uses := s.uses ++ [⟨i, .over⟩], asked := s.asked ++ [q] } := by
  have hold : ∀ {m : Nat} {u : Use}, (s.uses ++ [⟨i, .over⟩])[m]? = some u → u.stage ≠ .over → s.uses[m]? = some u := by
    intro m u hm hu
    rw [List.getElem?_append] at hm
    split at hm
    · exact hm
    · obtain rfl := mem_singleton.mp (mem_of_getElem? hm)
      exact absurd rfl hu
  have hnew : ∀ {m : Nat} {u : Use}, s.uses[m]? = some u → (s.uses ++ [⟨i, .over⟩])[m]? = some u := fun hm => by
    rw [List.getElem?_append_left (List.getElem?_eq_some_iff.mp hm).1, hm]
  have howns : ∀ {st : Stage}, st.owns → st ≠ .over := by rintro _ ho rfl; cases ho
  refine ⟨h.ring, h.uniq, fun j hj => ?_, fun m u hm hu => h.live m u (hold hm hu) hu, ?_, fun m u hm hu => ?_,
    fun m u hm ho => h.lock m u (hold hm (howns ho)) ho, fun j hj m hm => ?_, h.cached, h.nodup, h.bound, h.waits,
    h.alone, fun j hj hd => ?_, h.rest⟩
  · have husers : ({ s with uses := s.uses ++ [⟨i, .over⟩], asked := s.asked ++ [q] } : State D).users j =
        s.users j := by
      simp [State.users]
    rw [husers]
    exact h.refs j hj
  · rw [length_append, length_append, h.calls]
    rfl
  · obtain ⟨q', hq, hc⟩ := h.asked m u (hold hm hu) hu
    exact ⟨q', (List.getElem?_append_left (List.getElem?_eq_some_iff.mp hq).1).trans hq, hc⟩
  · obtain ⟨st, hum, ho⟩ := h.owner j hj m hm
    exact ⟨st, hnew hum, ho⟩
  · have howner : ({ s with uses := s.uses ++ [⟨i, .over⟩], asked := s.asked ++ [q] } : State D).owner j =
        s.owner j := h.owner_congr hj rfl fun m st hum _ => (hnew hum).trans hum.symm
    rw [howner]
    exact h.data j hj hd

/-- A buffer that nobody uses and that is not pinned is given to a block that is not cached. Its old block is on the
disk as it was left. -/
theorem Inv.recycle (h : Inv dev s) {d k : Nat} (hi : i < nbuf) (href : (s.buf i).refcnt = 0)
    (hd : d ≠ 0) (hnone : ∀ j < nbuf, (s.buf j).caches d k = false) :
    Inv dev (s.setBuf i { s.buf i with dev := d, blockno := k, valid := false }) := by
  have hrefs := h.refs i hi
  rw [href] at hrefs
  have hpin : ¬ s.Pinned dev (s.buf i) := fun hp => by rw [if_pos hp] at hrefs; omega
  have huser : ∀ (m : Nat) (u : Use), s.uses[m]? = some u → u.stage ≠ .over → u.buf ≠ i := by
    intro m u hm hu hui
    have hpos : 0 < s.users i := countP_pos_iff.mpr ⟨u, mem_of_getElem? hm, by simp [hui, hu]⟩
    omega
  have howns : ∀ {st : Stage}, st.owns → st ≠ .over := by rintro _ ho rfl; cases ho
  have hlock : (s.buf i).lock = none := by
    refine eq_none_iff_forall_ne_some.mpr fun m hm => ?_
    obtain ⟨st, hum, ho⟩ := h.owner i hi m hm
    exact huser m _ hum (howns ho) rfl
  have hfresh : ¬ s.Logged dev d k := fun hl => by
    obtain ⟨j, hj, hc, -⟩ := h.cached d k hl
    rw [hnone j hj] at hc
    cases hc
  generalize hb : ({ s.buf i with dev := d, blockno := k, valid := false } : Buf D) = b
  have hkey : ∀ e m, b.caches e m = true ↔ e = d ∧ m = k := fun e m => by
    rw [caches_iff, ← hb]
    exact and_congr eq_comm eq_comm
  refine ⟨h.ring, ?_, ?_, ?_, h.calls, ?_, ?_, ?_, ?_, h.nodup, h.bound, h.waits, h.alone, ?_, ?_⟩
  · intro x hx y hy hdx hc
    by_cases hxi : x = i
    · by_cases hyi : y = i
      · rw [hxi, hyi]
      · rw [setBuf_of_ne s b hyi, hxi, setBuf_self, ← hb] at hc
        rw [hnone y hy] at hc
        cases hc
    · rw [setBuf_of_ne s b hxi] at hdx hc
      by_cases hyi : y = i
      · rw [hyi, setBuf_self, hkey] at hc
        have hcx := caches_self (s.buf x)
        rw [hc.1, hc.2, hnone x hx] at hcx
        cases hcx
      · rw [setBuf_of_ne s b hyi] at hc
        exact h.uniq x hx y hy hdx hc
  · intro j hj
    by_cases hji : j = i
    · have hp : ¬ (s.setBuf i b).Pinned dev b := fun hp => hfresh (by
        rw [← hb] at hp
        exact hp)
      rw [hji, setBuf_self, if_neg hp, ← hb]
      rw [if_neg hpin] at hrefs
      exact href.trans hrefs
    · rw [setBuf_of_ne s b hji]
      exact h.refs j hj
  · intro m u hm hu
    rw [setBuf_of_ne s b (huser m u hm hu)]
    exact h.live m u hm hu
  · intro m u hm hu
    rw [setBuf_of_ne s b (huser m u hm hu)]
    exact h.asked m u hm hu
  · intro m u hm ho
    rw [setBuf_of_ne s b (huser m u hm (howns ho))]
    exact h.lock m u hm ho
  · intro j hj m hm
    by_cases hji : j = i
    · rw [hji, setBuf_self, ← hb] at hm
      exact absurd hm (hlock ▸ nofun)
    · rw [setBuf_of_ne s b hji] at hm
      exact h.owner j hj m hm
  · intro e m hl
    obtain ⟨j, hj, hc, hv⟩ := h.cached e m hl
    have hji : j ≠ i := by
      rintro rfl
      obtain ⟨rfl, rfl⟩ := caches_iff.mp hc
      exact hpin hl
    exact ⟨j, hj, by rwa [setBuf_of_ne s b hji], by rwa [setBuf_of_ne s b hji]⟩
  · intro j hj hdj
    by_cases hji : j = i
    · rw [hji, owner_none (by rw [setBuf_self, ← hb]; exact hlock), setBuf_self, ← hb]
      exact ⟨nofun, .inr (h.rest d k hd hnone)⟩
    · have howner : (s.setBuf i b).owner j = s.owner j := by
        rw [State.owner, State.owner, setBuf_of_ne s b hji]
        rfl
      rw [howner, setBuf_of_ne s b hji]
      rw [setBuf_of_ne s b hji] at hdj
      exact h.data j hj hdj
  · intro e m he hno
    by_cases hc : (s.buf i).caches e m = true
    · obtain ⟨rfl, rfl⟩ := caches_iff.mp hc
      have hdata := h.data i hi he
      rw [owner_none hlock] at hdata
      exact hdata.2.resolve_left hpin
    · refine h.rest e m he fun j hj => ?_
      by_cases hji : j = i
      · rw [hji]
        exact Bool.eq_false_iff.mpr hc
      · rw [← setBuf_of_ne s b hji]
        exact hno j hj

/-- A new user of the buffer `i`, which is the one of the block `q`. -/
def State.join (s : State D) (i : Nat) (q : Nat × Nat) : State D :=
  { s.setBuf i { s.buf i with refcnt := (s.buf i).refcnt + 1 } with
    uses := s.uses ++ [⟨i, .waiting⟩], asked := s.asked ++ [q] }

theorem Inv.join (h : Inv dev s) (hdev : dev ≠ 0) (hi : i < nbuf) {q : Nat × Nat} (hq : q.1 ≠ 0)
    (hc : (s.buf i).caches q.1 q.2 = true) : Inv dev (s.join i q) := by
  -- the record of the call is there first, and then its user begins
  have h₀ := h.append i q
  generalize hs₀ : ({ s with uses := s.uses ++ [⟨i, .over⟩], asked := s.asked ++ [q] } : State D) = s₀ at h₀
  have hidev : (s.buf i).dev ≠ 0 := (caches_iff.mp hc).1 ▸ hq
  have hbuf₀ : s₀.buf = s.buf := by rw [← hs₀]; rfl
  have hu : s₀.uses[s.uses.length]? = some ⟨i, .over⟩ := by rw [← hs₀]; exact List.getElem?_concat_length
  have hbuf : (s.join i q).buf i = { s.buf i with refcnt := (s.buf i).refcnt + 1 } := setBuf_self s i _
  have huses : (s.join i q).uses = s₀.uses.set s.uses.length ⟨i, .waiting⟩ := by
    rw [← hs₀]
    exact (by simp [State.join])
  have ht : Touch dev s₀ (s.join i q) s.uses.length i .waiting := by
    refine ⟨fun j hj => ?_, by rw [hbuf, hbuf₀], by rw [hbuf, hbuf₀], huses, by rw [← hs₀]; rfl, fun d k _ => ?_⟩
    · rw [hbuf₀]
      exact setBuf_of_ne s _ hj
    · rw [← hs₀]
      exact ⟨Iff.rfl, rfl, rfl⟩
  have hpin : (s.join i q).Pinned dev ((s.join i q).buf i) ↔ s₀.Pinned dev (s₀.buf i) := by
    rw [hbuf, hbuf₀, ← hs₀]
    rfl
  refine h₀.touch hdev hu hi (hbuf₀ ▸ hidev) ⟨q, ?_, hbuf₀ ▸ hc⟩ ht h.ring ?_ nofun ?_ ?_ h.nodup h.bound h.waits h.alone ?_
  · rw [← hs₀, ← h.calls]
    exact List.getElem?_concat_length
  · have hold := h₀.refs i hi
    have husers := users_set hu huses
    rw [if_pos rfl, if_neg nofun, Nat.add_zero] at husers
    rw [if_congr hpin rfl rfl, hbuf, husers]
    rw [hbuf₀] at hold
    change (s.buf i).refcnt + 1 = _
    rw [hold, Nat.add_right_comm, hbuf₀]
  · rw [hbuf, nextLock, hbuf₀]
    rfl
  · rw [hpin, hbuf]
    exact fun hp => hbuf₀ ▸ h₀.valid_of_pinned hdev hi hp
  · have howner : (s.join i q).owner i = s₀.owner i := by
      refine h₀.owner_congr hi (by rw [hbuf, hbuf₀]) fun m st hum ho => huses ▸ List.getElem?_set_ne ?_
      rintro rfl
      cases some.inj (hu.symm.trans hum)
      cases ho
    have hdata := h₀.data i hi (hbuf₀ ▸ hidev)
    rw [howner, hbuf]
    rw [hbuf₀] at hdata
    rw [← hs₀] at hdata ⊢
    exact hdata

theorem Inv.bget_step (h : Inv dev s) (hdev : dev ≠ 0) {d k : Nat} (hd : d ≠ 0)
    (hs : step c dev s (.bget d k) = some s') : Inv dev s' := by
  obtain ⟨⟨i, cache⟩, hget, rfl⟩ := map_eq_some_iff.mp hs
  obtain ⟨hi, ⟨hc, rfl⟩ | ⟨hnone, href, rfl⟩⟩ := h.bget_spec hget
  · exact h.join hdev hi hd hc
  · have hjoin := (h.recycle hi href hd hnone).join hdev hi (q := (d, k)) hd
      (by rw [setBuf_self]; exact caches_iff.mpr ⟨rfl, rfl⟩)
    have heq : (s.setBuf i { s.buf i with dev := d, blockno := k, valid := false }).join i (d, k) = { s with
          bcache := s.bcache.set i { s.buf i with dev := d, blockno := k, valid := false, refcnt := 1 }
          uses := s.uses ++ [⟨i, .waiting⟩], asked := s.asked ++ [(d, k)] } := by
      rw [State.join, setBuf_self, State.setBuf, State.setBuf, Bcache.set, Bcache.set, update_idem, href]
      rfl
    rw [heq] at hjoin
    exact hjoin

/-! ### Whole runs -/

theorem Inv.header (h : Inv dev s) {lh : List Nat} {installed outstanding : Nat} {committing : Bool}
    (hl : lh.drop installed = s.lh.drop s.installed) (hnodup : lh.Nodup) (hbound : installed ≤ lh.length)
    (hwaits : committing = false → installed = 0) (halone : committing = true → outstanding = 0) :
    Inv dev { s with lh, installed, outstanding, committing } := by
  have hlogged : ∀ d b, ({ s with lh, installed, outstanding, committing } : State D).Logged dev d b ↔
      s.Logged dev d b := fun d b => by
    rw [State.Logged, State.Logged, ← hl]
  refine ⟨h.ring, h.uniq, fun i hi => ?_, h.live, h.calls, h.asked, h.lock, h.owner,
    fun d b hb => h.cached d b ((hlogged d b).mp hb), hnodup, hbound, hwaits, halone,
    fun i hi hd => (h.data i hi hd).congr (hlogged _ _) rfl rfl, h.rest⟩
  exact (h.refs i hi).trans (congrArg (s.users i + ·) (if_congr (hlogged _ _).symm rfl rfl))

theorem Inv.stepUse (h : Inv dev s) (hdev : dev ≠ 0) {a : Act D} (hu : s.uses[n]? = some ⟨i, st⟩)
    (hc : Issued dev s (.use n a)) (hs : stepUse c dev s n i st a = some s') : Inv dev s' := by
  unfold Bio.stepUse at hs
  split at hs
  · exact h.lock_step (c := c) hdev hu hs
  · exact h.read_step (c := c) hdev hu hs
  · exact h.modify_step (c := c) hdev hu hs
  · exact h.bwrite_step (c := c) hdev hu hs
  · exact h.logWrite_step (c := c) hdev hu (hc _ hu) hs
  · exact h.bunpin_step (c := c) hdev hu hs
  · exact h.unlock_step (c := c) hdev hu (fun hw => hc _ hu (congrArg Stage.holding hw)) hs
  · exact h.brelse_step (c := c) hdev hu hs
  · cases hs

theorem Inv.step (h : Inv dev s) (hdev : dev ≠ 0) {e : Event D} (hc : Issued dev s e)
    (hs : step c dev s e = some s') : Inv dev s' := by
  cases e with
  | bget d b => exact h.bget_step hdev hc hs
  | use n a =>
    obtain ⟨⟨i, st⟩, hu, hs⟩ := bind_eq_some_iff.mp hs
    exact h.stepUse hdev hu hc hs
  | beginOp =>
    obtain ⟨hg, rfl⟩ := ite_none_left_eq_some.mp hs |>.imp id some.inj
    exact h.header rfl h.nodup h.bound h.waits fun hcom => absurd (.inl hcom) hg
  | endOp =>
    obtain ⟨hg, rfl⟩ := ite_none_left_eq_some.mp hs |>.imp id some.inj
    have hidle : s.committing = false := Bool.eq_false_iff.mpr fun hcom => hg (.inr hcom)
    exact h.header rfl h.nodup h.bound (fun _ => h.waits hidle) of_decide_eq_true
  | clear =>
    obtain ⟨⟨hcom, hall⟩, rfl⟩ := guarded hs
    exact h.header (by rw [hall, drop_length]; rfl) nodup_nil (Nat.le_refl 0) (fun _ => rfl) h.alone
  | finish =>
    obtain ⟨⟨hcom, hempty⟩, rfl⟩ := guarded hs
    have hzero : s.installed = 0 := Nat.le_zero.mp (by simpa [hempty] using h.bound)
    exact h.header rfl h.nodup h.bound (fun _ => hzero) nofun

theorem ring_insert : ∀ (bs : List Nat) (cache : Bcache D) {l : List Nat},
    Dlist.Ring cache.next cache.prev head l → bs.Nodup → (∀ b ∈ bs, b ∉ head :: l) →
    Dlist.Ring (bs.foldl Bcache.insert cache).next (bs.foldl Bcache.insert cache).prev head (bs.reverse ++ l)
  | [], _, _, h, _, _ => h
  | b :: bs, cache, l, h, hbs, hnot => by
    rw [foldl_cons, reverse_cons, append_assoc]
    have hb := nodup_cons.mp hbs
    refine ring_insert bs _ (h.link (hnot b mem_cons_self)) hb.2 fun x hx hmem => ?_
    rcases mem_cons.mp hmem with rfl | hmem
    · exact hnot _ (mem_cons_of_mem b hx) mem_cons_self
    · rcases mem_cons.mp hmem with rfl | hmem
      · exact hb.1 hx
      · exact hnot x (mem_cons_of_mem b hx) (mem_cons_of_mem head hmem)

theorem insert_buf (cache : Bcache D) (b j : Nat) (h : ∀ j, (cache.buf j).lock = none) :
    (cache.insert b).buf j = cache.buf j := by
  change update cache.buf b { cache.buf b with lock := none } j = _
  by_cases hj : j = b
  · rw [hj, update_self, ← h b]
  · rw [update_of_ne hj]

theorem foldl_insert_buf (bs : List Nat) {cache : Bcache D} (h : ∀ j, (cache.buf j).lock = none) (j : Nat) :
    (bs.foldl Bcache.insert cache).buf j = cache.buf j := by
  induction bs generalizing cache with
  | nil => rfl
  | cons b bs ih =>
    rw [foldl_cons, ih fun j => by rw [insert_buf cache b j h]; exact h j, insert_buf cache b j h]

theorem boot_buf (zero : D) (disk : Nat → Nat → D) (i : Nat) :
    (boot zero disk).buf i = ⟨false, 0, 0, 0, none, zero⟩ := foldl_insert_buf _ (fun _ => rfl) i

theorem inv_boot (hdev : dev ≠ 0) (zero : D) (disk : Nat → Nat → D) : Inv dev (boot zero disk) := by
  have hempty : Dlist.Ring (update (bss zero).next head head) (update (bss zero).prev head head) head [] :=
    ⟨nodup_singleton head, update_self .., update_self ..⟩
  have hring := ring_insert (List.range nbuf) { bss zero with
    next := update (bss zero).next head head
    prev := update (bss zero).prev head head } hempty nodup_range fun b hb => by
      rw [mem_singleton]
      exact Nat.ne_of_lt (mem_range.mp hb)
  rw [append_nil] at hring
  refine ⟨⟨_, hring, reverse_perm _⟩, ?_, ?_, nofun, rfl, nofun, nofun, ?_, nofun, nodup_nil,
    Nat.le_refl 0, fun _ => rfl, nofun, ?_, fun _ _ _ _ => rfl⟩
  · intro i hi j hj hd
    rw [boot_buf] at hd
    exact absurd rfl hd
  · intro i hi
    rw [boot_buf, if_neg (fun hp => hdev hp.1.symm)]
    rfl
  · intro i hi n hn
    rw [boot_buf] at hn
    cases hn
  · intro i hi hd
    rw [boot_buf] at hd
    exact absurd rfl hd

theorem stepUse_key {a : Act D} (hs : stepUse c dev s n i st a = some s') (j : Nat) :
    (s'.buf j).dev = (s.buf j).dev ∧ (s'.buf j).blockno = (s.buf j).blockno := by
  have hset : ∀ b : Buf D, b.dev = (s.buf i).dev ∧ b.blockno = (s.buf i).blockno →
      (update s.buf i b j).dev = (s.buf j).dev ∧ (update s.buf i b j).blockno = (s.buf j).blockno := by
    intro b hb
    by_cases hj : j = i
    · rw [hj, update_self]
      exact hb
    · rw [update_of_ne hj]
      exact ⟨rfl, rfl⟩
  unfold stepUse at hs
  split at hs
  · obtain ⟨-, rfl⟩ := guarded hs
    exact hset _ ⟨rfl, rfl⟩
  · cases some.inj hs
    exact hset _ ⟨rfl, rfl⟩
  · cases some.inj hs
    exact hset _ ⟨rfl, rfl⟩
  · obtain ⟨-, rfl⟩ := guarded hs
    exact ⟨rfl, rfl⟩
  · obtain ⟨-, rfl⟩ := ite_none_left_eq_some.mp hs |>.imp id some.inj
    rw [logWrite_eq]
    exact hset _ ⟨rfl, rfl⟩
  · obtain ⟨-, rfl⟩ := guarded hs
    exact hset _ ⟨rfl, rfl⟩
  · obtain ⟨-, rfl⟩ := guarded hs
    exact hset _ ⟨rfl, rfl⟩
  · cases some.inj hs
    change ((brelse s.bcache i).buf j).dev = _ ∧ ((brelse s.bcache i).buf j).blockno = _
    rw [brelse_buf]
    exact hset _ ⟨rfl, rfl⟩
  · cases hs

theorem Inv.not_recycled (h : Inv dev s) {e : Event D} (hs : Bio.step c dev s e = some s') (hi : i < nbuf)
    (hp : s.Pinned dev (s.buf i)) :
    (s'.buf i).dev = (s.buf i).dev ∧ (s'.buf i).blockno = (s.buf i).blockno := by
  cases e with
  | bget d k =>
    obtain ⟨⟨j, cache⟩, hget, rfl⟩ := map_eq_some_iff.mp hs
    have href := h.refs i hi
    rw [if_pos hp] at href
    obtain ⟨hj, ⟨hc, rfl⟩ | ⟨hnone, hzero, rfl⟩⟩ := h.bget_spec hget
    · by_cases hij : i = j
      · subst hij
        change (update s.buf i _ i).dev = _ ∧ (update s.buf i _ i).blockno = _
        rw [update_self]
        exact ⟨rfl, rfl⟩
      · change (update s.buf j _ i).dev = _ ∧ (update s.buf j _ i).blockno = _
        rw [update_of_ne hij]
        exact ⟨rfl, rfl⟩
    · have hij : i ≠ j := by rintro rfl; omega
      change (update s.buf j _ i).dev = _ ∧ (update s.buf j _ i).blockno = _
      rw [update_of_ne hij]
      exact ⟨rfl, rfl⟩
  | use n a =>
    obtain ⟨⟨j, st⟩, -, hs⟩ := bind_eq_some_iff.mp hs
    exact stepUse_key hs i
  | beginOp | endOp | clear | finish =>
    simp only [Bio.step] at hs
    split at hs <;> cases hs
    exact ⟨rfl, rfl⟩

/-- **The buffer cache is correct in every run of its users.** The list goes through every buffer once in both
directions; a block is in one buffer; a reference count counts the users and the pin of the log, so that the buffer
of a logged block is not recycled before the block is installed; and from the return of `bread` on, until it is
changed, a buffer holds what the last user to release the block left in it. -/
theorem buffer_cache_correct (hdev : dev ≠ 0) {zero : D} {disk : Nat → Nat → D} {tr : List (Event D)}
    (h : Run (step c dev) (Issued dev) (boot zero disk) tr s) :
    (∃ l, Dlist.Ring s.bcache.next s.bcache.prev head l ∧ l.Perm (List.range nbuf)) ∧
    (∀ i < nbuf, ∀ j < nbuf, (s.buf i).dev ≠ 0 → (s.buf i).dev = (s.buf j).dev →
      (s.buf i).blockno = (s.buf j).blockno → i = j) ∧
    (∀ i < nbuf, (s.buf i).refcnt =
      s.users i + if s.Logged dev (s.buf i).dev (s.buf i).blockno then 1 else 0) ∧
    (∀ e s', step c dev s e = some s' → ∀ i < nbuf, s.Logged dev (s.buf i).dev (s.buf i).blockno →
      (s'.buf i).dev = (s.buf i).dev ∧ (s'.buf i).blockno = (s.buf i).blockno) ∧
    ∀ (n i : Nat), s.uses[n]? = some ⟨i, .holding .same⟩ →
      ∃ d b, s.asked[n]? = some (d, b) ∧ (s.buf i).caches d b ∧ (s.buf i).data = s.content d b := by
  have hinv : Inv dev s :=
    h.invariant (inv_boot hdev zero disk) fun _ _ _ hi hc hs => hi.step hdev hc hs
  refine ⟨hinv.ring, fun i hi j hj hd he hb => hinv.uniq i hi j hj hd (caches_iff.mpr ⟨he.symm, hb.symm⟩),
    hinv.refs, fun e s' hs i hi hp => hinv.not_recycled hs hi hp, fun n i hu => ?_⟩
  obtain ⟨hi, hidev⟩ := hinv.live n _ hu nofun
  obtain ⟨⟨d, b⟩, hq, hc⟩ := hinv.asked n _ hu nofun
  have hdata := hinv.data i hi hidev
  rw [hinv.owner_of_owns hu rfl] at hdata
  obtain ⟨rfl, rfl⟩ := caches_iff.mp hc
  exact ⟨_, _, hq, hc, hdata.2.1⟩

/-- Block 40 is changed in an operation and logged, and read again before the commit. -/
def readBack : List (Event Nat) :=
  [.beginOp, .bget 1 40, .use 0 .lock, .use 0 .read, .use 0 (.modify 7), .use 0 .logWrite, .use 0 .unlock,
    .use 0 .brelse, .endOp, .bget 1 40, .use 1 .lock]

theorem readBack_correct : ∃ s i, Run (step Log.mkfsLog 1) (Issued 1) (boot 0 fun _ b => b) readBack s ∧
    s.uses[1]? = some ⟨i, .holding .same⟩ ∧ (s.buf i).caches 1 40 ∧ (s.buf i).data = 7 := by
  have hend : (exec (step Log.mkfsLog 1) (Issued 1) (boot 0 fun _ b => b) readBack).map
      (fun s => (s.uses[1]?, s.asked[1]?, s.content 1 40)) =
      some (some ⟨0, .holding .same⟩, some (1, 40), 7) := by decide +kernel
  obtain ⟨s, hs, hfacts⟩ := map_eq_some_iff.mp hend
  simp only [Prod.mk.injEq] at hfacts
  obtain ⟨hu, hq, hc⟩ := hfacts
  have hrun := run_of_exec hs
  obtain ⟨d, b, hasked, hcaches, hdata⟩ := (buffer_cache_correct (by decide) hrun).2.2.2.2 1 0 hu
  cases some.inj (hq.symm.trans hasked)
  exact ⟨s, 0, hrun, hu, hcaches, hdata.trans hc⟩

/-! ### What the users can rely on -/

/-- The calls of `bread` that have not come to the end of `brelse`. -/
def State.busy (s : State D) : List Use := s.uses.filter fun u => u.stage != .over

theorem Inv.bget_none (h : Inv dev s) {d b : Nat} (hs : bget s.bcache d b = none) (hi : i < nbuf) :
    (s.buf i).refcnt ≠ 0 := by
  obtain ⟨l, hr, hl⟩ := h.ring
  have hlen : l.length < nbuf + 1 := by rw [hl.length_eq, length_range]; exact Nat.lt_succ_self _
  rw [bget, hr.scan_next _ hlen, hr.scan_prev _ hlen] at hs
  split at hs
  · cases hs
  · split at hs
    · cases hs
    · next hnone =>
        have hmem : i ∈ l.reverse := mem_reverse.mpr (hl.mem_iff.mpr (mem_range.mpr hi))
        exact fun h0 => List.find?_eq_none.mp hnone i hmem (beq_iff_eq.mpr h0)

theorem mem_busy_of_users (h : s.users i ≠ 0) : i ∈ s.busy.map Use.buf := by
  obtain ⟨u, hu, hp⟩ := countP_pos_iff.mp (Nat.pos_of_ne_zero h)
  rw [Bool.and_eq_true, beq_iff_eq] at hp
  exact mem_map.mpr ⟨u, mem_filter.mpr ⟨hu, hp.2⟩, hp.1⟩

theorem Inv.card_pinned (h : Inv dev s) (hdev : dev ≠ 0) :
    ((Finset.range nbuf).filter fun i => s.Pinned dev (s.buf i)).card ≤ s.lh.length - s.installed := by
  have hto : (s.lh.drop s.installed).toFinset.card ≤ s.lh.length - s.installed :=
    (toFinset_card_le _).trans (length_drop ..).le
  refine le_trans (Finset.card_le_card_of_injOn (fun i => (s.buf i).blockno) ?_ ?_) hto
  · intro i hi
    exact mem_toFinset.mpr (Finset.mem_filter.mp hi).2.2
  · intro i hi j hj hij
    obtain ⟨hin, hdi, -⟩ := Finset.mem_filter.mp hi
    obtain ⟨hjn, hdj, -⟩ := Finset.mem_filter.mp hj
    refine h.uniq i (Finset.mem_range.mp hin) j (Finset.mem_range.mp hjn) (hdi ▸ hdev) ?_
    exact caches_iff.mpr ⟨hdj.trans hdi.symm, hij.symm⟩

/-- **`bget` finds a buffer unless all are spoken for**: in every run of the users it returns as long as the calls of
`bread` that are under way and the blocks that the log keeps are together fewer than the buffers. -/
theorem bget_returns (hdev : dev ≠ 0) {zero : D} {disk : Nat → Nat → D} {tr : List (Event D)}
    (h : Run (step c dev) (Issued dev) (boot zero disk) tr s)
    (hroom : s.busy.length + (s.lh.length - s.installed) < nbuf) (d b : Nat) : (bget s.bcache d b).isSome := by
  have hinv : Inv dev s :=
    h.invariant (inv_boot hdev zero disk) fun _ _ _ hi hc hs => hi.step hdev hc hs
  by_contra hs
  have hs : bget s.bcache d b = none := not_isSome_iff_eq_none.mp hs
  have hcover : Finset.range nbuf ⊆
      (s.busy.map Use.buf).toFinset ∪ (Finset.range nbuf).filter fun i => s.Pinned dev (s.buf i) := by
    intro i hi
    have href := hinv.bget_none hs (Finset.mem_range.mp hi)
    rw [hinv.refs i (Finset.mem_range.mp hi)] at href
    by_cases hp : s.Pinned dev (s.buf i)
    · exact Finset.mem_union_right _ (Finset.mem_filter.mpr ⟨hi, hp⟩)
    · rw [if_neg hp] at href
      exact Finset.mem_union_left _ (mem_toFinset.mpr (mem_busy_of_users href))
  have hle : nbuf ≤ s.busy.length + (s.lh.length - s.installed) := calc
    nbuf = (Finset.range nbuf).card := (Finset.card_range _).symm
    _ ≤ _ := Finset.card_le_card hcover
    _ ≤ _ := Finset.card_union_le _ _
    _ ≤ s.busy.length + (s.lh.length - s.installed) :=
      Nat.add_le_add ((toFinset_card_le _).trans (length_map _).le) (hinv.card_pinned hdev)
  exact absurd hroom (not_lt.mpr hle)

theorem readBack_leaves_buffers : ∃ s : State Nat,
    Run (step Log.mkfsLog 1) (Issued 1) (boot 0 fun _ b => b) readBack s ∧ ∀ d b, (bget s.bcache d b).isSome := by
  have hend : (exec (step Log.mkfsLog 1) (Issued 1) (boot 0 fun _ b => b) readBack).map
      (fun s => decide (s.busy.length + (s.lh.length - s.installed) < nbuf)) = some true := by decide +kernel
  obtain ⟨s, hs, hroom⟩ := map_eq_some_iff.mp hend
  exact ⟨s, run_of_exec hs, bget_returns (by decide) (run_of_exec hs) (of_decide_eq_true hroom)⟩

/-- **What was left in a block is not lost.** In every run of the users, a block that nobody is changing is on the
disk as its last user left it, or it is so in a buffer that is in use. -/
theorem left_contents_kept (hdev : dev ≠ 0) {zero : D} {disk : Nat → Nat → D} {tr : List (Event D)}
    (h : Run (step c dev) (Issued dev) (boot zero disk) tr s) {d b : Nat} (hd : d ≠ 0)
    (hsame : ∀ (n i : Nat) (w : Work), s.uses[n]? = some ⟨i, .holding w⟩ → (s.buf i).caches d b → w = .same) :
    s.disk d b = s.content d b ∨
    ∃ i < nbuf, (s.buf i).caches d b ∧ (s.buf i).data = s.content d b ∧ (s.buf i).refcnt ≠ 0 := by
  have hinv : Inv dev s :=
    h.invariant (inv_boot hdev zero disk) fun _ _ _ hi hc hs => hi.step hdev hc hs
  by_cases hcached : ∃ i < nbuf, (s.buf i).caches d b
  · obtain ⟨i, hi, hc⟩ := hcached
    obtain ⟨rfl, rfl⟩ := caches_iff.mp hc
    have hleft : ((s.buf i).valid = true → (s.buf i).data = s.content (s.buf i).dev (s.buf i).blockno) ∧
        s.Safe dev (s.buf i) := by
      have hdata := hinv.data i hi hd
      cases hl : (s.buf i).lock with
      | none =>
        rw [owner_none hl] at hdata
        exact hdata
      | some n =>
        obtain ⟨st, hu, ho⟩ := hinv.owner i hi n hl
        rw [owner_eq hl hu] at hdata
        cases st with
        | reading => exact ⟨fun hv => absurd (hv.symm.trans hdata.1) (by decide), .inr hdata.2⟩
        | holding w =>
          obtain rfl := hsame n i w hu hc
          exact ⟨fun _ => hdata.2.1, hdata.2.2⟩
        | _ => cases ho
    rcases hleft.2 with hpin | hdisk
    · -- The buffer of a logged block is valid, and the pin of the log is in its count.
      obtain ⟨j, hj, hcj, hvalid⟩ := hinv.cached _ _ hpin
      obtain rfl := hinv.uniq i hi j hj hd hcj
      refine .inr ⟨i, hi, hc, hleft.1 hvalid, ?_⟩
      rw [hinv.refs i hi, if_pos hpin]
      exact Nat.succ_ne_zero _
    · exact .inl hdisk
  · push Not at hcached
    exact .inl (hinv.rest d b hd fun i hi => Bool.eq_false_iff.mpr (hcached i hi))

theorem readBack_kept : ∃ s : State Nat,
    Run (step Log.mkfsLog 1) (Issued 1) (boot 0 fun _ b => b) readBack s ∧ s.disk 1 40 = 40 ∧
    ∃ i < nbuf, (s.buf i).caches 1 40 ∧ (s.buf i).data = 7 := by
  have hend : (exec (step Log.mkfsLog 1) (Issued 1) (boot 0 fun _ b => b) readBack).map
      (fun s => (s.uses, s.disk 1 40, s.content 1 40)) =
      some ([⟨0, .over⟩, ⟨0, .holding .same⟩], 40, 7) := by decide +kernel
  obtain ⟨s, hs, hfacts⟩ := map_eq_some_iff.mp hend
  simp only [Prod.mk.injEq] at hfacts
  obtain ⟨huses, hdisk, hcontent⟩ := hfacts
  refine ⟨s, run_of_exec hs, hdisk, ?_⟩
  have hsame : ∀ (n i : Nat) (w : Work), s.uses[n]? = some ⟨i, .holding w⟩ → (s.buf i).caches 1 40 → w = .same := by
    intro n i w hu _
    have hmem := mem_of_getElem? hu
    rw [huses] at hmem
    have hw : i = 0 ∧ w = .same := by simpa using hmem
    exact hw.2
  rcases left_contents_kept (by decide) (run_of_exec hs) (by decide) hsame with hsafe | ⟨i, hi, hc, hdata, -⟩
  · rw [hdisk, hcontent] at hsafe
    cases hsafe
  · exact ⟨i, hi, hc, hdata.trans hcontent⟩

end Xv6Armv8.Bio

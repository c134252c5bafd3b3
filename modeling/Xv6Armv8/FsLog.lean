import Xv6Armv8.FsContent

/-! What the operations on blocks hand to `log_write`. Every change to the cached disk is logged, but for a
part of a chunk that `writei` could not finish. -/

namespace Xv6Armv8.Fs

open Spec Alloc Function

variable {s t u : State} {k i b bn ind off n : Nat}

/-- The state after block `b` has been logged. -/
def State.log (s : State) (b : Nat) : State := { s with logged := if b ∈ s.logged then s.logged else b :: s.logged }

theorem logWrite_exact : Sat (logWrite b) s (fun _ t => t = s.log b) LogErr := by
  unfold logWrite
  rw [sat_bind, sat_get, sat_ite]
  refine ⟨fun _ => .inl rfl, fun _ => ?_⟩
  rw [sat_ite]
  exact ⟨fun _ => .inr rfl, fun _ => rfl⟩

theorem mem_log : b ∈ (s.log b).logged := by
  unfold State.log
  dsimp only
  split
  · assumption
  · exact List.mem_cons_self

theorem sub_log {x : Nat} (hx : x ∈ s.logged) : x ∈ (s.log b).logged := by
  unfold State.log
  dsimp only
  split
  · exact hx
  · exact List.mem_cons_of_mem b hx

theorem of_mem_log {x : Nat} (hx : x ∈ (s.log b).logged) : x = b ∨ x ∈ s.logged := by
  unfold State.log at hx
  dsimp only at hx
  split at hx
  · exact .inr hx
  · exact List.mem_cons.mp hx

/-! ### Every change is logged -/

/-- What has changed on the cached disk is in the log. -/
structure Logs (s t : State) : Prop where
  sb : t.sb = s.sb
  sub : ∀ b ∈ s.logged, b ∈ t.logged
  data : ∀ b, t.data b ≠ s.data b → b ∈ t.logged
  inode : ∀ i, t.dinode i ≠ s.dinode i → s.sb.iblock i ∈ t.logged
  bitmap : ∀ b, t.bitmap b ≠ s.bitmap b → s.sb.bblock b ∈ t.logged
  /-- A block that has been allocated is logged itself. -/
  taken : ∀ b, s.bitmap b = false → t.bitmap b = true → b ∈ t.logged

instance : Std.Refl Logs where
  refl _ := ⟨rfl, fun _ h => h, fun _ h => absurd rfl h, fun _ h => absurd rfl h, fun _ h => absurd rfl h,
    fun _ h h' => absurd (h.symm.trans h') Bool.false_ne_true⟩

theorem Logs.trans (h : Logs s t) (h' : Logs t u) : Logs s u where
  sb := h'.sb.trans h.sb
  sub := fun b hb => h'.sub b (h.sub b hb)
  data := by
    intro b hb
    by_cases heq : u.data b = t.data b
    · rw [heq] at hb
      exact h'.sub b (h.data b hb)
    · exact h'.data b heq
  inode := by
    intro i hi
    by_cases heq : u.dinode i = t.dinode i
    · rw [heq] at hi
      exact h'.sub _ (h.inode i hi)
    · rw [← h.sb]
      exact h'.inode i heq
  bitmap := by
    intro b hb
    by_cases heq : u.bitmap b = t.bitmap b
    · rw [heq] at hb
      exact h'.sub _ (h.bitmap b hb)
    · rw [← h.sb]
      exact h'.bitmap b heq
  taken := by
    intro b hs hu
    cases ht : t.bitmap b with
    | false => exact h'.taken b ht hu
    | true => exact h'.sub b (h.taken b hs ht)

instance : IsTrans State Logs where
  trans _ _ _ := Logs.trans

theorem Logs.table {tab : Nat → Inode} (h : Logs s t) : Logs s { t with itable := tab } :=
  ⟨h.sb, h.sub, h.data, h.inode, h.bitmap, h.taken⟩

theorem setFields_logs {f : Dinode → Dinode} : Keeps Logs (fun _ => True) (setFields k f) :=
  .modify fun s => (refl_of Logs s).table

theorem setBlock_logs {f : ByteStore → ByteStore} :
    Keeps Logs (fun _ => True) (do setBlock b f; logWrite b) := by
  intro s
  unfold setBlock
  rw [sat_bind, sat_modify]
  refine logWrite_exact.mono (fun _ t ht => ?_) fun _ _ => trivial
  rw [ht]
  refine ⟨rfl, fun _ => sub_log, fun x hx => ?_, fun _ h => absurd rfl h, fun _ h => absurd rfl h,
    fun _ h h' => absurd (h.symm.trans h') Bool.false_ne_true⟩
  have heq : x = b := by
    by_contra hne
    exact hx (update_of_ne hne ..)
  rw [heq]
  exact mem_log

theorem balloc_logs : Keeps Logs (fun _ => True) balloc := by
  intro s
  unfold balloc setBit bzero setBlock
  rw [sat_bind, sat_get]
  cases (List.range s.sb.size).find? fun b => s.bitmap b = false with
  | none => exact refl_of Logs s
  | some b =>
    dsimp only
    rw [sat_bind, sat_modify, sat_bind]
    refine logWrite_exact.mono (fun _ t ht => ?_) fun _ _ => trivial
    rw [sat_bind, sat_bind, sat_modify]
    refine logWrite_exact.mono (fun _ u hu => ?_) fun _ _ => trivial
    rw [sat_pure, hu]
    have hmem : b ∈ (State.log { t with data := update t.data b ((t.data b).fill 0 bsize 0) } b).logged :=
      mem_log
    have hbit : s.sb.bblock b ∈ t.logged := by
      rw [ht]
      exact mem_log
    refine ⟨by rw [ht]; rfl, fun x hx => sub_log (by rw [ht]; exact sub_log hx), fun x hx => ?_, fun i hi => ?_,
      fun x hx => ?_, fun x hx hx' => ?_⟩
    · have heq : x = b := by
        by_contra hne
        apply hx
        show update t.data b _ x = _
        rw [update_of_ne hne, ht]
        rfl
      rw [heq]
      exact hmem
    · rw [ht] at hi
      exact absurd rfl hi
    · have heq : x = b := by
        by_contra hne
        apply hx
        show t.bitmap x = _
        rw [ht]
        exact update_of_ne hne ..
      rw [heq]
      exact sub_log hbit
    · have heq : x = b := by
        by_contra hne
        have hsame : t.bitmap x = s.bitmap x := by
          rw [ht]
          exact update_of_ne hne ..
        exact absurd ((hsame.trans hx).symm.trans hx') Bool.false_ne_true
      rw [heq]
      exact hmem

theorem addrsEntry_logs : Keeps Logs (fun _ => True) (addrsEntry k i) :=
  .bind .get fun _ => .ite
    (.bind balloc_logs fun _ => .ite .pure (.bind setFields_logs fun _ => .pure)) .pure

theorem indirectEntry_logs {j : Nat} : Keeps Logs (fun _ => True) (indirectEntry ind j) := by
  refine .bind .get fun _ => .ite (.bind balloc_logs fun b => .ite .pure ?_) .pure
  intro s
  have hblock := setBlock_logs (b := ind) (f := fun a => a.st (4 * j) 4 b) s
  rw [sat_bind] at hblock ⊢
  refine hblock.imp fun _ t ht => ?_
  rw [sat_bind]
  exact ht

theorem bmap_logs : Keeps Logs (fun _ => True) (bmap k bn) :=
  .ite addrsEntry_logs (.ite
    (.bind addrsEntry_logs fun _ => .ite .pure indirectEntry_logs) (.throw trivial))

/-- **A block that an inode has got is in the log.** -/
theorem Logs.fresh {p : Nat × Nat} (h : Logs s u) (hs : Disk (s.eff k) s) (ht : Disk (t.eff k) t) (hsb : t.sb = s.sb)
    (hmap : u.bitmap = t.bitmap) (hkeep : ∀ q, s.slotsAt k q ≠ 0 → t.slotsAt k q = s.slotsAt k q)
    (h0 : s.slotsAt k p = 0) (h1 : t.slotsAt k p ≠ 0) : t.slotsAt k p ∈ u.logged := by
  have hdata : s.sb.inData (t.slotsAt k p) := by
    rw [← hsb]
    exact ht.owns.area p h1
  have hmark : u.bitmap (t.slotsAt k p) = true := by
    rw [hmap]
    exact ht.owns.marked h1
  apply h.taken _ _ hmark
  by_contra hmarked
  -- a block in use belongs to a place, which keeps it
  obtain ⟨q, hq⟩ := (hs.owns.mark_iff _ hdata).mp (by simpa using hmarked)
  have hq' : s.slotsAt k q = t.slotsAt k p := hq
  have hne : s.slotsAt k q ≠ 0 := by rwa [hq']
  have hsame : t.slotsAt k q = t.slotsAt k p := (hkeep q hne).trans hq'
  have heq : q = p := ht.owns.inj q p hsame fun h => h1 (hsame.symm.trans h)
  rw [heq] at hne
  exact hne h0

end Xv6Armv8.Fs

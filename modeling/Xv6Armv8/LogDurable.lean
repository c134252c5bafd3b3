import Xv6Armv8.LogModel
import Mathlib.Data.List.GetD

/-! What the disk must hold at a crash. `Durable` says of the disk alone that recovery leads to an
image: the header on the disk, if it is not empty, names home blocks whose log copies are those of
the image, and every other home block already holds it. Writing a log copy home keeps that, and
`recover_from_log` turns it into the image. -/

namespace Xv6Armv8.Log

open ByteStore Function List

/-! ### The header block -/

theorem ld_putBlocks_below {off : Nat} : ∀ (l : List Nat) (blk : Block) (i : Nat), off + 4 ≤ 4 + 4 * i →
    (putBlocks blk i l).ld off 4 = blk.ld off 4
  | [], _, _, _ => rfl
  | b :: l, blk, i, h => by
    rw [putBlocks, ld_putBlocks_below l _ (i + 1) (by omega)]
    exact ld_st_of_disjoint (Or.inl h)

theorem ld_putBlocks : ∀ (l : List Nat) (blk : Block) (i j : Nat) (hj : j < l.length),
    (putBlocks blk i l).ld (4 + 4 * (i + j)) 4 = l[j] % 2 ^ 32
  | b :: l, blk, i, 0, _ => by
    rw [putBlocks, ld_putBlocks_below l _ (i + 1) (by omega)]
    exact ld_st_self _ _ _ _
  | b :: l, blk, i, j + 1, hj => by
    have h := ld_putBlocks l (blk.st (4 + 4 * i) 4 b) (i + 1) j (by simpa using hj)
    rw [putBlocks, show i + (j + 1) = i + 1 + j by omega, h]
    rfl

theorem getHead_putHead (blk : Block) (lh : List Nat) (hlen : lh.length < 2 ^ 32)
    (hb : ∀ b ∈ lh, b < 2 ^ 32) : getHead (putHead blk lh) = lh := by
  have hn : (putHead blk lh).ld 0 4 = lh.length := by
    rw [putHead, ld_putBlocks_below lh _ 0 (by omega), ld_st_self]
    exact Nat.mod_eq_of_lt hlen
  apply ext_getElem
  · simp [getHead, hn]
  · intro j h1 h2
    have h := ld_putBlocks lh (blk.st 0 4 lh.length) 0 j h2
    rw [Nat.zero_add] at h
    simp only [getHead, getElem_map, getElem_range]
    rw [putHead, h]
    exact Nat.mod_eq_of_lt (hb _ (getElem_mem h2))

theorem getHead_putHead_nil (blk : Block) : getHead (putHead blk []) = [] :=
  getHead_putHead blk [] (by simp) (by simp)

theorem absorb_eq (lh : List Nat) (b : Nat) : absorb lh b = if b ∈ lh then lh else lh ++ [b] := by
  unfold absorb
  by_cases hb : b ∈ lh
  · have hi : lh.idxOf b < lh.length := idxOf_lt_length_of_mem hb
    rw [if_neg (Nat.ne_of_lt hi), if_pos hb]
    apply ext_getElem
    · simp
    · intro j h1 h2
      rw [getElem_set]
      split
      · next hj =>
          subst hj
          exact (getElem_idxOf hi).symm
      · rfl
  · rw [if_pos (idxOf_eq_length_iff.mpr hb), if_neg hb]

theorem mem_absorb {lh : List Nat} {b x : Nat} : x ∈ absorb lh b ↔ x ∈ lh ∨ x = b := by
  rw [absorb_eq]
  split
  · next hb =>
      constructor
      · exact Or.inl
      · rintro (hx | rfl)
        · exact hx
        · exact hb
  · simp

/-! ### What the disk holds at a crash -/

/-- The disk from which recovery leads to the image `I`. -/
structure Durable (c : Cfg) (disk : Image) (I : Image) : Prop where
  room : (getHead (disk c.start)).length < c.size
  home : ∀ b ∈ getHead (disk c.start), c.IsHome b
  copies : ∀ i, i < (getHead (disk c.start)).length →
    disk (c.start + i + 1) = I ((getHead (disk c.start)).getD i 0)
  rest : ∀ b, c.IsHome b → b ∉ getHead (disk c.start) → disk b = I b

variable {c : Cfg}

theorem Cfg.not_isHome_start (c : Cfg) : ¬c.IsHome c.start := by
  have := c.size_pos
  unfold Cfg.IsHome
  omega

theorem Cfg.not_isHome_log {i : Nat} (h : i + 1 < c.size) : ¬c.IsHome (c.start + i + 1) := by
  unfold Cfg.IsHome
  omega

theorem Cfg.IsHome.ne {b x : Nat} (hb : c.IsHome b) (hx : ¬c.IsHome x) : b ≠ x := by
  rintro rfl
  exact hx hb

theorem getD_mem {l : List Nat} {i : Nat} (h : i < l.length) : l.getD i 0 ∈ l := by
  rw [getD_eq_getElem _ _ h]
  exact getElem_mem h

/-- Writing one log copy to its home block keeps the disk recoverable to the same image. -/
theorem Durable.install {disk I : Image} (h : Durable c disk I) {i : Nat}
    (hi : i < (getHead (disk c.start)).length) :
    Durable c (update disk ((getHead (disk c.start)).getD i 0) (disk (c.start + i + 1))) I := by
  have hhome := h.home _ (getD_mem hi)
  have hstart : update disk ((getHead (disk c.start)).getD i 0) (disk (c.start + i + 1)) c.start =
      disk c.start := update_of_ne (hhome.ne c.not_isHome_start).symm _ _
  refine ⟨?_, ?_, ?_, ?_⟩
  · rw [hstart]
    exact h.room
  · rw [hstart]
    exact h.home
  · rw [hstart]
    intro j hj
    have hlog : ¬c.IsHome (c.start + j + 1) := Cfg.not_isHome_log (by have := h.room; omega)
    rw [update_of_ne (hhome.ne hlog).symm]
    exact h.copies j hj
  · rw [hstart]
    intro b hb hmem
    have hne : b ≠ (getHead (disk c.start)).getD i 0 := by
      rintro rfl
      exact hmem (getD_mem hi)
    rw [update_of_ne hne]
    exact h.rest b hb hmem

theorem Durable.clear {disk I : Image} (blk : Block) (hhome : ∀ b, c.IsHome b → disk b = I b) :
    Durable c (update disk c.start (putHead blk [])) I := by
  have hhead : getHead (update disk c.start (putHead blk []) c.start) = [] := by
    rw [update_self]
    exact getHead_putHead_nil _
  refine ⟨?_, ?_, ?_, ?_⟩
  · rw [hhead]
    exact c.size_pos
  · rw [hhead]
    simp
  · rw [hhead]
    simp
  · intro b hb _
    rw [update_of_ne (hb.ne c.not_isHome_start)]
    exact hhome b hb

theorem Durable.home_eq {disk I : Image} (h : Durable c disk I)
    (hinst : ∀ i, i < (getHead (disk c.start)).length →
      disk ((getHead (disk c.start)).getD i 0) = I ((getHead (disk c.start)).getD i 0))
    (b : Nat) (hb : c.IsHome b) : disk b = I b := by
  by_cases hmem : b ∈ getHead (disk c.start)
  · obtain ⟨i, hi, rfl⟩ := getElem_of_mem hmem
    have := hinst i hi
    rwa [getD_eq_getElem _ _ hi] at this
  · exact h.rest b hb hmem

/-- The loop of `install_trans`, up to log block `n`. -/
def installed (c : Cfg) (lh : List Nat) (disk : Image) (n : Nat) : Image :=
  (List.range n).foldl (fun d tail => update d (lh.getD tail 0) (d (c.start + tail + 1))) disk

theorem installed_succ (lh : List Nat) (disk : Image) (n : Nat) :
    installed c lh disk (n + 1) = update (installed c lh disk n) (lh.getD n 0)
      (installed c lh disk n (c.start + n + 1)) := by
  simp [installed, range_succ]

theorem Durable.installed {disk I : Image} (h : Durable c disk I) : ∀ n, n ≤ (getHead (disk c.start)).length →
    let d := installed c (getHead (disk c.start)) disk n
    d c.start = disk c.start ∧ Durable c d I ∧
      ∀ i, i < n → d ((getHead (disk c.start)).getD i 0) = I ((getHead (disk c.start)).getD i 0)
  | 0, _ => ⟨rfl, h, by simp⟩
  | n + 1, hn => by
    obtain ⟨hstart, hdur, hdone⟩ := Durable.installed h n (by omega)
    have hlen : n < (getHead (disk c.start)).length := hn
    have hhome := h.home _ (getD_mem hlen)
    have hcopy : Log.installed c (getHead (disk c.start)) disk n (c.start + n + 1) =
        I ((getHead (disk c.start)).getD n 0) := by
      have := hdur.copies n (by rw [hstart]; exact hlen)
      rwa [hstart] at this
    simp only [installed_succ]
    refine ⟨?_, ?_, ?_⟩
    · rw [update_of_ne (hhome.ne c.not_isHome_start).symm]
      exact hstart
    · have := hdur.install (i := n) (by rw [hstart]; exact hlen)
      rwa [hstart] at this
    · intro i hi
      by_cases heq : (getHead (disk c.start)).getD i 0 = (getHead (disk c.start)).getD n 0
      · rw [heq, update_self]
        exact hcopy
      · rw [update_of_ne heq]
        have hin : i ≠ n := by
          rintro rfl
          exact heq rfl
        exact hdone i (by omega)

theorem Durable.recoverFromLog {disk I : Image} (h : Durable c disk I) (b : Nat) (hb : c.IsHome b) :
    recoverFromLog c disk b = I b := by
  obtain ⟨hstart, hdur, hdone⟩ := h.installed _ le_rfl
  have hne : b ≠ c.start := hb.ne c.not_isHome_start
  show update (Log.installed c (getHead (disk c.start)) disk _) c.start _ b = I b
  rw [update_of_ne hne]
  apply hdur.home_eq _ b hb
  rw [hstart]
  exact hdone

end Xv6Armv8.Log

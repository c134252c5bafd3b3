import Mathlib.Data.List.Nodup
import Mathlib.Tactic.SplitIfs
import Xv6Armv8.VirtioModel

/-! What the functions on descriptors do: `alloc3_desc` takes three free descriptors or none, `free_chain` gives
back the three of a chain, and neither panics on descriptors that are used as `virtio_disk_rw` uses them. -/

namespace Xv6Armv8.Virtio

open Function List

variable {d d' : Disk} {b : Buf} {i j k l : Nat}

/-- What the functions on descriptors leave alone. -/
structure Rest (d d' : Disk) : Prop where
  availRing : d'.availRing = d.availRing
  availIdx : d'.availIdx = d.availIdx
  usedRing : d'.usedRing = d.usedRing
  deviceIdx : d'.deviceIdx = d.deviceIdx
  usedIdx : d'.usedIdx = d.usedIdx
  info : d'.info = d.info

theorem Rest.refl (d : Disk) : Rest d d := ⟨rfl, rfl, rfl, rfl, rfl, rfl⟩

theorem Rest.trans {d'' : Disk} (h : Rest d d') (h' : Rest d' d'') : Rest d d'' :=
  ⟨h'.availRing.trans h.availRing, h'.availIdx.trans h.availIdx, h'.usedRing.trans h.usedRing,
    h'.deviceIdx.trans h.deviceIdx, h'.usedIdx.trans h.usedIdx, h'.info.trans h.info⟩

/-! ### Freeing -/

theorem freeAll_spec : ∀ {is : List Nat} {d : Disk}, is.Nodup → (∀ l ∈ is, l < num ∧ d.free l = false) →
    ∃ d', d.freeAll is = some d' ∧ Rest d d' ∧ (∀ l, d'.free l = true ↔ d.free l = true ∨ l ∈ is) ∧
      ∀ l, l ∉ is → d'.desc l = d.desc l
  | [], d, _, _ => ⟨d, rfl, .refl d, by simp, fun _ _ => rfl⟩
  | i :: is, d, hnodup, hused => by
    obtain ⟨hi, his⟩ := nodup_cons.mp hnodup
    obtain ⟨hlt, hfree⟩ := hused i mem_cons_self
    let d₁ : Disk := { d with desc := update d.desc i .zero, free := update d.free i true }
    have hstep : d.freeDesc i = some d₁ := by
      simp [Disk.freeDesc, Nat.not_le.mpr hlt, hfree, d₁]
    obtain ⟨d', hd', hrest, hiff, hdesc⟩ := freeAll_spec (d := d₁) his fun l hl => by
      have hne : l ≠ i := fun e => hi (e ▸ hl)
      obtain ⟨h1, h2⟩ := hused l (mem_cons_of_mem i hl)
      exact ⟨h1, by simpa [d₁, hne] using h2⟩
    refine ⟨d', ?_, (Rest.mk rfl rfl rfl rfl rfl rfl : Rest d d₁).trans hrest, fun l => ?_, fun l hl => ?_⟩
    · simp only [Disk.freeAll, hstep, hd']
    · rw [hiff l, mem_cons]
      by_cases hne : l = i
      · simp [d₁, hne]
      · simp [d₁, hne]
    · rw [mem_cons, not_or] at hl
      rw [hdesc l hl.2]
      exact update_of_ne hl.1 _ _

theorem walk_update {desc : Nat → Desc} {x : Desc} (fuel : Nat) {l : Nat} (h : i ∉ walk desc fuel l) :
    walk (update desc i x) fuel l = walk desc fuel l := by
  induction fuel generalizing l with
  | zero => rfl
  | succ fuel ih =>
    rw [walk, mem_cons, not_or] at h
    rw [walk, walk, update_of_ne (Ne.symm h.1)]
    congr 1
    split
    · next hflag =>
        rw [if_pos hflag] at h
        exact ih h.2
    · rfl

theorem freeChain_eq_freeAll {fuel : Nat} (hnodup : (walk d.desc fuel i).Nodup)
    (hfuel : (walk d.desc fuel i).length < fuel) : d.freeChain fuel i = d.freeAll (walk d.desc fuel i) := by
  induction fuel generalizing d i with
  | zero => cases hfuel
  | succ fuel ih =>
    rw [walk] at hnodup hfuel ⊢
    rw [Disk.freeChain, Disk.freeAll]
    cases hd : d.freeDesc i with
    | none => rfl
    | some d₁ =>
      have hdesc : d₁.desc = update d.desc i .zero := by
        unfold Disk.freeDesc at hd
        split_ifs at hd
        cases hd
        rfl
      by_cases hflag : (d.desc i).flags % 2 = fNext
      · simp only [if_pos hflag] at hnodup hfuel ⊢
        have hnot := (nodup_cons.mp hnodup).1
        have hwalk : walk d₁.desc fuel (d.desc i).next = walk d.desc fuel (d.desc i).next := by
          rw [hdesc, walk_update fuel hnot]
        rw [← hwalk]
        apply ih
        · rw [hwalk]
          exact (nodup_cons.mp hnodup).2
        · rw [hwalk]
          exact Nat.lt_of_succ_lt_succ hfuel
      · simp only [if_neg hflag]
        rfl

/-! ### Allocation -/

theorem allocDesc_some (h : d.allocDesc = some (i, d')) :
    i < num ∧ d.free i = true ∧ d' = { d with free := update d.free i false } := by
  unfold Disk.allocDesc at h
  split at h
  · next l hl =>
      cases h
      exact ⟨mem_range.mp (List.mem_of_find?_eq_some hl), by simpa using List.find?_some hl, rfl⟩
  · cases h

/-- The state of `alloc3_desc` when it has allocated `idx`. -/
structure Midway (d₀ d : Disk) (idx : List Nat) : Prop where
  nodup : idx.Nodup
  lt : ∀ l ∈ idx, l < num ∧ d₀.free l = true
  free : ∀ l, d.free l = true ↔ d₀.free l = true ∧ l ∉ idx
  desc : d.desc = d₀.desc
  rest : Rest d₀ d

theorem Midway.alloc {d₀ : Disk} {idx : List Nat} (h : Midway d₀ d idx) (ha : d.allocDesc = some (i, d')) :
    Midway d₀ d' (i :: idx) := by
  obtain ⟨hlt, hfree, rfl⟩ := allocDesc_some ha
  obtain ⟨h₀, hni⟩ := (h.free i).mp hfree
  refine ⟨nodup_cons.mpr ⟨hni, h.nodup⟩, fun l hl => ?_, fun l => ?_, h.desc,
    h.rest.trans ⟨rfl, rfl, rfl, rfl, rfl, rfl⟩⟩
  · rcases mem_cons.mp hl with rfl | hl
    · exact ⟨hlt, h₀⟩
    · exact h.lt l hl
  · rw [mem_cons, not_or]
    by_cases hne : l = i
    · simp [hne]
    · simp only [update_of_ne hne, h.free l]
      simp [hne]

theorem Midway.rollback {d₀ : Disk} {idx : List Nat} (h : Midway d₀ d idx) :
    ∃ d', d.freeAll idx.reverse = some d' ∧ Rest d₀ d' ∧ d'.free = d₀.free ∧
      ∀ l, d₀.free l = false → d'.desc l = d₀.desc l := by
  obtain ⟨d', hd', hrest, hiff, hdesc⟩ := freeAll_spec (d := d) (nodup_reverse.mpr h.nodup) fun l hl => by
    have hl := mem_reverse.mp hl
    refine ⟨(h.lt l hl).1, ?_⟩
    by_contra hf
    exact ((h.free l).mp (by simpa using hf)).2 hl
  refine ⟨d', hd', h.rest.trans hrest, ?_, fun l hl => ?_⟩
  · funext l
    rw [Bool.eq_iff_iff, hiff l, h.free l, mem_reverse]
    constructor
    · rintro (⟨h1, -⟩ | h2)
      · exact h1
      · exact (h.lt l h2).2
    · intro h1
      by_cases hl : l ∈ idx
      · exact .inr hl
      · exact .inl ⟨h1, hl⟩
  · rw [hdesc l, h.desc]
    intro hmem
    rw [(h.lt l (mem_reverse.mp hmem)).2] at hl
    cases hl

/-- The two outcomes of `alloc3_desc`. -/
inductive Allocated (d : Disk) : Alloc3 → Prop
  | ok (i j k : Nat) (d' : Disk) (hnodup : [i, j, k].Nodup) (hlt : ∀ l ∈ [i, j, k], l < num ∧ d.free l = true)
      (hfree : ∀ l, d'.free l = true ↔ d.free l = true ∧ l ∉ [i, j, k]) (hdesc : d'.desc = d.desc)
      (hrest : Rest d d') : Allocated d (.ok i j k d')
  | failed (d' : Disk) (hfree : d'.free = d.free) (hdesc : ∀ l, d.free l = false → d'.desc l = d.desc l)
      (hrest : Rest d d') : Allocated d (.failed d')

theorem alloc3From_spec {d₀ : Disk} : ∀ (n : Nat) {d : Disk} {idx : List Nat}, Midway d₀ d idx →
    n + idx.length = 3 → Allocated d₀ (d.alloc3From n idx)
  | 0, d, idx, h, hlen => by
    match idx, hlen, h with
    | [k, j, i], _, h =>
      have hperm : ∀ l, l ∈ [k, j, i] ↔ l ∈ [i, j, k] := by
        intro l
        simp only [mem_cons, not_mem_nil, or_false]
        tauto
      refine .ok i j k d ?_ (fun l hl => h.lt l ((hperm l).mpr hl)) (fun l => ?_) h.desc h.rest
      · simpa using nodup_reverse.mpr h.nodup
      · rw [h.free l, hperm l]
  | n + 1, d, idx, h, hlen => by
    unfold Disk.alloc3From
    cases ha : d.allocDesc with
    | some r =>
      obtain ⟨i, d'⟩ := r
      exact alloc3From_spec n (h.alloc ha) (by simp only [length_cons]; omega)
    | none =>
      obtain ⟨d', hd', hrest, hfree, hdesc⟩ := h.rollback
      simp only [hd']
      exact .failed d' hfree hdesc hrest

/-- `alloc3_desc` takes three free descriptors, or leaves everything as it was; it does not panic. -/
theorem alloc3Desc_spec (d : Disk) : Allocated d d.alloc3Desc :=
  alloc3From_spec 3 ⟨nodup_nil, by simp, by simp, rfl, .refl d⟩ rfl

/-! ### Chains -/

/-- The descriptors `i`, `j` and `k` are the chain of a request for the buffer `b`. -/
structure Formed (d : Disk) (b : Buf) (i j k : Nat) : Prop where
  head : (d.desc i).addr = .op i ∧ (d.desc i).flags % 2 = fNext ∧ (d.desc i).next = j
  data : (d.desc j).addr = .data b ∧ (d.desc j).flags % 2 = fNext ∧ (d.desc j).next = k
  status : (d.desc k).addr = .status i ∧ (d.desc k).flags % 2 ≠ fNext
  info : (d.info i).b = some b

theorem formed_format (d : Disk) (b : Buf) (blockno : Nat) (write : Bool) (hnodup : [i, j, k].Nodup) :
    Formed (d.format b blockno write i j k) b i j k := by
  obtain ⟨hij, hik, hjk⟩ : i ≠ j ∧ i ≠ k ∧ j ≠ k := by simpa [and_assoc] using hnodup
  refine ⟨?_, ?_, ?_, ?_⟩
  · simp [Disk.format, hij, hik, fNext]
  · cases write <;> simp [Disk.format, hjk, fNext, fWrite]
  · simp [Disk.format, fNext, fWrite]
  · simp [Disk.format]

theorem Formed.congr (h : Formed d b i j k) (hdesc : ∀ l ∈ [i, j, k], d'.desc l = d.desc l)
    (hinfo : (d'.info i).b = (d.info i).b) : Formed d' b i j k := by
  have hi := hdesc i (by simp)
  have hj := hdesc j (by simp)
  have hk := hdesc k (by simp)
  exact ⟨hi ▸ h.head, hj ▸ h.data, hk ▸ h.status, hinfo.trans h.info⟩

theorem Formed.walk_eq (h : Formed d b i j k) : walk d.desc num i = [i, j, k] := by
  simp [walk, num, h.head.2.1, h.head.2.2, h.data.2.1, h.data.2.2, h.status.2]

theorem Formed.request_eq (h : Formed d b i j k) :
    d.request i = { head := i, addrs := [.op i, .data b, .status i] } := by
  simp [Disk.request, h.walk_eq, h.head.1, h.data.1, h.status.1]

theorem Formed.freeChain_eq (h : Formed d b i j k) (hnodup : [i, j, k].Nodup) (hdesc : d'.desc = d.desc) :
    d'.freeChain num i = d'.freeAll [i, j, k] := by
  have hwalk : walk d'.desc num i = [i, j, k] := by rw [hdesc, h.walk_eq]
  rw [freeChain_eq_freeAll, hwalk]
  · rw [hwalk]
    exact hnodup
  · rw [hwalk]
    exact (by decide : 3 < num)

end Xv6Armv8.Virtio

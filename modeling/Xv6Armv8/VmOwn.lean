import Xv6Armv8.VmTable

/-! Who owns a page. Every page of the allocator is on the free list or has one owner; an operation
that turns the pages `A` of its caller into the pages `B` takes the difference from the free list
or gives it back, and changes no page that is neither free nor in `A`. With that, an operation on one
table says nothing about its neighbours and still leaves them alone. -/

namespace Xv6Armv8.Vm

open Spec Multiset

/-- The pages in use are `A`: no page is in use twice or in use and free. -/
structure Pool (m : Mem) (A : Multiset Nat) : Prop where
  nodup : (A + ↑m.freelist).Nodup
  valid : ∀ x ∈ A + ↑m.freelist, ValidPage x
  lo : kernBase ≤ m.kend
  hi : m.kend ≤ kernBase + phyStop

/-- The pages `A` become the pages `B`, and no page outside `A` and the free list changes. -/
structure Moves (m m' : Mem) (A B : Multiset Nat) : Prop where
  conserve : B + ↑m'.freelist = A + ↑m.freelist
  frame : ∀ x, x ∉ A → x ∉ m.freelist → m'.ram x = m.ram x
  kend : m'.kend = m.kend

variable {m m' m'' : Mem} {A B C F : Multiset Nat}

theorem Moves.refl (m : Mem) (A : Multiset Nat) : Moves m m A A := ⟨rfl, fun _ _ _ => rfl, rfl⟩

theorem Moves.trans (h : Moves m m' A B) (h' : Moves m' m'' B C) : Moves m m'' A C where
  conserve := h'.conserve.trans h.conserve
  frame := fun x hA hf => by
    have hx : x ∉ B + ↑m'.freelist := by
      rw [h.conserve, mem_add, mem_coe]
      exact not_or.mpr ⟨hA, hf⟩
    rw [mem_add, mem_coe, not_or] at hx
    rw [h'.frame x hx.1 hx.2, h.frame x hA hf]
  kend := h'.kend.trans h.kend

theorem Moves.add (h : Moves m m' A B) (F : Multiset Nat) : Moves m m' (A + F) (B + F) where
  conserve := by rw [add_right_comm, h.conserve, add_right_comm]
  frame := fun x hx hf => h.frame x (fun hA => hx (mem_add.mpr (.inl hA))) hf
  kend := h.kend

theorem Moves.congr {A' B' : Multiset Nat} (h : Moves m m' A B) (hA : A = A') (hB : B = B') :
    Moves m m' A' B' := hA ▸ hB ▸ h

theorem Pool.of_conserve (h : Pool m A) (hc : B + ↑m'.freelist = A + ↑m.freelist)
    (hk : m'.kend = m.kend) : Pool m' B where
  nodup := by rw [hc]; exact h.nodup
  valid := by rw [hc]; exact h.valid
  lo := by rw [hk]; exact h.lo
  hi := by rw [hk]; exact h.hi

theorem Pool.moves (h : Pool m (A + F)) (hm : Moves m m' A B) : Pool m' (B + F) :=
  h.of_conserve (hm.add F).conserve hm.kend

theorem Pool.mono (h : Pool m A) (hB : B ≤ A) : Pool m B where
  nodup := nodup_of_le (add_le_add hB le_rfl) h.nodup
  valid := fun x hx => h.valid x (mem_of_le (add_le_add hB le_rfl) hx)
  lo := h.lo
  hi := h.hi

theorem Pool.congr (h : Pool m A) (hA : A = B) : Pool m B := hA ▸ h

theorem Pool.valid_free (h : Pool m A) : ∀ x ∈ m.freelist, ValidPage x := fun x hx =>
  h.valid x (mem_add.mpr (.inr hx))

theorem Pool.valid_used (h : Pool m A) {x : Nat} (hx : x ∈ A) : ValidPage x :=
  h.valid x (mem_add.mpr (.inl hx))

theorem Pool.not_free (h : Pool m A) {x : Nat} (hx : x ∈ A) : x ∉ m.freelist := fun hf =>
  disjoint_left.mp (Multiset.nodup_add.mp h.nodup).2.2 hx (mem_coe.mpr hf)

theorem Pool.disjoint (h : Pool m (A + F)) {x : Nat} (hx : x ∈ F) : x ∉ A := fun hA =>
  disjoint_left.mp (Multiset.nodup_add.mp (Multiset.nodup_add.mp h.nodup).1).2.2 hA hx

theorem Moves.keeps (hm : Moves m m' A B) (hp : Pool m (A + F)) {x : Nat} (hx : x ∈ F) : m'.ram x = m.ram x :=
  hm.frame x (hp.disjoint hx) (hp.not_free (mem_add.mpr (.inr hx)))

/-! ### The number of pages -/

/-- The pages between the start and the end of the memory. -/
def allPages : Finset Nat :=
  (Finset.range ((phyStop - phyBase) / pgSize)).image fun i => kernBase + phyBase + i * pgSize

theorem ValidPage.mem {a : Nat} (ha : ValidPage a) : a ∈ allPages := by
  have h0 := ha.aligned
  have h1 := ha.lo
  have h2 := ha.hi
  rw [allPages, Finset.mem_image]
  refine ⟨(a - (kernBase + phyBase)) / pgSize, Finset.mem_range.mpr ?_, ?_⟩
  · unfold phyStop phyBase kernBase pgSize at *
    omega
  · unfold phyStop phyBase kernBase pgSize at *
    omega

theorem Pool.card_le (h : Pool m A) : A.card + m.freelist.length ≤ 32768 := by
  have hsub : (⟨A + ↑m.freelist, h.nodup⟩ : Finset Nat) ⊆ allPages := fun x hx =>
    (h.valid x hx).mem
  have hcard := Finset.card_le_card hsub
  have himage : allPages.card ≤ 32768 := by
    refine le_trans Finset.card_image_le ?_
    rw [Finset.card_range]
    decide
  rw [Finset.card_mk, card_add, coe_card] at hcard
  omega

end Xv6Armv8.Vm

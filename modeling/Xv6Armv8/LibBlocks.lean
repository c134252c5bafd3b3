import Mathlib

/-! Blocks of memory in address order. A list of blocks stands for the addresses in them; two blocks that meet are
merged into one, which leaves the addresses and their number as they are. -/

namespace Blocks

open List

structure Block where
  addr : Nat
  len : Nat
  deriving DecidableEq

/-- The address behind a block. -/
def Block.stop (b : Block) : Nat := b.addr + b.len

def Block.Meets (b : Block) (x : Nat) : Prop := b.addr ≤ x ∧ x < b.stop

/-- The addresses in the blocks of a list. -/
def cells (l : List Block) : Set Nat := { x | ∃ b ∈ l, b.Meets x }

def total (l : List Block) : Nat := (l.map Block.len).sum

/-- The address of the first block, or of what follows the list. -/
def start (l : List Block) (e : Nat) : Nat :=
  match l with
  | [] => e
  | b :: _ => b.addr

/-- In address order, and no two blocks meet. -/
def Gaps (l : List Block) : Prop := l.Pairwise fun b c => b.stop < c.addr

/-- The block `b` in front of a list, merged with the first one if it ends there. -/
def merge (b : Block) : List Block → List Block
  | [] => [b]
  | c :: l => if b.stop = c.addr then ⟨b.addr, b.len + c.len⟩ :: l else b :: c :: l

variable {b c : Block} {l l' : List Block} {x : Nat}

@[simp] theorem cells_nil : x ∈ cells [] ↔ False := by simp [cells]

@[simp] theorem cells_cons : x ∈ cells (b :: l) ↔ b.Meets x ∨ x ∈ cells l := by
  constructor
  · rintro ⟨c, hc, hx⟩
    rcases mem_cons.mp hc with rfl | hc
    · exact .inl hx
    · exact .inr ⟨c, hc, hx⟩
  · rintro (hx | ⟨c, hc, hx⟩)
    · exact ⟨b, mem_cons_self, hx⟩
    · exact ⟨c, mem_cons_of_mem _ hc, hx⟩

@[simp] theorem total_nil : total [] = 0 := rfl

@[simp] theorem total_cons : total (b :: l) = b.len + total l := by
  rw [total, map_cons, sum_cons, total]

@[simp] theorem total_append : total (l ++ l') = total l + total l' := by
  rw [total, map_append, sum_append, total, total]

theorem merge_cases (b : Block) (l : List Block) : merge b l = b :: l ∨
    ∃ c l', l = c :: l' ∧ b.stop = c.addr ∧ merge b l = ⟨b.addr, b.len + c.len⟩ :: l' := by
  cases l with
  | nil => exact .inl rfl
  | cons c l =>
    by_cases h : b.stop = c.addr
    · exact .inr ⟨c, l, rfl, h, if_pos h⟩
    · exact .inl (if_neg h)

theorem merge_of_ne (h : ∀ c ∈ l, b.stop ≠ c.addr) : merge b l = b :: l := by
  rcases merge_cases b l with hm | ⟨c, l', rfl, hc, -⟩
  · exact hm
  · exact absurd hc (h c mem_cons_self)

theorem start_merge (b : Block) (l : List Block) (e : Nat) : start (merge b l) e = b.addr := by
  rcases merge_cases b l with hm | ⟨c, l', -, -, hm⟩ <;> (rw [hm]; rfl)

theorem total_merge (b : Block) (l : List Block) : total (merge b l) = b.len + total l := by
  rcases merge_cases b l with hm | ⟨c, l', rfl, -, hm⟩
  · rw [hm, total_cons]
  · rw [hm, total_cons, total_cons, Nat.add_assoc]

/-- A block of the merged list is an old one, or begins where `b` does. -/
theorem mem_merge (h : c ∈ merge b l) : c ∈ l ∨ c.addr = b.addr ∧ b.len ≤ c.len := by
  rcases merge_cases b l with hm | ⟨d, l', rfl, -, hm⟩
  · rw [hm, mem_cons] at h
    rcases h with rfl | h
    · exact .inr ⟨rfl, le_rfl⟩
    · exact .inl h
  · rw [hm, mem_cons] at h
    rcases h with rfl | h
    · exact .inr ⟨rfl, Nat.le_add_right _ _⟩
    · exact .inl (mem_cons_of_mem _ h)

theorem exists_merge_addr (b : Block) (l : List Block) : ∃ c ∈ merge b l, c.addr = b.addr := by
  rcases merge_cases b l with hm | ⟨d, l', -, -, hm⟩
  · exact ⟨b, by rw [hm]; exact mem_cons_self, rfl⟩
  · exact ⟨⟨b.addr, b.len + d.len⟩, by rw [hm]; exact mem_cons_self, rfl⟩

/-- No block gets shorter. -/
theorem exists_merge (h : c = b ∨ c ∈ l) : ∃ d ∈ merge b l, c.len ≤ d.len := by
  rcases merge_cases b l with hm | ⟨d, l', rfl, -, hm⟩
  · rw [hm]
    exact ⟨c, mem_cons.mpr h, le_rfl⟩
  · rw [hm]
    rcases h with rfl | h
    · exact ⟨_, mem_cons_self, Nat.le_add_right _ _⟩
    · rcases mem_cons.mp h with rfl | h
      · exact ⟨_, mem_cons_self, Nat.le_add_left _ _⟩
      · exact ⟨c, mem_cons_of_mem _ h, le_rfl⟩

theorem Gaps.merge (hl : Gaps l) (hb : ∀ c ∈ l, b.stop ≤ c.addr) : Gaps (merge b l) := by
  cases l with
  | nil => exact pairwise_singleton _ b
  | cons c l =>
    obtain ⟨hgap, hrest⟩ := pairwise_cons.mp hl
    by_cases hc : b.stop = c.addr
    · rw [Blocks.merge, if_pos hc]
      refine pairwise_cons.mpr ⟨fun d hd => ?_, hrest⟩
      have := hgap d hd
      simp only [Block.stop] at hc this ⊢
      omega
    · rw [Blocks.merge, if_neg hc]
      have hlt : b.stop < c.addr := lt_of_le_of_ne (hb c mem_cons_self) hc
      refine pairwise_cons.mpr ⟨fun d hd => ?_, hl⟩
      rcases mem_cons.mp hd with rfl | hd
      · exact hlt
      · exact hlt.trans (lt_of_le_of_lt (Nat.le_add_right _ _) (hgap d hd))

variable {l₁ l₂ : List Block} {d : Block}

theorem Gaps.insert (h : Gaps (l₁ ++ b :: l₂)) (hb : b.stop ≤ d.addr) (hd : ∀ c ∈ l₂, d.stop ≤ c.addr) :
    Gaps (l₁ ++ Blocks.merge b (Blocks.merge d l₂)) := by
  obtain ⟨h₁, h₂, hcross⟩ := pairwise_append.mp h
  obtain ⟨hgap, h₂⟩ := pairwise_cons.mp h₂
  have hbd : b.addr ≤ d.addr := (Nat.le_add_right _ _).trans hb
  refine pairwise_append.mpr ⟨h₁, Gaps.merge (Gaps.merge h₂ hd) fun c hc => ?_, fun a ha c hc => ?_⟩
  · rcases mem_merge hc with hc | ⟨hc, -⟩
    · exact (hgap c hc).le
    · exact hc ▸ hb
  · rcases mem_merge hc with hc | ⟨hc, -⟩
    · rcases mem_merge hc with hc | ⟨hc, -⟩
      · exact hcross a ha c (mem_cons_of_mem _ hc)
      · exact lt_of_lt_of_le (hcross a ha b mem_cons_self) (hc ▸ hbd)
    · exact hc ▸ hcross a ha b mem_cons_self

theorem Gaps.shorten (h : Gaps (l₁ ++ b :: l₂)) (hd : d.addr = b.addr) (hlen : d.len ≤ b.len) :
    Gaps (l₁ ++ d :: l₂) := by
  obtain ⟨h₁, h₂, hcross⟩ := pairwise_append.mp h
  obtain ⟨hgap, h₂⟩ := pairwise_cons.mp h₂
  have hstop : d.stop ≤ b.stop := by
    unfold Block.stop
    omega
  refine pairwise_append.mpr ⟨h₁, pairwise_cons.mpr ⟨fun c hc => lt_of_le_of_lt hstop (hgap c hc), h₂⟩, fun a ha c hc => ?_⟩
  rcases mem_cons.mp hc with rfl | hc
  · exact hd ▸ hcross a ha b mem_cons_self
  · exact hcross a ha c (mem_cons_of_mem _ hc)

theorem Gaps.lt (h : Gaps (b :: l)) (hc : c ∈ l) : b.addr < c.addr :=
  lt_of_le_of_lt (Nat.le_add_right _ _) ((pairwise_cons.mp h).1 c hc)

theorem Gaps.lt_of_append (h : Gaps (l₁ ++ b :: l₂)) (hc : c ∈ l₁) : c.addr < b.addr :=
  lt_of_le_of_lt (Nat.le_add_right _ _) ((pairwise_append.mp h).2.2 c hc b mem_cons_self)

theorem Gaps.addr_inj (h : Gaps l) (hb : b ∈ l) (hc : c ∈ l) (heq : b.addr = c.addr) : b = c := by
  obtain ⟨l₁, l₂, rfl⟩ := append_of_mem hb
  rcases mem_append.mp hc with hc | hc
  · exact absurd heq (h.lt_of_append hc).ne'
  · rcases mem_cons.mp hc with rfl | hc
    · rfl
    · exact absurd heq (Gaps.lt (pairwise_append.mp h).2.1 hc).ne

/-! ### Memory in blocks -/

def Apart (b c : Block) : Prop := b.stop ≤ c.addr ∨ c.stop ≤ b.addr

theorem Apart.symm (h : Apart b c) : Apart c b := Or.symm h

theorem Apart.addr_ne (h : Apart b c) (hb : 0 < b.len) (hc : 0 < c.len) : b.addr ≠ c.addr := by
  simp only [Apart, Block.stop] at h
  omega

theorem Block.meets_addr (hb : 0 < b.len) : b.Meets b.addr := ⟨le_rfl, Nat.lt_add_of_pos_right hb⟩

/-- The blocks `A` share no address, and together they are the memory of the regions `R`. -/
structure Parts (A R : List Block) : Prop where
  pos : ∀ b ∈ A, 0 < b.len
  apart : A.Pairwise Apart
  cover : ∀ x, x ∈ cells A ↔ x ∈ cells R
  sum : total A = total R

variable {A B R : List Block}

theorem Parts.perm (h : Parts A R) (hp : A.Perm B) : Parts B R where
  pos := fun b hb => h.pos b (hp.mem_iff.mpr hb)
  apart := (hp.pairwise_iff Apart.symm).mp h.apart
  cover := fun x => by
    rw [← h.cover x]
    exact exists_congr fun b => and_congr_left fun _ => hp.mem_iff.symm
  sum := (hp.map Block.len).sum_eq.symm.trans h.sum

/-- A block is as good as its two halves. -/
theorem parts_split {a m n : Nat} (hm : 0 < m) (hn : 0 < n) :
    Parts (⟨a, m + n⟩ :: A) R ↔ Parts (⟨a, m⟩ :: ⟨a + m, n⟩ :: A) R := by
  have hcells : ∀ x, x ∈ cells (⟨a, m + n⟩ :: A) ↔ x ∈ cells (⟨a, m⟩ :: ⟨a + m, n⟩ :: A) := fun x => by
    simp only [cells_cons, ← or_assoc, Block.Meets, Block.stop]
    refine or_congr_left ?_
    omega
  have htotal : total (⟨a, m + n⟩ :: A) = total (⟨a, m⟩ :: ⟨a + m, n⟩ :: A) := by
    simp only [total_cons, Nat.add_assoc]
  have hpos : (∀ b ∈ ⟨a, m + n⟩ :: A, 0 < b.len) ↔ ∀ b ∈ ⟨a, m⟩ :: ⟨a + m, n⟩ :: A, 0 < b.len := by
    simp only [forall_mem_cons, hm, hn, Nat.add_pos_left hm, true_and]
  have hapart : ∀ c : Block, 0 < c.len → (Apart ⟨a, m + n⟩ c ↔ Apart ⟨a, m⟩ c ∧ Apart ⟨a + m, n⟩ c) := fun c hc => by
    simp only [Apart, Block.stop]
    omega
  constructor
  · intro h
    obtain ⟨h₁, h₂⟩ := pairwise_cons.mp h.apart
    have hboth := fun c hc => (hapart c (h.pos c (mem_cons_of_mem _ hc))).mp (h₁ c hc)
    refine ⟨hpos.mp h.pos, ?_, fun x => (hcells x).symm.trans (h.cover x), htotal.symm.trans h.sum⟩
    refine pairwise_cons.mpr ⟨forall_mem_cons.mpr ⟨.inl le_rfl, fun c hc => (hboth c hc).1⟩, ?_⟩
    exact pairwise_cons.mpr ⟨fun c hc => (hboth c hc).2, h₂⟩
  · intro h
    obtain ⟨h₁, h₂⟩ := pairwise_cons.mp h.apart
    obtain ⟨h₂, h₃⟩ := pairwise_cons.mp h₂
    have hA := hpos.mpr h.pos
    refine ⟨hA, ?_, fun x => (hcells x).trans (h.cover x), htotal.trans h.sum⟩
    refine pairwise_cons.mpr ⟨fun c hc => ?_, h₃⟩
    exact (hapart c (hA c (mem_cons_of_mem _ hc))).mpr ⟨h₁ c (mem_cons_of_mem _ hc), h₂ c hc⟩

theorem Parts.merge (h : Parts (b :: (l ++ A)) R) : Parts (merge b l ++ A) R := by
  rcases merge_cases b l with hm | ⟨⟨a, n⟩, l', rfl, rfl, hm⟩
  · rwa [hm]
  · rw [hm]
    exact (parts_split (h.pos _ mem_cons_self) (h.pos _ (by simp))).mpr h

/-- A region above the others is a block. -/
theorem Parts.add (h : Parts A R) (hb : 0 < b.len) (habove : ∀ x ∈ cells R, x < b.addr) : Parts (b :: A) (b :: R) where
  pos := forall_mem_cons.mpr ⟨hb, h.pos⟩
  apart := by
    refine pairwise_cons.mpr ⟨fun c hc => .inr ?_, h.apart⟩
    have hpos := h.pos c hc
    have hlast : c.Meets (c.stop - 1) := by
      simp only [Block.Meets, Block.stop]
      omega
    have := habove _ ((h.cover _).mp ⟨c, hc, hlast⟩)
    omega
  cover := fun x => by rw [cells_cons, cells_cons, h.cover]
  sum := by rw [total_cons, total_cons, h.sum]

/-- The block `d` is put between `b` and what follows, in a list behind an empty block that begins below all others. -/
theorem exists_inserted {e : Nat} (heq : ⟨e, 0⟩ :: l = l₁ ++ b :: l₂) (hl : ∀ c ∈ l, e < c.addr) (hd : e < d.addr) :
    ∃ l', l₁ ++ merge b (merge d l₂) = ⟨e, 0⟩ :: l' ∧ (∃ c ∈ l', d.len ≤ c.len) ∧
      ∀ A R, Parts (d :: (l ++ A)) R → Parts (l' ++ A) R := by
  obtain ⟨c, hc, hlen⟩ := exists_merge (b := d) (l := l₂) (.inl rfl)
  cases l₁ with
  | nil =>
    obtain ⟨rfl, rfl⟩ := List.cons.inj heq
    refine ⟨merge d l, merge_of_ne fun c hc => ?_, ⟨c, hc, hlen⟩, fun _ _ => Parts.merge⟩
    rcases mem_merge hc with hc | ⟨hc, -⟩
    · exact (hl c hc).ne
    · exact hc ▸ hd.ne
  | cons a l₁ =>
    obtain ⟨rfl, rfl⟩ := List.cons.inj heq
    obtain ⟨c', hc', hlen'⟩ := exists_merge (b := b) (.inr hc)
    refine ⟨l₁ ++ merge b (merge d l₂), rfl, ⟨c', mem_append_right _ hc', hlen.trans hlen'⟩, fun A R h => ?_⟩
    have hcount : ∀ {k k' : List Block}, (∀ x, k.count x = k'.count x) → k.Perm k' := perm_iff_count.mpr
    have h₁ : Parts (d :: (l₂ ++ (b :: (l₁ ++ A)))) R := h.perm (hcount fun x => by
      simp only [append_eq, count_append, count_cons]
      omega)
    have h₂ : Parts (b :: (merge d l₂ ++ (l₁ ++ A))) R := h₁.merge.perm perm_middle
    refine h₂.merge.perm (hcount fun x => ?_)
    simp only [count_append]
    omega

end Blocks


import Mathlib.Algebra.BigOperators.Group.Multiset.Basic
import Mathlib.Algebra.BigOperators.Group.Finset.Basic
import Mathlib.Data.Multiset.Basic
import Mathlib.Tactic

/-! Radix trees in a store. A node has `W` entries; in a node with levels below it an entry may point
to a child, which `next` tells. A key is read from the top in base `W`, and the bottom node it leads
to holds the entry of the key. The results say what a write to one entry does to the nodes of the
tree and to the entries of all keys, when no node occurs twice. -/

namespace Radix

open Multiset Finset Option

variable {ν ε : Type} {W : Nat} (next : ε → Option ν)

/-- The digit of a key that a node with `n` levels below it looks at. -/
def digit (W n k : Nat) : Nat := k / W ^ n % W

/-- The nodes of the tree at `p`, which has `n` levels below it. -/
def nodes (W : Nat) (g : ν → Nat → ε) : Nat → ν → Multiset ν
  | 0, p => {p}
  | n + 1, p => {p} + ∑ i ∈ Finset.range W, ((next (g p i)).map (nodes W g n)).getD 0

/-- The bottom node of a key. -/
def leaf (W : Nat) (g : ν → Nat → ε) : Nat → ν → Nat → Option ν
  | 0, p, _ => some p
  | n + 1, p, k => (next (g p (digit W (n + 1) k))).bind fun q => leaf W g n q k

/-- The entry of a key. -/
def look (W : Nat) (g : ν → Nat → ε) (n : Nat) (p : ν) (k : Nat) : Option ε :=
  (leaf next W g n p k).map fun t => g t (k % W)

/-- Every entry above the bottom nodes has the property `P`. -/
def Inner (W : Nat) (P : ε → Prop) (g : ν → Nat → ε) : Nat → ν → Prop
  | 0, _ => True
  | n + 1, p => ∀ i, i < W → P (g p i) ∧ ∀ c, next (g p i) = some c → Inner W P g n c

/-- How many nodes the path of a key lacks. -/
def missing (W : Nat) (g : ν → Nat → ε) : Nat → ν → Nat → Nat
  | 0, _, _ => 0
  | n + 1, p, k => match next (g p (digit W (n + 1) k)) with
    | some q => missing W g n q k
    | none => n + 1

/-- How far above the bottom the paths of two keys part. -/
def split (W : Nat) : Nat → Nat → Nat → Nat
  | 0, _, _ => 0
  | n + 1, k, k' => if digit W (n + 1) k = digit W (n + 1) k' then split W n k k' else n + 1

/-- The node a path of entry numbers leads to from `p`. -/
def follow (g : ν → Nat → ε) : ν → List Nat → Option ν
  | p, [] => some p
  | p, i :: is => (next (g p i)).bind fun c => follow g c is

/-- A write to the entry `i` of `q`. -/
def upd [DecidableEq ν] (g : ν → Nat → ε) (q : ν) (i : Nat) (e : ε) : ν → Nat → ε :=
  fun p j => if p = q ∧ j = i then e else g p j

variable {next} {g g' : ν → Nat → ε} {n : Nat} {p q c : ν} {k : Nat}

theorem mem_nodes_self : ∀ {n : Nat} {p : ν}, p ∈ nodes next W g n p
  | 0, p => Multiset.mem_singleton_self p
  | _ + 1, p => Multiset.mem_add.mpr (.inl (Multiset.mem_singleton_self p))

theorem nodes_child_le {i : Nat} (hi : i < W) (hc : next (g p i) = some c) :
    {p} + nodes next W g n c ≤ nodes next W g (n + 1) p := by
  have h := Finset.single_le_sum (f := fun i => ((next (g p i)).map (nodes next W g n)).getD 0)
    (s := Finset.range W) (fun _ _ => Multiset.zero_le _) (Finset.mem_range.mpr hi)
  simp only [hc, map_some, getD_some] at h
  exact add_le_add le_rfl h

theorem nodup_child {i : Nat} (hi : i < W) (hc : next (g p i) = some c)
    (hn : (nodes next W g (n + 1) p).Nodup) :
    p ∉ nodes next W g n c ∧ (nodes next W g n c).Nodup := by
  have h := nodup_of_le (nodes_child_le hi hc) hn
  rw [singleton_add, nodup_cons] at h
  exact h

/-- Two children of one node share no node. -/
theorem disjoint_children {i j : Nat} {c' : ν} (hi : i < W) (hj : j < W) (hij : i ≠ j)
    (hc : next (g p i) = some c) (hc' : next (g p j) = some c')
    (hn : (nodes next W g (n + 1) p).Nodup) {x : ν} (hx : x ∈ nodes next W g n c) :
    x ∉ nodes next W g n c' := by
  have hsplit := add_sum_erase (Finset.range W)
    (fun i => ((next (g p i)).map (nodes next W g n)).getD 0) (Finset.mem_range.mpr hi)
  have hle := Finset.single_le_sum (f := fun i => ((next (g p i)).map (nodes next W g n)).getD 0)
    (s := (Finset.range W).erase i) (fun _ _ => Multiset.zero_le _)
    (mem_erase.mpr ⟨hij.symm, Finset.mem_range.mpr hj⟩)
  simp only [hc, hc', map_some, getD_some] at hsplit hle
  have hn' := (Multiset.nodup_add.mp hn).2.1
  rw [← hsplit, Multiset.nodup_add] at hn'
  intro hx'
  exact Multiset.disjoint_left.mp hn'.2.2 hx (mem_of_le hle hx')

theorem digit_lt (hW : 0 < W) (n k : Nat) : digit W n k < W := Nat.mod_lt _ hW

/-! ### Trees that a write does not touch -/

theorem nodes_congr : ∀ {n : Nat} {p : ν},
    (∀ x ∈ nodes next W g n p, g' x = g x) → nodes next W g' n p = nodes next W g n p
  | 0, _, _ => rfl
  | n + 1, p, h => by
    have hp : g' p = g p := h p mem_nodes_self
    simp only [nodes, hp]
    congr 1
    apply sum_congr rfl
    intro i hi
    cases hc : next (g p i) with
    | none => rfl
    | some c =>
      have hsub := nodes_child_le (n := n) (Finset.mem_range.mp hi) hc
      have := nodes_congr (n := n) (p := c) fun x hx =>
        h x (mem_of_le hsub (Multiset.mem_add.mpr (.inr hx)))
      simp [this]

theorem leaf_congr (hW : 0 < W) : ∀ {n : Nat} {p : ν},
    (∀ x ∈ nodes next W g n p, g' x = g x) → leaf next W g' n p k = leaf next W g n p k
  | 0, _, _ => rfl
  | n + 1, p, h => by
    have hp : g' p = g p := h p mem_nodes_self
    simp only [leaf, hp]
    cases hc : next (g p (digit W (n + 1) k)) with
    | none => rfl
    | some c =>
      have hsub := nodes_child_le (n := n) (digit_lt hW _ _) hc
      exact leaf_congr hW fun x hx =>
        h x (mem_of_le hsub (Multiset.mem_add.mpr (.inr hx)))

theorem inner_congr {P : ε → Prop} : ∀ {n : Nat} {p : ν},
    (∀ x ∈ nodes next W g n p, g' x = g x) → Inner next W P g n p → Inner next W P g' n p
  | 0, _, _, _ => trivial
  | n + 1, p, h, hin => by
    have hp : g' p = g p := h p mem_nodes_self
    intro i hi
    rw [hp]
    refine ⟨(hin i hi).1, fun c hc => inner_congr (fun x hx => ?_) ((hin i hi).2 c hc)⟩
    exact h x (mem_of_le (nodes_child_le hi hc) (Multiset.mem_add.mpr (.inr hx)))

theorem missing_congr (hW : 0 < W) : ∀ {n : Nat} {p : ν},
    (∀ x ∈ nodes next W g n p, g' x = g x) → missing next W g' n p k = missing next W g n p k
  | 0, _, _ => rfl
  | n + 1, p, h => by
    have hp : g' p = g p := h p mem_nodes_self
    simp only [missing, hp]
    cases hc : next (g p (digit W (n + 1) k)) with
    | none => rfl
    | some c =>
      exact missing_congr hW fun x hx => h x (mem_of_le (nodes_child_le (digit_lt hW _ _) hc)
        (Multiset.mem_add.mpr (.inr hx)))

theorem missing_le : ∀ {n : Nat} {p : ν}, missing next W g n p k ≤ n
  | 0, _ => le_rfl
  | n + 1, p => by
    simp only [missing]
    split
    · exact le_trans missing_le (Nat.le_succ n)
    · exact le_rfl

theorem split_le {k' : Nat} : ∀ {n : Nat}, split W n k k' ≤ n
  | 0 => le_rfl
  | n + 1 => by
    simp only [Radix.split]
    split
    · exact le_trans split_le (Nat.le_succ n)
    · exact le_rfl

theorem leaf_mem (hW : 0 < W) : ∀ {n : Nat} {p : ν}, leaf next W g n p k = some q → q ∈ nodes next W g n p
  | 0, _, h => by
    cases h
    exact mem_nodes_self
  | n + 1, p, h => by
    obtain ⟨c, hc, hl⟩ := bind_eq_some_iff.mp h
    exact mem_of_le (nodes_child_le (digit_lt hW _ _) hc) (Multiset.mem_add.mpr (.inr (leaf_mem hW hl)))

/-! ### Paths -/

theorem follow_mem : ∀ {n : Nat} {p : ν} {is : List Nat}, is.length ≤ n → (∀ i ∈ is, i < W) →
    follow next g p is = some q → q ∈ nodes next W g n p
  | _, _, [], _, _, h => by
    cases h
    exact mem_nodes_self
  | n + 1, p, i :: is, hlen, hlt, h => by
    obtain ⟨c, hc, hl⟩ := bind_eq_some_iff.mp h
    have hq := follow_mem (n := n) (Nat.le_of_succ_le_succ hlen)
      (fun j hj => hlt j (List.mem_cons_of_mem _ hj)) hl
    exact mem_of_le (nodes_child_le (hlt i List.mem_cons_self) hc) (Multiset.mem_add.mpr (.inr hq))

/-- When no node occurs twice, no two paths lead to one node. -/
theorem follow_inj : ∀ {n : Nat} {p : ν} {is js : List Nat}, (nodes next W g n p).Nodup →
    is.length ≤ n → js.length ≤ n → (∀ i ∈ is, i < W) → (∀ j ∈ js, j < W) →
    follow next g p is = some q → follow next g p js = some q → is = js
  | _, _, [], [], _, _, _, _, _, _, _ => rfl
  | n + 1, p, [], j :: js, hn, _, hlen, _, hlt, h, h' => by
    cases h
    obtain ⟨c, hc, hl⟩ := bind_eq_some_iff.mp h'
    refine absurd (follow_mem (Nat.le_of_succ_le_succ hlen)
      (fun k hk => hlt k (List.mem_cons_of_mem _ hk)) hl) ?_
    exact (nodup_child (hlt j List.mem_cons_self) hc hn).1
  | n + 1, p, i :: is, [], hn, hlen, _, hlt, _, h, h' => by
    cases h'
    obtain ⟨c, hc, hl⟩ := bind_eq_some_iff.mp h
    refine absurd (follow_mem (Nat.le_of_succ_le_succ hlen)
      (fun k hk => hlt k (List.mem_cons_of_mem _ hk)) hl) ?_
    exact (nodup_child (hlt i List.mem_cons_self) hc hn).1
  | n + 1, p, i :: is, j :: js, hn, hli, hlj, hi, hj, h, h' => by
    obtain ⟨c, hc, hl⟩ := bind_eq_some_iff.mp h
    obtain ⟨c', hc', hl'⟩ := bind_eq_some_iff.mp h'
    have hi' := fun k hk => hi k (List.mem_cons_of_mem _ hk)
    have hj' := fun k hk => hj k (List.mem_cons_of_mem _ hk)
    have hli' := Nat.le_of_succ_le_succ hli
    have hlj' := Nat.le_of_succ_le_succ hlj
    by_cases hij : i = j
    · subst hij
      rw [hc] at hc'
      cases hc'
      rw [follow_inj (nodup_child (hi i List.mem_cons_self) hc hn).2 hli' hlj' hi' hj' hl hl']
    · exact absurd (follow_mem hlj' hj' hl') (disjoint_children (hi i List.mem_cons_self)
        (hj j List.mem_cons_self) hij hc hc' hn (follow_mem hli' hi' hl))

/-- The sum over the entries of a node after one of its subtrees has grown by `new`. -/
theorem sum_grow {f f' : Nat → Multiset ν} {i : Nat} {new : Multiset ν} (hi : i < W)
    (hother : ∀ j, j < W → j ≠ i → f' j = f j) (hself : f' i = f i + new) :
    ∑ j ∈ Finset.range W, f' j = (∑ j ∈ Finset.range W, f j) + new := by
  have hmem := Finset.mem_range.mpr hi
  rw [← add_sum_erase _ f hmem, ← add_sum_erase _ f' hmem, hself]
  have hrest : ∑ j ∈ (Finset.range W).erase i, f' j = ∑ j ∈ (Finset.range W).erase i, f j := by
    apply sum_congr rfl
    intro j hj
    obtain ⟨hne, hlt⟩ := mem_erase.mp hj
    exact hother j (Finset.mem_range.mp hlt) hne
  rw [hrest]
  abel

/-! ### A subtree that grows -/

/-- When only the subtree at entry `i` changes, the tree grows by what the subtree grows by. -/
theorem nodes_grow {i : Nat} {new : Multiset ν} (hi : i < W) (hc : next (g p i) = some c)
    (hn : (nodes next W g (n + 1) p).Nodup) (hp : g' p = g p)
    (hkeep : ∀ x ∈ nodes next W g (n + 1) p, x ∉ nodes next W g n c → g' x = g x)
    (hsub : nodes next W g' n c = nodes next W g n c + new) :
    nodes next W g' (n + 1) p = nodes next W g (n + 1) p + new := by
  simp only [nodes, hp]
  rw [add_assoc]
  congr 1
  refine sum_grow hi (fun j hj hji => ?_) (by simp [hc, hsub])
  cases hc' : next (g p j) with
  | none => rfl
  | some c' =>
    have hsame : nodes next W g' n c' = nodes next W g n c' := nodes_congr fun x hx =>
      hkeep x (mem_of_le (nodes_child_le hj hc') (Multiset.mem_add.mpr (.inr hx)))
        (disjoint_children hj hi hji hc' hc hn hx)
    simp [hsame]

/-- Keys outside a subtree that changes keep their bottom nodes; the others find theirs in it. -/
theorem leaf_grow (hW : 0 < W) {i : Nat} (hi : i < W) (hc : next (g p i) = some c)
    (hn : (nodes next W g (n + 1) p).Nodup) (hp : g' p = g p)
    (hkeep : ∀ x ∈ nodes next W g (n + 1) p, x ∉ nodes next W g n c → g' x = g x) :
    leaf next W g' (n + 1) p k =
      if digit W (n + 1) k = i then leaf next W g' n c k else leaf next W g (n + 1) p k := by
  simp only [leaf, hp]
  split
  · next h => rw [h, hc, bind_some]
  · next h =>
      cases hc' : next (g p (digit W (n + 1) k)) with
      | none => rfl
      | some c' =>
        have hlt := digit_lt hW (n + 1) k
        exact leaf_congr hW fun x hx =>
          hkeep x (mem_of_le (nodes_child_le hlt hc') (Multiset.mem_add.mpr (.inr hx)))
            (disjoint_children hlt hi h hc' hc hn hx)

theorem missing_grow (hW : 0 < W) {i : Nat} (hi : i < W) (hc : next (g p i) = some c)
    (hn : (nodes next W g (n + 1) p).Nodup) (hp : g' p = g p)
    (hkeep : ∀ x ∈ nodes next W g (n + 1) p, x ∉ nodes next W g n c → g' x = g x) :
    missing next W g' (n + 1) p k =
      if digit W (n + 1) k = i then missing next W g' n c k else missing next W g (n + 1) p k := by
  simp only [missing, hp]
  by_cases h : digit W (n + 1) k = i
  · rw [if_pos h, h, hc]
  · rw [if_neg h]
    cases hc' : next (g p (digit W (n + 1) k)) with
    | none => rfl
    | some c' =>
      have hlt := digit_lt hW (n + 1) k
      exact missing_congr hW fun x hx =>
        hkeep x (mem_of_le (nodes_child_le hlt hc') (Multiset.mem_add.mpr (.inr hx)))
          (disjoint_children hlt hi h hc' hc hn hx)

theorem inner_grow {P : ε → Prop} {i : Nat} (hi : i < W) (hc : next (g p i) = some c)
    (hn : (nodes next W g (n + 1) p).Nodup) (hp : g' p = g p)
    (hkeep : ∀ x ∈ nodes next W g (n + 1) p, x ∉ nodes next W g n c → g' x = g x)
    (hin : Inner next W P g (n + 1) p) (hsub : Inner next W P g' n c) :
    Inner next W P g' (n + 1) p := by
  intro j hj
  rw [hp]
  refine ⟨(hin j hj).1, fun c' hc' => ?_⟩
  by_cases hji : j = i
  · subst hji
    rw [hc] at hc'
    cases hc'
    exact hsub
  · exact inner_congr (fun x hx => hkeep x
      (mem_of_le (nodes_child_le hj hc') (Multiset.mem_add.mpr (.inr hx)))
      (disjoint_children hj hi hji hc' hc hn hx)) ((hin j hj).2 c' hc')

/-- Different keys have different places: a bottom node belongs to one run of `W` keys. -/
theorem leaf_inj (hW : 0 < W) {k' : Nat} : ∀ {n : Nat} {p : ν}, (nodes next W g n p).Nodup →
    leaf next W g n p k = some q → leaf next W g n p k' = some q →
    k / W % W ^ n = k' / W % W ^ n
  | 0, _, _, _, _ => by simp [Nat.mod_one]
  | n + 1, p, hn, hl, hl' => by
    obtain ⟨c, hc, hlc⟩ := bind_eq_some_iff.mp hl
    obtain ⟨c', hc', hlc'⟩ := bind_eq_some_iff.mp hl'
    have hdig : digit W (n + 1) k = digit W (n + 1) k' := by
      by_contra hne
      exact disjoint_children (digit_lt hW _ _) (digit_lt hW _ _) hne hc hc' hn
        (leaf_mem hW hlc) (leaf_mem hW hlc')
    rw [hdig, hc'] at hc
    cases hc
    have ih := leaf_inj hW (nodup_child (digit_lt hW _ _) hc' hn).2 hlc hlc'
    have hsplit : ∀ x, x / W % W ^ (n + 1) = digit W (n + 1) x * W ^ n + x / W % W ^ n := by
      intro x
      rw [digit, pow_succ W n, Nat.mod_mul, Nat.div_div_eq_div_mul, ← pow_succ', ← pow_succ,
        Nat.mul_comm, Nat.add_comm]
    rw [hsplit k, hsplit k', ih, hdig]

theorem digit_mod {N : Nat} (h : n < N) : digit W n (k % W ^ N) = digit W n k := by
  obtain ⟨d, rfl⟩ := Nat.exists_eq_add_of_lt h
  rw [digit, digit, Nat.add_assoc, pow_add, Nat.mod_mul_right_div_self, pow_succ,
    Nat.mod_mod_of_dvd _ (Dvd.intro_left _ rfl)]

/-- A key counts up to the size of the tree. -/
theorem leaf_mod {N : Nat} : ∀ {n : Nat} {p : ν}, n < N → leaf next W g n p (k % W ^ N) = leaf next W g n p k
  | 0, _, _ => rfl
  | n + 1, p, h => by
    simp only [leaf, digit_mod h]
    cases next (g p (digit W (n + 1) k)) with
    | none => rfl
    | some c => exact leaf_mod (Nat.lt_of_succ_lt h)

/-- The entries of a subtree are entries of the tree. -/
theorem digit_child {i : Nat} (hi : i < W) (hk : k < W ^ (n + 1)) :
    digit W (n + 1) (i * W ^ (n + 1) + k) = i := by
  have hW : 0 < W ^ (n + 1) := Nat.pow_pos (Nat.lt_of_le_of_lt (Nat.zero_le _) hi)
  rw [digit, Nat.mul_comm, Nat.mul_add_div hW, Nat.div_eq_of_lt hk, Nat.add_zero, Nat.mod_eq_of_lt hi]

theorem look_child {i : Nat} (hi : i < W) (hc : next (g p i) = some c) (hk : k < W ^ (n + 1)) :
    look next W g n c k = look next W g (n + 1) p (i * W ^ (n + 1) + k) := by
  have hdigit := digit_child hi hk
  have hmod : (i * W ^ (n + 1) + k) % W ^ (n + 1) = k := by
    rw [Nat.mul_comm, Nat.mul_add_mod, Nat.mod_eq_of_lt hk]
  have hleaf : leaf next W g (n + 1) p (i * W ^ (n + 1) + k) = leaf next W g n c k := by
    rw [leaf, hdigit, hc, bind_some, ← leaf_mod (N := n + 1) (Nat.lt_succ_self n), hmod]
  have hlow : (i * W ^ (n + 1) + k) % W = k % W := by
    rw [← Nat.mod_mod_of_dvd _ (Dvd.intro_left (W ^ n) (pow_succ W n).symm), hmod]
  rw [look, look, hleaf, hlow]

/-! ### Sums over the entries of all keys -/

/-- The sum of `v` over the entries of the bottom nodes. -/
def leafSum {M : Type} [AddCommMonoid M] (next : ε → Option ν) (W : Nat) (g : ν → Nat → ε) (v : ε → M) :
    Nat → ν → M
  | 0, p => ∑ i ∈ Finset.range W, v (g p i)
  | n + 1, p => ∑ i ∈ Finset.range W, ((next (g p i)).map (leafSum next W g v n)).getD 0

theorem sum_range_mul {M : Type} [AddCommMonoid M] (f : Nat → M) (a b : Nat) :
    ∑ k ∈ Finset.range (a * b), f k = ∑ i ∈ Finset.range a, ∑ j ∈ Finset.range b, f (i * b + j) := by
  induction a with
  | zero => simp
  | succ a ih => rw [Nat.succ_mul, sum_range_add, ih, sum_range_succ]

theorem leafSum_eq {M : Type} [AddCommMonoid M] {v : ε → M} : ∀ (n : Nat) (p : ν),
    leafSum next W g v n p = ∑ k ∈ Finset.range (W ^ (n + 1)), ((look next W g n p k).map v).getD 0
  | 0, p => by
    rw [leafSum, Nat.zero_add, pow_one]
    refine sum_congr rfl fun k hk => ?_
    simp [look, leaf, Nat.mod_eq_of_lt (Finset.mem_range.mp hk)]
  | n + 1, p => by
    rw [leafSum, pow_succ', sum_range_mul]
    refine sum_congr rfl fun i hi => ?_
    have hi := Finset.mem_range.mp hi
    cases hc : next (g p i) with
    | none =>
      refine (Finset.sum_eq_zero fun k hk => ?_).symm
      have hd := digit_child (W := W) hi (Finset.mem_range.mp hk)
      simp [look, leaf, hd, hc]
    | some c =>
      rw [map_some, getD_some, leafSum_eq n c]
      refine sum_congr rfl fun k hk => ?_
      rw [look_child hi hc (Finset.mem_range.mp hk)]

theorem nodes_empty (hq : ∀ j, next (g q j) = none) : nodes next W g n q = {q} := by
  cases n with
  | zero => rfl
  | succ n => simp [nodes, hq]

section Write

variable [DecidableEq ν] {i : Nat} {e : ε}

@[simp] theorem upd_self : upd g q i e q i = e := by simp [upd]

theorem upd_of_node_ne {x : ν} (hx : x ≠ q) : upd g q i e x = g x := by
  funext j
  simp [upd, hx]

theorem upd_of_ne {j : Nat} (hj : j ≠ i) : upd g q i e q j = g q j := by simp [upd, hj]

/-- The entries of all keys after a write at the place of one. -/
theorem look_upd (hW : 0 < W) {k' : Nat} (hk : k < W ^ (n + 1)) (hk' : k' < W ^ (n + 1))
    (hn : (nodes next W g n p).Nodup) (hl : leaf next W g n p k = some q)
    (hleaf : leaf next W (upd g q (k % W) e) n p k' = leaf next W g n p k') :
    look next W (upd g q (k % W) e) n p k' = if k' = k then some e else look next W g n p k' := by
  split
  · next h =>
      subst h
      simp [look, hleaf, hl]
  · next h =>
      cases hl' : leaf next W g n p k' with
      | none => simp [look, hleaf, hl']
      | some t =>
        have hne : ¬(t = q ∧ k' % W = k % W) := by
          rintro ⟨rfl, hmod⟩
          have hdiv := leaf_inj hW hn hl' hl
          rw [Nat.mod_eq_of_lt (Nat.div_lt_of_lt_mul (by rwa [← pow_succ'])),
            Nat.mod_eq_of_lt (Nat.div_lt_of_lt_mul (by rwa [← pow_succ']))] at hdiv
          exact h (by rw [← Nat.div_add_mod k' W, ← Nat.div_add_mod k W, hdiv, hmod])
        simp [look, hleaf, hl', upd, hne]

/-- A write to a bottom node leaves the nodes and the bottom node of every key. -/
theorem upd_leaf (hW : 0 < W) : ∀ {n : Nat} {p : ν}, (nodes next W g n p).Nodup →
    leaf next W g n p k = some q →
    nodes next W (upd g q i e) n p = nodes next W g n p ∧
      ∀ k', leaf next W (upd g q i e) n p k' = leaf next W g n p k'
  | 0, _, _, _ => ⟨rfl, fun _ => rfl⟩
  | n + 1, p, hn, hl => by
    obtain ⟨c, hc, hlc⟩ := bind_eq_some_iff.mp hl
    have hd := digit_lt hW (n + 1) k
    obtain ⟨hpc, hnc⟩ := nodup_child hd hc hn
    have hqc := leaf_mem hW hlc
    obtain ⟨hnodes, hleaf⟩ := upd_leaf hW hnc hlc
    have hp : upd g q i e p = g p := upd_of_node_ne fun h => hpc (h ▸ hqc)
    have hkeep : ∀ x ∈ nodes next W g (n + 1) p, x ∉ nodes next W g n c → upd g q i e x = g x :=
      fun x _ hx => upd_of_node_ne fun h => hx (h ▸ hqc)
    refine ⟨?_, fun k' => ?_⟩
    · have hgrow : nodes next W (upd g q i e) (n + 1) p = nodes next W g (n + 1) p + 0 :=
        nodes_grow hd hc hn hp hkeep (by simpa using hnodes)
      simpa using hgrow
    · rw [leaf_grow hW hd hc hn hp hkeep]
      split
      · next h =>
          rw [hleaf k']
          simp [leaf, h, hc]
      · rfl

theorem missing_upd_leaf {k' : Nat} (hW : 0 < W) : ∀ {n : Nat} {p : ν}, (nodes next W g n p).Nodup →
    leaf next W g n p k = some q → missing next W (upd g q i e) n p k' = missing next W g n p k'
  | 0, _, _, _ => rfl
  | n + 1, p, hn, hl => by
    obtain ⟨c, hc, hlc⟩ := bind_eq_some_iff.mp hl
    have hd := digit_lt hW (n + 1) k
    obtain ⟨hpc, hnc⟩ := nodup_child hd hc hn
    have hqc := leaf_mem hW hlc
    rw [missing_grow hW hd hc hn (upd_of_node_ne fun h => hpc (h ▸ hqc))
      (fun x _ hx => upd_of_node_ne fun h => hx (h ▸ hqc)), missing_upd_leaf hW hnc hlc]
    split
    · next h => simp only [missing, h, hc]
    · rfl

theorem inner_upd_leaf {P : ε → Prop} (hW : 0 < W) : ∀ {n : Nat} {p : ν}, (nodes next W g n p).Nodup →
    leaf next W g n p k = some q → Inner next W P g n p → Inner next W P (upd g q i e) n p
  | 0, _, _, _, _ => trivial
  | n + 1, p, hn, hl, hin => by
    obtain ⟨c, hc, hlc⟩ := bind_eq_some_iff.mp hl
    have hd := digit_lt hW (n + 1) k
    obtain ⟨hpc, hnc⟩ := nodup_child hd hc hn
    have hqc := leaf_mem hW hlc
    refine inner_grow hd hc hn (upd_of_node_ne fun h => hpc (h ▸ hqc))
      (fun x _ hx => upd_of_node_ne fun h => hx (h ▸ hqc)) hin ?_
    exact inner_upd_leaf hW hnc hlc ((hin _ hd).2 c hc)

/-- A new node without children, linked into an empty entry, is one more node. -/
theorem nodes_link (hi : i < W) (hn : (nodes next W g (n + 1) p).Nodup)
    (hnone : next (g p i) = none) (he : next e = some q) (hqp : q ≠ p)
    (hq : ∀ j, next (g q j) = none) :
    nodes next W (upd g p i e) (n + 1) p = nodes next W g (n + 1) p + {q} := by
  simp only [nodes]
  rw [add_assoc]
  congr 1
  refine sum_grow hi (fun j hj hji => ?_) ?_
  · rw [upd_of_ne hji]
    cases hc' : next (g p j) with
    | none => rfl
    | some c' =>
      have hsame : nodes next W (upd g p i e) n c' = nodes next W g n c' := nodes_congr fun x hx =>
        upd_of_node_ne fun h => (nodup_child hj hc' hn).1 (h ▸ hx)
      simp [hsame]
  · have hempty : nodes next W (upd g p i e) n q = {q} := nodes_empty fun j => by
      rw [upd_of_node_ne hqp, hq j]
    simp [he, hnone, hempty]

theorem leaf_link (hW : 0 < W) (hn : (nodes next W g (n + 1) p).Nodup) (he : next e = some q) :
    leaf next W (upd g p i e) (n + 1) p k =
      if digit W (n + 1) k = i then leaf next W (upd g p i e) n q k else leaf next W g (n + 1) p k := by
  simp only [leaf]
  split
  · next h => rw [h, upd_self, he, bind_some]
  · next h =>
      rw [upd_of_ne h]
      cases hc' : next (g p (digit W (n + 1) k)) with
      | none => rfl
      | some c' =>
        exact leaf_congr hW fun x hx => upd_of_node_ne fun e' =>
          (nodup_child (digit_lt hW _ _) hc' hn).1 (e' ▸ hx)

theorem missing_link (hW : 0 < W) (hn : (nodes next W g (n + 1) p).Nodup) (he : next e = some q) :
    missing next W (upd g p i e) (n + 1) p k =
      if digit W (n + 1) k = i then missing next W (upd g p i e) n q k
      else missing next W g (n + 1) p k := by
  simp only [missing]
  by_cases h : digit W (n + 1) k = i
  · rw [if_pos h, h, upd_self, he]
  · rw [if_neg h, upd_of_ne h]
    cases hc' : next (g p (digit W (n + 1) k)) with
    | none => rfl
    | some c' =>
      exact missing_congr hW fun x hx => upd_of_node_ne fun e' =>
        (nodup_child (digit_lt hW _ _) hc' hn).1 (e' ▸ hx)

end Write

end Radix

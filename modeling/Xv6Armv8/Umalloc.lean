import Xv6Armv8.LibBlocks
import Xv6Armv8.LibRun

/-! `malloc` and `free` of the user library. The free blocks are a circular list in address order that begins at
`base`, a header without memory; every block begins with a header. What `sbrk` returns may depend on all calls
before, and is otherwise left open: the results say what they need of it. -/

namespace Xv6Armv8.Umalloc

open Function Blocks List Option StepRun

/-! ### The allocator -/

/-- `sizeof(Header)`; sizes are counted in headers. -/
def unit : Nat := 16

/-- The headers in memory and the static variables. -/
structure Heap where
  /-- `&base`. -/
  base : Nat
  ptr : Nat → Nat
  size : Nat → Nat
  /-- `none` is `NULL`. -/
  freep : Option Nat
  /-- History: the calls of `sbrk` and what they returned, the last first; `none` is -1. -/
  calls : List (Int × Option Nat)

abbrev Sbrk := List (Int × Option Nat) → Int → Option Nat

/-- The block at `x` goes in front of the one at `y`, and takes it in if it ends there. -/
def Heap.join (m : Heap) (x y : Nat) : Heap :=
  if x + unit * m.size x = y then
    { m with
      size := update m.size x ((m.size x + m.size y) % 2 ^ 32)
      ptr := update m.ptr x (m.ptr y) }
  else { m with ptr := update m.ptr x y }

/-- The loop of `free`, with a bound on its turns. -/
def Heap.find (m : Heap) (bp : Nat) : Nat → Nat → Option Nat
  | 0, _ => none
  | fuel + 1, p =>
    if p < bp ∧ bp < m.ptr p then some p
    else if m.ptr p ≤ p ∧ (p < bp ∨ bp < m.ptr p) then some p
    else m.find bp fuel (m.ptr p)

/-- `free`. -/
def Heap.free (m : Heap) (fuel ap : Nat) : Option Heap :=
  let bp := ap - unit
  m.freep.bind fun freep => (m.find bp fuel freep).map fun p =>
    { (m.join bp (m.ptr p)).join p bp with freep := some p }

/-- `morecore`. The amount is a `size_t`, and the parameter of `sbrk` an `int`. -/
def Heap.morecore (m : Heap) (sbrk : Sbrk) (fuel nunits : Nat) : Option (Heap × Option Nat) :=
  let nu := max nunits 4096
  let k := Int.bmod (nu * unit : Nat) (2 ^ 32)
  let r := sbrk m.calls k
  let m := { m with calls := (k, r) :: m.calls }
  match r with
  | none => some (m, none)
  | some hp => ({ m with size := update m.size hp nu }.free fuel (hp + unit)).map fun m => (m, m.freep)

/-- `malloc` has found a block that is large enough: it is taken whole, or its end is. -/
def Heap.take (m : Heap) (nunits prevp p : Nat) : Heap × Option Nat :=
  if m.size p = nunits then
    ({ m with ptr := update m.ptr prevp (m.ptr p), freep := some prevp }, some (p + unit))
  else
    let n := m.size p - nunits
    ({ m with size := update (update m.size p n) (p + unit * n) nunits, freep := some prevp },
      some (p + unit * n + unit))

/-- The loop of `malloc`, with a bound on its turns and on those of `free`. -/
def mallocLoop (sbrk : Sbrk) (nunits : Nat) : Nat → Heap → Nat → Nat → Option (Heap × Option Nat)
  | 0, _, _, _ => none
  | fuel + 1, m, prevp, p =>
    if nunits ≤ m.size p then some (m.take nunits prevp p)
    else if m.freep = some p then
      (m.morecore sbrk fuel nunits).bind fun r =>
        match r.2 with
        | none => some (r.1, none)
        | some p => mallocLoop sbrk nunits fuel r.1 p (r.1.ptr p)
    else mallocLoop sbrk nunits fuel m p (m.ptr p)

/-- `nunits`, which is at most 2^28 + 1. -/
def units (nbytes : Nat) : Nat := (nbytes + unit - 1) / unit + 1

/-- The list before the first search. -/
def Heap.begin (m : Heap) : Heap :=
  if m.freep = none then
    { m with ptr := update m.ptr m.base m.base, size := update m.size m.base 0, freep := some m.base }
  else m

/-- `malloc`. -/
def malloc (sbrk : Sbrk) (fuel : Nat) (m : Heap) (nbytes : Nat) : Option (Heap × Option Nat) :=
  m.begin.freep.bind fun prevp => mallocLoop sbrk (units nbytes) fuel m.begin prevp (m.begin.ptr prevp)

/-! ### The free list -/

/-- The blocks of `l` have their headers in memory, each with the address of the next, the last with `e`. -/
def Linked (m : Heap) (e : Nat) : List Block → Prop
  | [] => True
  | b :: l => unit * m.size b.addr = b.len ∧ m.ptr b.addr = start l e ∧ Linked m e l

section

variable {m m' : Heap} {e bp : Nat} {b c : Block} {l l' : List Block}

theorem linked_append : Linked m e (l ++ l') ↔ Linked m (start l' e) l ∧ Linked m e l' := by
  induction l with
  | nil => exact (and_iff_right trivial).symm
  | cons b l ih =>
    have hstart : start (l ++ l') e = start l (start l' e) := by cases l <;> rfl
    rw [cons_append, Linked, Linked, ih, hstart, and_assoc, and_assoc]

theorem Linked.congr (h : Linked m e l)
    (heq : ∀ b ∈ l, m'.size b.addr = m.size b.addr ∧ m'.ptr b.addr = m.ptr b.addr) : Linked m' e l := by
  induction l with
  | nil => trivial
  | cons b l ih =>
    obtain ⟨hs, hp⟩ := heq b mem_cons_self
    exact ⟨by rw [hs, h.1], by rw [hp, h.2.1], ih h.2.2 fun c hc => heq c (mem_cons_of_mem _ hc)⟩

theorem Linked.len (h : Linked m e l) (hb : b ∈ l) : unit * m.size b.addr = b.len := by
  obtain ⟨l₁, l₂, rfl⟩ := append_of_mem hb
  exact (linked_append.mp h).2.1

@[simp] theorem join_base (x y : Nat) : (m.join x y).base = m.base := by
  unfold Heap.join
  split <;> rfl

@[simp] theorem join_calls (x y : Nat) : (m.join x y).calls = m.calls := by
  unfold Heap.join
  split <;> rfl

theorem join_other {x y z : Nat} (hz : z ≠ x) : (m.join x y).size z = m.size z ∧ (m.join x y).ptr z = m.ptr z := by
  unfold Heap.join
  split <;> simp [hz]

theorem Linked.join (hl : Linked m e l) (hb : unit * m.size b.addr = b.len) (hne : ∀ c ∈ l, c.addr ≠ b.addr)
    (he : l = [] → b.stop ≠ e) (hlen : b.len + total l < unit * 2 ^ 32) :
    Linked (m.join b.addr (start l e)) e (merge b l) := by
  cases l with
  | nil =>
    have hjoin : m.join b.addr e = { m with ptr := update m.ptr b.addr e } := by
      rw [Heap.join, hb]
      exact if_neg (he rfl)
    show Linked (m.join b.addr e) e [b]
    rw [hjoin]
    exact ⟨hb, update_self .., trivial⟩
  | cons c l =>
    have hc : unit * m.size c.addr = c.len := hl.1
    have hother := fun z hz => join_other (m := m) (y := c.addr) (hne z hz)
    show Linked (m.join b.addr c.addr) e (if b.stop = c.addr then _ else _)
    by_cases hadj : b.stop = c.addr
    · have hjoin : m.join b.addr c.addr = { m with
          size := update m.size b.addr ((m.size b.addr + m.size c.addr) % 2 ^ 32)
          ptr := update m.ptr b.addr (m.ptr c.addr) } := by
        rw [Heap.join, hb]
        exact if_pos hadj
      rw [if_pos hadj]
      refine ⟨?_, ?_, hl.2.2.congr fun z hz => hother z (mem_cons_of_mem _ hz)⟩
      · rw [total_cons] at hlen
        have hsmall : m.size b.addr + m.size c.addr < 2 ^ 32 := by
          unfold unit at *
          omega
        simp only [hjoin, update_self]
        rw [Nat.mod_eq_of_lt hsmall, Nat.mul_add, hb, hc]
      · simp only [hjoin, update_self]
        exact hl.2.1
    · have hjoin : m.join b.addr c.addr = { m with ptr := update m.ptr b.addr c.addr } := by
        rw [Heap.join, hb]
        exact if_neg hadj
      rw [if_neg hadj]
      refine ⟨?_, ?_, hl.congr hother⟩
      · rw [hjoin]
        exact hb
      · rw [hjoin]
        exact update_self ..

theorem Linked.insert {p : Block} {l₁ l₂ : List Block} (h : Linked m e (l₁ ++ p :: l₂)) (hg : Gaps (l₁ ++ p :: l₂))
    (hp : p.addr < b.addr) (hl₂ : ∀ c ∈ l₂, b.addr < c.addr) (hb : unit * m.size b.addr = b.len) (he : e < b.addr)
    (hlen : p.len + (b.len + total l₂) < unit * 2 ^ 32) :
    Linked ((m.join b.addr (m.ptr p.addr)).join p.addr b.addr) e (l₁ ++ merge p (merge b l₂)) := by
  obtain ⟨h₁, hlenp, hptr, h₂⟩ := linked_append.mp h
  have hj₁ : Linked (m.join b.addr (m.ptr p.addr)) e (merge b l₂) := by
    rw [hptr]
    refine h₂.join hb (fun c hc => (hl₂ c hc).ne') (fun _ => ?_) (by omega)
    exact (lt_of_lt_of_le he (Nat.le_add_right _ _)).ne'
  have hj₂ : Linked ((m.join b.addr (m.ptr p.addr)).join p.addr (start (merge b l₂) e)) e (merge p (merge b l₂)) := by
    refine hj₁.join ?_ (fun c hc => ?_) (fun hnil => ?_) (by rwa [total_merge])
    · rw [(join_other hp.ne).1, hlenp]
    · rcases mem_merge hc with hc | ⟨hc, -⟩
      · exact (hp.trans (hl₂ c hc)).ne'
      · exact hc ▸ hp.ne'
    · obtain ⟨c, hc, -⟩ := exists_merge_addr b l₂
      rw [hnil] at hc
      cases hc
  rw [start_merge] at hj₂
  refine linked_append.mpr ⟨?_, hj₂⟩
  rw [start_merge]
  refine h₁.congr fun c hc => ?_
  -- the blocks in front lie below both
  have hcp := hg.lt_of_append hc
  have hne₁ := hcp.ne
  have hne₂ := (hcp.trans hp).ne
  exact ⟨(join_other hne₁).1.trans (join_other hne₂).1, (join_other hne₁).2.trans (join_other hne₂).2⟩

/-! ### The search of `free` -/

theorem find_forward : ∀ (l : List Block) (b : Block), Linked m e (b :: l) → Gaps (b :: l) → e ≤ b.addr →
    b.addr < bp → (∀ c ∈ l, c.addr ≠ bp) → ∃ l₁ c l₂, b :: l = l₁ ++ c :: l₂ ∧ c.addr < bp ∧
      (∀ d ∈ l₂, bp < d.addr) ∧ ∀ k, l.length < k → m.find bp k b.addr = some c.addr := by
  intro l
  induction l with
  | nil =>
    intro b hl _ he hlt _
    refine ⟨[], b, [], rfl, hlt, nofun, fun k hk => ?_⟩
    obtain ⟨k, rfl⟩ := Nat.exists_eq_add_of_lt hk
    have hptr : m.ptr b.addr = e := hl.2.1
    rw [Heap.find, hptr, if_neg (by omega), if_pos ⟨he, .inl hlt⟩]
  | cons c l ih =>
    intro b hl hg he hlt hne
    have hg' := (pairwise_cons.mp hg).2
    have hbc := hg.lt (mem_cons_self (a := c))
    have hptr : m.ptr b.addr = c.addr := hl.2.1
    by_cases hc : bp < c.addr
    · refine ⟨[], b, c :: l, rfl, hlt, fun d hd => ?_, fun k hk => ?_⟩
      · rcases mem_cons.mp hd with rfl | hd
        · exact hc
        · exact hc.trans (Gaps.lt hg' hd)
      · obtain ⟨k, rfl⟩ := Nat.exists_eq_add_of_lt hk
        rw [Heap.find, hptr, if_pos ⟨hlt, hc⟩]
    · have hcb : c.addr < bp := lt_of_le_of_ne (not_lt.mp hc) (hne c mem_cons_self)
      obtain ⟨l₁, d, l₂, heq, hd, hl₂, hfind⟩ :=
        ih c hl.2.2 hg' (he.trans hbc.le) hcb fun d hd => hne d (mem_cons_of_mem _ hd)
      refine ⟨b :: l₁, d, l₂, by rw [heq]; rfl, hd, hl₂, fun k hk => ?_⟩
      cases k with
      | zero => cases hk
      | succ k =>
        rw [Heap.find, hptr, if_neg (by omega), if_neg (by omega)]
        exact hfind k (by simpa using hk)

theorem find_wrap : ∀ (l : List Block) (b : Block), Linked m e (b :: l) → Gaps (b :: l) → e ≤ bp → bp < b.addr →
    ∀ k, m.find bp (k + (l.length + 1)) b.addr = m.find bp k e := by
  intro l
  induction l with
  | nil =>
    intro b hl _ he hlt k
    have hptr : m.ptr b.addr = e := hl.2.1
    rw [length_nil, Heap.find, hptr, if_neg (by omega), if_neg (by omega)]
  | cons c l ih =>
    intro b hl hg he hlt k
    have hg' := (pairwise_cons.mp hg).2
    have hbc := hg.lt (mem_cons_self (a := c))
    have hptr : m.ptr b.addr = c.addr := hl.2.1
    rw [length_cons, ← Nat.add_assoc, Heap.find, hptr, if_neg (by omega), if_neg (by omega)]
    exact ih c hl.2.2 hg' he (hlt.trans hbc) k

theorem find_spec {f : Block} (hl : Linked m e (⟨e, 0⟩ :: l)) (hg : Gaps (⟨e, 0⟩ :: l)) (hf : f ∈ ⟨e, 0⟩ :: l)
    (he : e < bp) (hne : ∀ c ∈ l, c.addr ≠ bp) : ∃ l₁ c l₂, ⟨e, 0⟩ :: l = l₁ ++ c :: l₂ ∧ c.addr < bp ∧
      (∀ d ∈ l₂, bp < d.addr) ∧ ∀ k, 2 * (l.length + 1) ≤ k → m.find bp k f.addr = some c.addr := by
  obtain ⟨l₁, l₂, heq⟩ := append_of_mem hf
  have hlen := congrArg List.length heq
  rw [length_append, length_cons, length_cons] at hlen
  have hl' := hl
  have hg' := hg
  rw [heq] at hl' hg'
  have hsuf := (linked_append.mp hl').2
  have hgsuf : Gaps (f :: l₂) := (pairwise_append.mp hg').2.1
  by_cases hlt : f.addr < bp
  · have hef : e ≤ f.addr := by
      rcases mem_cons.mp hf with rfl | hf
      · exact le_rfl
      · exact ((pairwise_cons.mp hg).1 f hf).le
    have hmem : ∀ c ∈ l₂, c ∈ ⟨e, 0⟩ :: l := fun c hc => by
      rw [heq]
      exact mem_append_right _ (mem_cons_of_mem _ hc)
    obtain ⟨k₁, c, k₂, heq', hc, hk₂, hfind⟩ := find_forward l₂ f hsuf hgsuf hef hlt fun c hc => by
      rcases mem_cons.mp (hmem c hc) with rfl | hc
      · exact he.ne
      · exact hne c hc
    refine ⟨l₁ ++ k₁, c, k₂, by rw [heq, heq', append_assoc], hc, hk₂, fun k hk => hfind k (by omega)⟩
  · have hbf : bp < f.addr := by
      refine lt_of_le_of_ne (not_lt.mp hlt) fun h => ?_
      rcases mem_cons.mp hf with rfl | hf
      · exact he.ne h.symm
      · exact hne f hf h.symm
    obtain ⟨k₁, c, k₂, heq', hc, hk₂, hfind⟩ := find_forward l ⟨e, 0⟩ hl hg le_rfl he hne
    refine ⟨k₁, c, k₂, heq', hc, hk₂, fun k hk => ?_⟩
    rw [show k = k - (l₂.length + 1) + (l₂.length + 1) by omega, find_wrap l₂ f hsuf hgsuf he.le hbf]
    exact hfind _ (by omega)

end

/-! ### Whole heaps -/

/-- The memory that `sbrk` has given. -/
def regions (calls : List (Int × Option Nat)) : List Block :=
  calls.filterMap fun c => c.2.map fun p => ⟨p, c.1.toNat⟩

/-- The heap with the free blocks `l`, the list behind `base`, and the blocks `live` that are in use. -/
structure Ok (m : Heap) (l live : List Block) : Prop where
  linked : Linked m m.base (⟨m.base, 0⟩ :: l)
  freep : ∃ b ∈ ⟨m.base, 0⟩ :: l, m.freep = some b.addr
  gaps : Gaps (⟨m.base, 0⟩ :: l)
  parts : Parts (l ++ live) (regions m.calls)
  headers : ∀ b ∈ live, unit * m.size b.addr = b.len
  above : ∀ x ∈ cells (regions m.calls), m.base < x

variable {fuel k k' p : Nat} {r : Heap × Option Nat}

section

variable {m m' : Heap} {l l' live : List Block} {b c : Block} {n x : Nat}

section

variable (h : Ok m l live)
include h

theorem Ok.base_lt (hb : b ∈ l ++ live) : m.base < b.addr :=
  h.above _ ((h.parts.cover _).mp ⟨b, hb, Block.meets_addr (h.parts.pos b hb)⟩)

theorem Ok.apart (hb : b ∈ ⟨m.base, 0⟩ :: l) (hc : c ∈ live) : Apart b c := by
  rcases mem_cons.mp hb with rfl | hb
  · exact .inl (h.base_lt (mem_append_right _ hc)).le
  · exact (pairwise_append.mp h.parts.apart).2.2 b hb c hc

theorem Ok.addr_ne (hb : b ∈ ⟨m.base, 0⟩ :: l) (hc : c ∈ live) : b.addr ≠ c.addr := by
  have hpos := h.parts.pos c (mem_append_right _ hc)
  rcases mem_cons.mp hb with rfl | hb
  · exact (h.base_lt (mem_append_right _ hc)).ne
  · exact (h.apart (mem_cons_of_mem _ hb) hc).addr_ne (h.parts.pos b (mem_append_left _ hb)) hpos

theorem Ok.freep_ne : m.freep ≠ none := by
  obtain ⟨b, -, hb⟩ := h.freep
  exact hb ▸ some_ne_none _

theorem Ok.size_base : m.size m.base = 0 := by
  have := h.linked.1
  unfold unit at this
  dsimp only at this
  omega

theorem Ok.free (hb : b ∈ live) (hfew : total (regions m.calls) < unit * 2 ^ 32) : ∃ m' l',
    Ok m' l' (live.erase b) ∧ m'.base = m.base ∧ m'.calls = m.calls ∧ (∃ c ∈ l', b.len ≤ c.len) ∧
    ∀ fuel, 2 * (l.length + 1) ≤ fuel → m.free fuel (b.addr + unit) = some m' := by
  have hbase := h.base_lt (mem_append_right _ hb)
  have hparts := h.parts.perm (((perm_cons_erase hb).append_left l).trans perm_middle)
  obtain ⟨f, hf, hfreep⟩ := h.freep
  obtain ⟨l₁, p, l₂, heq, hp, hl₂, hfind⟩ := find_spec h.linked h.gaps hf hbase fun c hc =>
    h.addr_ne (mem_cons_of_mem _ hc) hb
  obtain ⟨l', hl', hroom, hins⟩ := exists_inserted (d := b) heq (fun c hc => h.base_lt (mem_append_left _ hc)) hbase
  have hpl : p ∈ ⟨m.base, 0⟩ :: l := heq ▸ mem_append_right _ mem_cons_self
  have hsmall : p.len + (b.len + total l₂) < unit * 2 ^ 32 := by
    have htotal := congrArg total heq
    have hsum := hparts.sum
    simp only [total_append, total_cons] at htotal hsum
    omega
  have hpstop : p.stop ≤ b.addr := by
    have := h.apart hpl hb
    simp only [Apart, Block.stop] at this ⊢
    omega
  have hstop : ∀ c ∈ l₂, b.stop ≤ c.addr := fun c hc => by
    have hbc := hl₂ c hc
    have := h.apart (heq ▸ mem_append_right _ (mem_cons_of_mem _ hc) : c ∈ ⟨m.base, 0⟩ :: l) hb
    simp only [Apart, Block.stop] at this ⊢
    omega
  have hgaps := h.gaps
  have hlinked := h.linked
  rw [heq] at hgaps hlinked
  have hlink' := hlinked.insert hgaps hp hl₂ (h.headers b hb) hbase hsmall
  have hgaps' := hgaps.insert hpstop hstop
  rw [hl'] at hlink' hgaps'
  refine ⟨{ (m.join b.addr (m.ptr p.addr)).join p.addr b.addr with freep := some p.addr }, l',
    ⟨?_, ?_, by simpa using hgaps', ?_, fun c hc => ?_, fun x hx => ?_⟩, by simp, by simp, hroom, fun fuel hfuel => ?_⟩
  · simp only [join_base]
    exact hlink'.congr fun _ _ => ⟨rfl, rfl⟩
  · obtain ⟨c, hc, hcp⟩ := exists_merge_addr p (merge b l₂)
    refine ⟨c, ?_, by rw [hcp]⟩
    simp only [join_base]
    rw [← hl']
    exact mem_append_right _ hc
  · simp only [join_calls]
    exact hins _ _ hparts
  · have hcl := mem_of_mem_erase hc
    have hcp := (h.addr_ne hpl hcl).symm
    have hcb : c.addr ≠ b.addr := by
      have hc' := mem_append_right l hc
      exact (((pairwise_cons.mp hparts.apart).1 c hc').addr_ne (hparts.pos b mem_cons_self)
        (hparts.pos c (mem_cons_of_mem _ hc'))).symm
    dsimp only
    rw [(join_other hcp).1, (join_other hcb).1]
    exact h.headers c hcl
  · simp only [join_calls, join_base] at hx ⊢
    exact h.above x hx
  · rw [Heap.free, hfreep, bind_some, Nat.add_sub_cancel, hfind fuel hfuel, map_some]

end

/-! ### The search of `malloc` -/

theorem Linked.before {e : Nat} {a : Block} (h : Linked m e l) (hg : Gaps l) (ha : a ∈ l) (hb : b ∈ l) (hbe : b.addr ≠ e)
    (hptr : m.ptr a.addr = b.addr) : ∃ l₁ l₂, l = l₁ ++ a :: b :: l₂ := by
  obtain ⟨l₁, l₂, rfl⟩ := append_of_mem ha
  have hnext : m.ptr a.addr = start l₂ e := (linked_append.mp h).2.2.1
  cases l₂ with
  | nil => exact absurd (hptr.symm.trans hnext) hbe
  | cons c l₂ =>
    have hc : c ∈ l₁ ++ a :: c :: l₂ := mem_append_right _ (mem_cons_of_mem _ mem_cons_self)
    obtain rfl := hg.addr_inj hb hc (hptr.symm.trans hnext)
    exact ⟨l₁, l₂, rfl⟩

theorem Ok.take {a : Block} (h : Ok m l live) (ha : a ∈ ⟨m.base, 0⟩ :: l) (hb : b ∈ l) (hptr : m.ptr a.addr = b.addr)
    (hn : 0 < n) (hle : n ≤ m.size b.addr) : ∃ q l', (m.take n a.addr b.addr).2 = some (q + unit) ∧
      Ok (m.take n a.addr b.addr).1 l' (⟨q, unit * n⟩ :: live) := by
  have hlen := h.linked.len (mem_cons_of_mem _ hb)
  obtain ⟨l₁, w, heq⟩ :=
    h.linked.before h.gaps ha (mem_cons_of_mem _ hb) (h.base_lt (mem_append_left _ hb)).ne' hptr
  obtain ⟨u, rfl, hu⟩ : ∃ u, l = u ++ b :: w ∧ ⟨m.base, 0⟩ :: u = l₁ ++ [a] := by
    cases l₁ with
    | nil =>
      obtain ⟨rfl, rfl⟩ := List.cons.inj heq
      exact ⟨[], rfl, rfl⟩
    | cons d l₁ =>
      obtain ⟨rfl, rfl⟩ := List.cons.inj heq
      exact ⟨l₁ ++ [a], by simp, rfl⟩
  have hgaps : Gaps ((⟨m.base, 0⟩ :: u) ++ b :: w) := h.gaps
  obtain ⟨hlu, -, hnext, hlw⟩ := linked_append.mp (show Linked m m.base ((⟨m.base, 0⟩ :: u) ++ b :: w) from h.linked)
  have hau : a ∈ ⟨m.base, 0⟩ :: u := by
    rw [hu]
    exact mem_append_right _ mem_cons_self
  have hbw : ∀ c ∈ w, b.addr < c.addr := fun c => Gaps.lt (pairwise_append.mp hgaps).2.1
  have hperm : (u ++ b :: w ++ live).Perm (b :: (u ++ w ++ live)) := perm_middle.append_right live
  by_cases hfull : m.size b.addr = n
  · rw [hfull] at hlen
    rw [Heap.take, if_pos hfull]
    have hbn : (⟨b.addr, unit * n⟩ : Block) = b := by rw [hlen]
    refine ⟨b.addr, u ++ w, rfl, ?_, ⟨a, mem_append_left w hau, rfl⟩, ?_, ?_, ?_, h.above⟩
    · -- the list without the block
      have hlist : (⟨m.base, 0⟩ : Block) :: (u ++ w) = l₁ ++ a :: w := by
        rw [← cons_append, hu, append_assoc]
        rfl
      rw [hu] at hlu hgaps
      obtain ⟨hl₁, ha₁, -⟩ := linked_append.mp hlu
      dsimp only
      rw [hlist, linked_append]
      refine ⟨hl₁.congr fun c hc => ⟨rfl, update_of_ne ?_ _ _⟩, ha₁, ?_,
        hlw.congr fun c hc => ⟨rfl, update_of_ne ?_ _ _⟩⟩
      · exact (Gaps.lt_of_append (pairwise_append.mp hgaps).1 hc).ne
      · dsimp only
        rw [update_self, hnext]
      · exact ((hgaps.lt_of_append (mem_append_right _ mem_cons_self)).trans (hbw c hc)).ne'
    · exact Pairwise.sublist (((sublist_cons_self b w).append_left u).cons_cons _) h.gaps
    · rw [hbn]
      exact h.parts.perm (hperm.trans perm_middle.symm)
    · refine forall_mem_cons.mpr ⟨?_, h.headers⟩
      dsimp only
      rw [hfull]
  · -- the block keeps its beginning
    obtain ⟨k, hk⟩ : ∃ k, m.size b.addr = k + n := ⟨m.size b.addr - n, by omega⟩
    have hk0 : 0 < unit * k := Nat.mul_pos (by decide) (by omega)
    have hn0 : 0 < unit * n := Nat.mul_pos (by decide) hn
    rw [hk, Nat.mul_add] at hlen
    have hbk : (⟨b.addr, unit * k + unit * n⟩ : Block) = b := by rw [hlen]
    rw [Heap.take, if_neg hfull, hk, Nat.add_sub_cancel]
    refine ⟨b.addr + unit * k, u ++ ⟨b.addr, unit * k⟩ :: w, rfl, ?_, ⟨a, mem_append_left _ hau, rfl⟩,
      hgaps.shorten rfl (by dsimp only; omega), ?_, ?_, h.above⟩
    · refine linked_append (l := ⟨m.base, 0⟩ :: u).mpr
        ⟨hlu.congr fun c hc => ⟨?_, rfl⟩, ?_, hnext, hlw.congr fun c hc => ⟨?_, rfl⟩⟩
      · have := hgaps.lt_of_append hc
        dsimp only
        rw [update_of_ne (by omega), update_of_ne (by omega)]
      · dsimp only
        rw [update_of_ne (by omega), update_self]
      · have := (pairwise_cons.mp (pairwise_append.mp hgaps).2.1).1 c hc
        unfold Block.stop at this
        dsimp only
        rw [update_of_ne (by omega), update_of_ne (by omega)]
    · have hsplit := (parts_split hk0 hn0).mp (hbk.symm ▸ h.parts.perm hperm)
      exact (hsplit.perm (.swap ..)).perm ((perm_middle.append_right live).symm.cons _ |>.trans perm_middle.symm)
    · refine forall_mem_cons.mpr ⟨?_, fun c hc => ?_⟩
      · dsimp only
        rw [update_self]
      · have hbc := h.apart (mem_cons_of_mem _ hb) hc
        have := h.parts.pos c (mem_append_right _ hc)
        simp only [Apart, Block.stop] at hbc
        dsimp only
        rw [update_of_ne (by omega), update_of_ne (by omega)]
        exact h.headers c hc

theorem loop_spec (sbrk : Sbrk) {f : Block} (hf : m.freep = some f.addr) : ∀ (l : List Block) (a : Block),
    Linked m f.addr (a :: l) → (∀ c ∈ l, c.addr ≠ f.addr) →
    (∃ a' ∈ a :: l, ∃ b ∈ l ++ [f], m.ptr a'.addr = b.addr ∧ n ≤ m.size b.addr ∧
      ∀ k, l.length < k → mallocLoop sbrk n k m a.addr (m.ptr a.addr) = some (m.take n a'.addr b.addr)) ∨
    (∀ b ∈ l ++ [f], m.size b.addr < n) ∧ ∀ k,
      mallocLoop sbrk n (k + l.length + 1) m a.addr (m.ptr a.addr) = (m.morecore sbrk k n).bind fun r =>
        match r.2 with
        | none => some (r.1, none)
        | some p => mallocLoop sbrk n k r.1 p (r.1.ptr p) := by
  intro l
  induction l with
  | nil =>
    intro a hl _
    have hptr : m.ptr a.addr = f.addr := hl.2.1
    by_cases hn : n ≤ m.size f.addr
    · refine .inl ⟨a, mem_cons_self, f, mem_cons_self, hptr, hn, fun k hk => ?_⟩
      obtain ⟨k, rfl⟩ := Nat.exists_eq_add_of_lt hk
      rw [mallocLoop, hptr, if_pos hn]
    · refine .inr ⟨fun b hb => ?_, fun k => ?_⟩
      · obtain rfl := mem_singleton.mp hb
        exact not_le.mp hn
      · rw [mallocLoop, hptr, if_neg hn, if_pos hf, length_nil, Nat.add_zero]
  | cons c l ih =>
    intro a hl hne
    have hptr : m.ptr a.addr = c.addr := hl.2.1
    by_cases hn : n ≤ m.size c.addr
    · refine .inl ⟨a, mem_cons_self, c, mem_cons_self, hptr, hn, fun k hk => ?_⟩
      obtain ⟨k, rfl⟩ := Nat.exists_eq_add_of_lt hk
      rw [mallocLoop, hptr, if_pos hn]
    · have hcf : m.freep ≠ some c.addr := fun h =>
        hne c mem_cons_self (some.inj (h.symm.trans hf))
      have hstep : ∀ k, mallocLoop sbrk n (k + 1) m a.addr (m.ptr a.addr) =
          mallocLoop sbrk n k m c.addr (m.ptr c.addr) := fun k => by
        rw [mallocLoop, hptr, if_neg hn, if_neg hcf]
      rcases ih c hl.2.2 fun d hd => hne d (mem_cons_of_mem _ hd) with
        ⟨a', ha', b, hb, hab, hnb, hfound⟩ | ⟨hsmall, hmore⟩
      · refine .inl ⟨a', mem_cons_of_mem _ ha', b, mem_cons_of_mem _ hb, hab, hnb, fun k hk => ?_⟩
        cases k with
        | zero => cases hk
        | succ k =>
          rw [hstep]
          exact hfound k (by simpa using hk)
      · refine .inr ⟨fun b hb => ?_, fun k => ?_⟩
        · rcases mem_cons.mp hb with rfl | hb
          · exact not_le.mp hn
          · exact hsmall b hb
        · rw [hstep]
          exact hmore k

theorem Ok.search (h : Ok m l live) (sbrk : Sbrk) (hn : 0 < n) : ∃ f, m.freep = some f ∧
    ((∃ a ∈ ⟨m.base, 0⟩ :: l, ∃ b ∈ l, m.ptr a.addr = b.addr ∧ n ≤ m.size b.addr ∧
      ∀ k, l.length < k → mallocLoop sbrk n k m f (m.ptr f) = some (m.take n a.addr b.addr)) ∨
    (∀ b ∈ l, m.size b.addr < n) ∧ ∀ k,
      mallocLoop sbrk n (k + l.length + 1) m f (m.ptr f) = (m.morecore sbrk k n).bind fun r =>
        match r.2 with
        | none => some (r.1, none)
        | some p => mallocLoop sbrk n k r.1 p (r.1.ptr p)) := by
  obtain ⟨f, hf, hfreep⟩ := h.freep
  obtain ⟨l₁, l₂, heq⟩ := append_of_mem hf
  have hlink := h.linked
  have hgaps := h.gaps
  rw [heq] at hlink hgaps
  obtain ⟨hlink₁, hlink₂⟩ := linked_append.mp hlink
  have hlen : l.length = (l₂ ++ l₁).length := by
    have := congrArg List.length heq
    simp only [length_append, length_cons] at this ⊢
    omega
  have hmem : ∀ c, c ∈ l₂ ++ l₁ ∨ c = f ↔ c ∈ ⟨m.base, 0⟩ :: l := fun c => by
    rw [heq]
    simp only [mem_append, mem_cons]
    tauto
  -- the list from `f` around to `f`
  have hround : Linked m f.addr (f :: (l₂ ++ l₁)) := by
    refine linked_append (l := f :: l₂).mpr ⟨?_, hlink₁⟩
    cases l₁ with
    | nil =>
      obtain ⟨rfl, -⟩ := List.cons.inj heq
      exact hlink₂
    | cons d l₁ =>
      obtain ⟨rfl, -⟩ := List.cons.inj heq
      exact hlink₂
  have hne : ∀ c ∈ l₂ ++ l₁, c.addr ≠ f.addr := fun c hc => by
    rcases mem_append.mp hc with hc | hc
    · exact (Gaps.lt (pairwise_append.mp hgaps).2.1 hc).ne'
    · exact (hgaps.lt_of_append hc).ne
  refine ⟨f.addr, hfreep, ?_⟩
  rw [hlen]
  rcases loop_spec sbrk hfreep _ f hround hne with ⟨a, ha, b, hb, hab, hnb, hfound⟩ | ⟨hsmall, hmore⟩
  · refine .inl ⟨a, ?_, b, ?_, hab, hnb, hfound⟩
    · exact (hmem a).mp ((mem_cons.mp ha).symm)
    · have hb' := (hmem b).mp ((mem_append.mp hb).imp id mem_singleton.mp)
      refine (mem_cons.mp hb').resolve_left ?_
      rintro rfl
      rw [h.size_base] at hnb
      omega
  · refine .inr ⟨fun b hb => hsmall b ?_, hmore⟩
    exact mem_append.mpr (((hmem b).mpr (mem_cons_of_mem _ hb)).imp id mem_singleton.mpr)

/-! ### More memory -/

/-- What `sbrk` returns is -1 or new memory, above all before it. -/
def Fresh (sbrk : Sbrk) (base : Nat) : Prop :=
  ∀ calls k p, sbrk calls k = some p → base + unit ≤ p ∧ ∀ x ∈ cells (regions calls), x < p

/-- It never gives so much in all that a `uint` cannot count its headers. -/
def Bounded (sbrk : Sbrk) : Prop :=
  ∀ calls k p, sbrk calls k = some p → total (regions calls) + k.toNat < unit * 2 ^ 32

/-- The bytes that `morecore` needs. -/
def wanted (n : Nat) : Nat := max n 4096 * unit

theorem amount_eq (h : n * unit < 2 ^ 31) : Int.bmod (wanted n : Nat) (2 ^ 32) = wanted n := by
  have hlt : wanted n < 2 ^ 31 := by
    unfold wanted unit at *
    omega
  unfold Int.bmod
  dsimp only
  split
  · omega
  · omega

theorem amount_ne (h : 2 ^ 31 ≤ n * unit) : Int.bmod (wanted n : Nat) (2 ^ 32) ≠ wanted n := by
  have hle : 2 ^ 31 ≤ wanted n := by
    unfold wanted unit at *
    omega
  have hlt := Int.bmod_lt (x := wanted n) (m := 2 ^ 32) (by decide)
  omega

theorem Ok.grow {k : Int} {hp nu : Nat} (h : Ok m l live) (hbase : m.base < hp)
    (habove : ∀ x ∈ cells (regions m.calls), x < hp) (hk : k.toNat = unit * nu) (hnu : 0 < nu) :
    Ok { m with size := update m.size hp nu, calls := (k, some hp) :: m.calls } l (⟨hp, unit * nu⟩ :: live) := by
  have hregions : regions ((k, some hp) :: m.calls) = ⟨hp, unit * nu⟩ :: regions m.calls := by
    rw [← hk]
    rfl
  have hadd := h.parts.add (b := ⟨hp, unit * nu⟩) (Nat.mul_pos (by decide) hnu) habove
  have hne : ∀ c ∈ l ++ live, c.addr ≠ hp := fun c hc =>
    (habove _ ((h.parts.cover _).mp ⟨c, hc, Block.meets_addr (h.parts.pos c hc)⟩)).ne
  refine ⟨h.linked.congr fun c hc => ⟨update_of_ne ?_ _ _, rfl⟩, h.freep, h.gaps, ?_, ?_, fun x hx => ?_⟩
  · rcases mem_cons.mp hc with rfl | hc
    · exact hbase.ne
    · exact hne c (mem_append_left _ hc)
  · dsimp only
    rw [hregions]
    exact hadd.perm perm_middle.symm
  · refine forall_mem_cons.mpr ⟨?_, fun c hc => ?_⟩
    · dsimp only
      rw [update_self]
    · dsimp only
      rw [update_of_ne (hne c (mem_append_right _ hc))]
      exact h.headers c hc
  · dsimp only at hx ⊢
    rw [hregions, cells_cons] at hx
    rcases hx with hx | hx
    · exact lt_of_lt_of_le hbase hx.1
    · exact h.above x hx

theorem Ok.failed {k : Int} (h : Ok m l live) : Ok { m with calls := (k, none) :: m.calls } l live :=
  ⟨h.linked.congr fun _ _ => ⟨rfl, rfl⟩, h.freep, h.gaps, h.parts, h.headers, h.above⟩

theorem Ok.morecore {sbrk : Sbrk} (h : Ok m l live) (hf : Fresh sbrk m.base) (hb : Bounded sbrk)
    (hn : n * unit < 2 ^ 31) : ∃ m' p, m'.base = m.base ∧ m'.calls = ((wanted n : Int), sbrk m.calls (wanted n)) :: m.calls ∧
      (∀ fuel, 2 * (l.length + 1) ≤ fuel → m.morecore sbrk fuel n = some (m', p)) ∧
      (p = none ∧ Ok m' l live ∨ ∃ l', p = m'.freep ∧ Ok m' l' live ∧ ∃ c ∈ l', n ≤ m'.size c.addr) := by
  have hk := amount_eq hn
  unfold wanted at hk
  cases hr : sbrk m.calls (wanted n) with
  | none =>
    refine ⟨{ m with calls := (wanted n, none) :: m.calls }, none, rfl, rfl, fun fuel _ => ?_,
      .inl ⟨rfl, h.failed⟩⟩
    unfold wanted at hr
    simp only [Heap.morecore, hk, hr, wanted]
  | some hp =>
    obtain ⟨hbase, habove⟩ := hf _ _ _ hr
    have hfew := hb _ _ _ hr
    have hlen : ((wanted n : Nat) : Int).toNat = unit * max n 4096 := by
      rw [Int.toNat_natCast, wanted, Nat.mul_comm]
    have hgrow := h.grow (lt_of_lt_of_le (Nat.lt_add_of_pos_right (by decide)) hbase) habove hlen (by omega)
    obtain ⟨m', l', hok, hmb, hmc, ⟨c, hc, hcl⟩, hfree⟩ := hgrow.free mem_cons_self (by
      have hreg : regions (((wanted n : Nat), some hp) :: m.calls) =
        ⟨hp, ((wanted n : Nat) : Int).toNat⟩ :: regions m.calls := rfl
      dsimp only
      rw [hreg, total_cons, Nat.add_comm]
      exact hfew)
    rw [erase_cons_head] at hok
    refine ⟨m', m'.freep, hmb, hmc, fun fuel hfuel => ?_, .inr ⟨l', rfl, hok, c, hc, ?_⟩⟩
    · have := hfree fuel hfuel
      unfold wanted at hr this
      simp only [Heap.morecore, hk, hr]
      rw [this, map_some]
    · have := hok.linked.len (mem_cons_of_mem _ hc)
      unfold unit at *
      dsimp only at hcl
      omega

/-! ### The bound on the turns is only a bound -/

theorem find_mono {bp q : Nat} (h : m.find bp k p = some q) (hk : k ≤ k') : m.find bp k' p = some q := by
  induction k generalizing p k' with
  | zero => cases h
  | succ k ih =>
    obtain ⟨k', rfl⟩ := Nat.exists_eq_add_of_le' (Nat.one_le_of_lt hk)
    rw [Heap.find] at h ⊢
    split_ifs at h ⊢
    · exact h
    · exact h
    · exact ih h (by omega)

theorem free_mono {ap : Nat} (h : m.free k ap = some m') (hk : k ≤ k') : m.free k' ap = some m' := by
  unfold Heap.free at h ⊢
  obtain ⟨f, hf, h⟩ := bind_eq_some_iff.mp h
  obtain ⟨p, hp, rfl⟩ := map_eq_some_iff.mp h
  rw [hf, bind_some, find_mono hp hk, map_some]

theorem morecore_mono {sbrk : Sbrk} (h : m.morecore sbrk k n = some r)
    (hk : k ≤ k') : m.morecore sbrk k' n = some r := by
  unfold Heap.morecore at h ⊢
  dsimp only at h ⊢
  split at h
  · exact h
  · obtain ⟨m', hm', rfl⟩ := map_eq_some_iff.mp h
    rw [free_mono hm' hk, map_some]

theorem loop_mono {sbrk : Sbrk} {prevp : Nat}
    (h : mallocLoop sbrk n k m prevp p = some r) (hk : k ≤ k') : mallocLoop sbrk n k' m prevp p = some r := by
  induction k generalizing m prevp p k' with
  | zero => cases h
  | succ k ih =>
    obtain ⟨k', rfl⟩ := Nat.exists_eq_add_of_le' (Nat.one_le_of_lt hk)
    rw [mallocLoop] at h ⊢
    split_ifs at h ⊢
    · exact h
    · obtain ⟨t, ht, h⟩ := bind_eq_some_iff.mp h
      rw [morecore_mono ht (by omega), bind_some]
      cases hp : t.2 with
      | none => simpa only [hp] using h
      | some p =>
        simp only [hp] at h ⊢
        exact ih h (by omega)
    · exact ih h (by omega)

/-! ### Calls of `sbrk` -/

theorem free_calls {ap : Nat} (h : m.free fuel ap = some m') : m'.calls = m.calls := by
  unfold Heap.free at h
  obtain ⟨f, -, h⟩ := bind_eq_some_iff.mp h
  obtain ⟨p, -, rfl⟩ := map_eq_some_iff.mp h
  simp

theorem morecore_calls {sbrk : Sbrk} (h : m.morecore sbrk fuel n = some r) :
    ∃ s, r.1.calls = (Int.bmod (wanted n : Nat) (2 ^ 32), s) :: m.calls := by
  unfold Heap.morecore at h
  dsimp only at h
  split at h
  · cases h
    exact ⟨_, rfl⟩
  · obtain ⟨m', hm', rfl⟩ := map_eq_some_iff.mp h
    exact ⟨_, free_calls hm'⟩

@[simp] theorem take_base (prevp p : Nat) : (m.take n prevp p).1.base = m.base := by
  unfold Heap.take
  split <;> rfl

@[simp] theorem take_calls (prevp p : Nat) : (m.take n prevp p).1.calls = m.calls := by
  unfold Heap.take
  split <;> rfl

theorem loop_calls {sbrk : Sbrk} {prevp : Nat}
    (h : mallocLoop sbrk n k m prevp p = some r) : m.calls <:+ r.1.calls := by
  induction k generalizing m prevp p with
  | zero => cases h
  | succ k ih =>
    rw [mallocLoop] at h
    split_ifs at h
    · cases h
      rw [take_calls]
    · obtain ⟨t, ht, h⟩ := bind_eq_some_iff.mp h
      obtain ⟨s, hs⟩ := morecore_calls ht
      have hsuf : m.calls <:+ t.1.calls := hs ▸ suffix_cons _ _
      cases hp : t.2 with
      | none =>
        simp only [hp] at h
        cases h
        exact hsuf
      | some p =>
        simp only [hp] at h
        exact hsuf.trans (ih h)
    · exact ih h

theorem Ok.asks {sbrk : Sbrk} {f : Nat} (h : Ok m l live) (hn : 0 < n)
    (hno : ∀ b ∈ l, m.size b.addr < n) (hf : m.freep = some f) (hr : mallocLoop sbrk n k m f (m.ptr f) = some r) :
    ∃ new s, r.1.calls = new ++ (Int.bmod (wanted n : Nat) (2 ^ 32), s) :: m.calls := by
  obtain ⟨f', hf', hcases⟩ := h.search sbrk hn
  obtain rfl : f = f' := some.inj (hf.symm.trans hf')
  rcases hcases with ⟨_, -, b, hb, -, hnb, -⟩ | ⟨-, hmore⟩
  · exact absurd (hno b hb) (not_lt.mpr hnb)
  · have hlarge := loop_mono hr (Nat.le_add_right k (l.length + 1))
    rw [← Nat.add_assoc, hmore] at hlarge
    obtain ⟨t, ht, hrest⟩ := bind_eq_some_iff.mp hlarge
    obtain ⟨s, hs⟩ := morecore_calls ht
    have hsuf : t.1.calls <:+ r.1.calls := by
      cases hp : t.2 with
      | none =>
        simp only [hp] at hrest
        cases hrest
        exact suffix_rfl
      | some p =>
        simp only [hp] at hrest
        exact loop_calls hrest
    obtain ⟨new, hnew⟩ := hsuf
    exact ⟨new, s, by rw [← hnew, hs]⟩

/-! ### `malloc` -/

/-- What `malloc` of `n` headers has done. -/
structure Served (sbrk : Sbrk) (m : Heap) (live : List Block) (n : Nat) (r : Heap × Option Nat) : Prop where
  base : r.1.base = m.base
  calls : r.1.calls = m.calls ∨ r.1.calls = ((wanted n : Int), sbrk m.calls (wanted n)) :: m.calls
  ok : r.2 = none ∧ (∃ l', Ok r.1 l' live) ∨ ∃ q l', r.2 = some (q + unit) ∧ Ok r.1 l' (⟨q, unit * n⟩ :: live)

theorem Ok.serves {sbrk : Sbrk} (h : Ok m l live) (hf : Fresh sbrk m.base) (hb : Bounded sbrk) (hn : 0 < n)
    (hfit : (∃ b ∈ l, n ≤ m.size b.addr) ∨ n * unit < 2 ^ 31) : ∃ f r N, m.freep = some f ∧ Served sbrk m live n r ∧
      ∀ k, N ≤ k → mallocLoop sbrk n k m f (m.ptr f) = some r := by
  obtain ⟨f, hfreep, ⟨a, ha, b, hb', hab, hnb, hfound⟩ | ⟨hsmall, hmore⟩⟩ := h.search sbrk hn
  · obtain ⟨q, l', hq, hok⟩ := h.take ha hb' hab hn hnb
    exact ⟨f, _, l.length + 1, hfreep, ⟨take_base _ _, .inl (take_calls _ _), .inr ⟨q, l', hq, hok⟩⟩, hfound⟩
  · have hk : n * unit < 2 ^ 31 := hfit.resolve_left fun ⟨b, hb', hnb⟩ => absurd (hsmall b hb') (not_lt.mpr hnb)
    obtain ⟨m', p, hmb, hmc, hrun, ⟨rfl, hok⟩ | ⟨l', rfl, hok, c, hc, hnc⟩⟩ := h.morecore hf hb hk
    · refine ⟨f, (m', none), 3 * (l.length + 1), hfreep, ⟨hmb, .inr hmc, .inl ⟨rfl, l, hok⟩⟩, fun k hk => ?_⟩
      rw [show k = k - (l.length + 1) + l.length + 1 by omega, hmore, hrun _ (by omega), bind_some]
    · -- the second search finds the new memory
      obtain ⟨f', hf', ⟨a, ha, b, hb', hab, hnb, hfound⟩ | ⟨hsmall', -⟩⟩ := hok.search sbrk hn
      · obtain ⟨q, l'', hq, hok'⟩ := hok.take ha hb' hab hn hnb
        refine ⟨f, _, 3 * (l.length + 1) + l'.length + 1, hfreep, ⟨(take_base _ _).trans hmb,
          .inr (by rwa [take_calls]), .inr ⟨q, l'', hq, hok'⟩⟩, fun k hk => ?_⟩
        rw [show k = k - (l.length + 1) + l.length + 1 by omega, hmore, hrun _ (by omega), bind_some]
        simp only [hf']
        exact hfound _ (by omega)
      · exact absurd (hsmall' c hc) (not_lt.mpr hnc)

@[simp] theorem begin_base : m.begin.base = m.base := by
  unfold Heap.begin
  split <;> rfl

@[simp] theorem begin_calls : m.begin.calls = m.calls := by
  unfold Heap.begin
  split <;> rfl

theorem Ok.begin_eq (h : Ok m l live) : m.begin = m := if_neg h.freep_ne

theorem ok_begin (hf : m.freep = none) (hc : m.calls = []) : Ok m.begin [] [] := by
  rw [Heap.begin, if_pos hf]
  refine ⟨⟨?_, ?_, trivial⟩, ⟨_, mem_cons_self, rfl⟩, pairwise_singleton _ _, ?_, nofun, fun x hx => ?_⟩
  · dsimp only
    rw [update_self, Nat.mul_zero]
  · exact update_self ..
  · dsimp only
    rw [hc]
    exact ⟨nofun, Pairwise.nil, fun _ => Iff.rfl, rfl⟩
  · dsimp only at hx
    rw [hc] at hx
    exact (cells_nil.mp hx).elim

theorem units_pos (nbytes : Nat) : 0 < units nbytes := Nat.succ_pos _

theorem le_units (nbytes : Nat) : nbytes + unit ≤ unit * units nbytes := by
  unfold units unit
  omega

/-- The property of a call: what it asks of `sbrk` is what it needs, and the block it returns is memory that `sbrk`
has given. -/
def Inside (m : Heap) (nbytes : Nat) (r : Heap × Option Nat) : Prop :=
  (∀ new, r.1.calls = new ++ m.calls → ∀ c ∈ new, c.1 = wanted (units nbytes)) ∧
  ∀ ap, r.2 = some ap → ∀ x, Block.Meets ⟨ap - unit, unit * r.1.size (ap - unit)⟩ x → x ∈ cells (regions r.1.calls)

/-- **`malloc` and the parameter of `sbrk`.** In any heap, a call has the property exactly if a free block is large
enough, or the bytes of the block are an `int`. -/
theorem malloc_inside_iff {sbrk : Sbrk} (h : Ok m.begin l live) (hf : Fresh sbrk m.base) (hb : Bounded sbrk)
    (nbytes : Nat) : (∃ fuel r, malloc sbrk fuel m nbytes = some r ∧ Inside m nbytes r) ↔
      (∃ b ∈ l, unit * units nbytes ≤ b.len) ∨ units nbytes * unit < 2 ^ 31 := by
  have hlen : ∀ b ∈ l, unit * units nbytes ≤ b.len ↔ units nbytes ≤ m.begin.size b.addr := fun b hb => by
    rw [← h.linked.len (mem_cons_of_mem _ hb)]
    exact Nat.mul_le_mul_left_iff (by decide)
  constructor
  · rintro ⟨fuel, r, hr, hask, -⟩
    by_contra hno
    obtain ⟨hnone, hlarge⟩ := not_or.mp hno
    obtain ⟨p, hp, hr⟩ := bind_eq_some_iff.mp hr
    have hsmall : ∀ b ∈ l, m.begin.size b.addr < units nbytes := fun b hb =>
      not_le.mp fun hle => hnone ⟨b, hb, (hlen b hb).mpr hle⟩
    obtain ⟨new, s, hcalls⟩ := h.asks (units_pos nbytes) hsmall hp hr
    have hne := amount_ne (not_lt.mp hlarge)
    generalize Int.bmod (wanted (units nbytes) : Nat) (2 ^ 32) = k at hcalls hne
    refine hne (hask (new ++ [(k, s)]) ?_ (k, s) (mem_append_right _ mem_cons_self))
    rw [hcalls, begin_calls, append_assoc, singleton_append]
  · intro hfit
    have hfit' : (∃ b ∈ l, units nbytes ≤ m.begin.size b.addr) ∨ units nbytes * unit < 2 ^ 31 :=
      hfit.imp (fun ⟨b, hb, hle⟩ => ⟨b, hb, (hlen b hb).mp hle⟩) id
    obtain ⟨f, r, N, hfreep, hserved, hrun⟩ := h.serves (by rwa [begin_base]) hb (units_pos nbytes) hfit'
    refine ⟨N, r, by rw [malloc, hfreep, bind_some, hrun N le_rfl], fun new hnew c hc => ?_, fun ap hap x hx => ?_⟩
    · have hcalls := hserved.calls
      rw [hnew, begin_calls] at hcalls
      rcases hcalls with hcalls | hcalls
      · rw [append_left_eq_self.mp hcalls] at hc
        cases hc
      · obtain rfl : new = [((wanted (units nbytes) : Int), _)] := append_cancel_right (hcalls.trans rfl)
        obtain rfl := mem_singleton.mp hc
        rfl
    · rcases hserved.ok with ⟨hnone, -⟩ | ⟨q, l', hq, hok⟩
      · rw [hnone] at hap
        cases hap
      · obtain rfl := some.inj (hq.symm.trans hap)
        rw [Nat.add_sub_cancel, hok.headers _ mem_cons_self] at hx
        exact (hok.parts.cover x).mp ⟨_, mem_append_right _ mem_cons_self, hx⟩

end

/-! ### Whole runs -/

structure State where
  heap : Heap
  /-- The blocks in use. -/
  live : List Block

/-- The program starts with memory of any content. -/
def initial (base : Nat) (ptr size : Nat → Nat) : State :=
  { heap := { base := base, ptr := ptr, size := size, freep := none, calls := [] }, live := [] }

inductive Event where
  | malloc (fuel nbytes : Nat)
  | free (fuel : Nat) (b : Block)

/-- A call that returns; only blocks in use are freed. -/
def step (sbrk : Sbrk) (s : State) : Event → Option State
  | .malloc fuel nbytes =>
    (malloc sbrk fuel s.heap nbytes).map fun r =>
      { heap := r.1
        live := match r.2 with
          | none => s.live
          | some ap => ⟨ap - unit, unit * units nbytes⟩ :: s.live }
  | .free fuel b =>
    if b ∈ s.live then
      (s.heap.free fuel (b.addr + unit)).map fun m => { heap := m, live := s.live.erase b }
    else none

/-- What the call asks of `sbrk`, if it does, is an `int`. -/
def Fits (sbrk : Sbrk) (s : State) : Event → Prop
  | .malloc fuel nbytes =>
    ((malloc sbrk fuel s.heap nbytes).map fun r => r.1.calls) = some s.heap.calls ∨ units nbytes * unit < 2 ^ 31
  | .free _ _ => True

instance (sbrk : Sbrk) (s : State) (e : Event) : Decidable (Fits sbrk s e) :=
  match e with
  | .malloc _ _ => inferInstanceAs (Decidable (_ ∨ _))
  | .free _ _ => inferInstanceAs (Decidable True)

section

variable {sbrk : Sbrk} {s s' : State} {e : Event} {base : Nat}

structure Inv (base : Nat) (s : State) : Prop where
  base : s.heap.base = base
  ok : ∃ l, Ok s.heap.begin l s.live
  idle : s.heap.freep = none → s.live = []
  few : total (regions s.heap.calls) < unit * 2 ^ 32

theorem Ok.inv {l : List Block} (h : Ok s.heap l s.live) (hbase : s.heap.base = base)
    (hfew : total (regions s.heap.calls) < unit * 2 ^ 32) : Inv base s :=
  ⟨hbase, ⟨l, h.begin_eq.symm ▸ h⟩, fun hno => absurd hno h.freep_ne, hfew⟩

theorem Inv.heap (h : Inv base s) (hlive : s.live ≠ []) : ∃ l, Ok s.heap l s.live := by
  obtain ⟨l, hok⟩ := h.ok
  rw [Heap.begin, if_neg fun hnone => hlive (h.idle hnone)] at hok
  exact ⟨l, hok⟩

theorem Ok.served {m : Heap} {l live : List Block} {nbytes : Nat} (h : Ok m.begin l live)
    (hf : Fresh sbrk m.base) (hb : Bounded sbrk) (hr : malloc sbrk fuel m nbytes = some r)
    (hfit : r.1.calls = m.calls ∨ units nbytes * unit < 2 ^ 31) : Served sbrk m.begin live (units nbytes) r := by
  obtain ⟨f, hfreep, hr⟩ := bind_eq_some_iff.mp hr
  have hfit' : (∃ b ∈ l, units nbytes ≤ m.begin.size b.addr) ∨ units nbytes * unit < 2 ^ 31 := by
    by_cases hex : ∃ b ∈ l, units nbytes ≤ m.begin.size b.addr
    · exact .inl hex
    · refine .inr (hfit.resolve_left fun hcalls => ?_)
      obtain ⟨new, s, hnew⟩ := h.asks (units_pos nbytes)
        (fun b hb => not_le.mp fun hle => hex ⟨b, hb, hle⟩) hfreep hr
      have := congrArg List.length (hcalls.symm.trans hnew)
      rw [begin_calls, length_append, length_cons] at this
      omega
  obtain ⟨f', r', N, hf', hserved, hrun⟩ := h.serves (by rwa [begin_base]) hb (units_pos nbytes) hfit'
  obtain rfl : f = f' := some.inj (hfreep.symm.trans hf')
  have heq := (loop_mono hr (le_max_left fuel N)).symm.trans (hrun _ (le_max_right fuel N))
  exact some.inj heq ▸ hserved

theorem Inv.step (h : Inv base s) (hf : Fresh sbrk base) (hb : Bounded sbrk) (hfit : Fits sbrk s e)
    (hs : step sbrk s e = some s') : Inv base s' := by
  cases e with
  | malloc fuel nbytes =>
    obtain ⟨l, hok⟩ := h.ok
    obtain ⟨r, hr, rfl⟩ := map_eq_some_iff.mp hs
    have hserved := hok.served (by rwa [h.base]) hb hr (hfit.imp (fun hc => by simpa [hr] using hc) id)
    have hbase : r.1.base = base := by rw [hserved.base, begin_base, h.base]
    have hfew : total (regions r.1.calls) < unit * 2 ^ 32 := by
      rcases hserved.calls with hc | hc <;> rw [hc, begin_calls]
      · exact h.few
      · cases hp : sbrk s.heap.calls (wanted (units nbytes)) with
        | none => exact h.few
        | some p =>
          have := hb _ _ _ hp
          rw [Nat.add_comm] at this
          exact total_cons.trans_lt this
    rcases hserved.ok with ⟨hnone, l', hok'⟩ | ⟨q, l', hq, hok'⟩
    · refine Ok.inv (l := l') ?_ hbase hfew
      simpa only [hnone] using hok'
    · refine Ok.inv (l := l') ?_ hbase hfew
      simpa only [hq, Nat.add_sub_cancel] using hok'
  | free fuel b =>
    obtain ⟨hmem, hs⟩ := ite_none_right_eq_some.mp hs
    obtain ⟨m, hm, rfl⟩ := map_eq_some_iff.mp hs
    obtain ⟨l, hok⟩ := h.heap (ne_nil_of_mem hmem)
    obtain ⟨m', l', hok', hmb, hmc, -, hfree⟩ := hok.free hmem h.few
    obtain rfl : m = m' := some.inj
      ((free_mono hm (le_max_left _ _)).symm.trans (hfree _ (le_max_right fuel _)))
    refine Ok.inv hok' (hmb.trans h.base) ?_
    dsimp only
    rw [hmc]
    exact h.few

end

/-- **Heap integrity.** In every state of every run in which `sbrk` gives new memory above the old, less than a `uint`
can count, and is asked for an `int`: the free list is circular and in address order, no two free blocks meet, the
blocks in use share no address with each other or with free ones, and together they are the memory that `sbrk` has
given; `free` of a block in use returns, and so does `malloc`, with a block that has room for the bytes. -/
theorem heap_integrity {sbrk : Sbrk} {base : Nat} {ptr size : Nat → Nat} (hf : Fresh sbrk base) (hb : Bounded sbrk)
    {tr : List Event} {s : State} (hrun : Run (step sbrk) (Fits sbrk) (initial base ptr size) tr s) :
    ∃ l, Ok s.heap.begin l s.live ∧
      (∀ b ∈ s.live, ∃ m N, ∀ fuel, N ≤ fuel → s.heap.free fuel (b.addr + unit) = some m) ∧
      ∀ nbytes, (∃ b ∈ l, unit * units nbytes ≤ b.len) ∨ units nbytes * unit < 2 ^ 31 →
        ∃ r N, (∀ fuel, N ≤ fuel → malloc sbrk fuel s.heap nbytes = some r) ∧
          ∀ ap, r.2 = some ap → ap + nbytes ≤ ap - unit + unit * r.1.size (ap - unit) := by
  have hinv : Inv base s := hrun.invariant (P := Inv base)
    ⟨rfl, ⟨[], ok_begin rfl rfl⟩, fun _ => rfl, show 0 < unit * 2 ^ 32 by decide⟩ fun _ _ _ h hfit hs => h.step hf hb hfit hs
  obtain ⟨l, hok⟩ := hinv.ok
  refine ⟨l, hok, fun b hmem => ?_, fun nbytes hfit => ?_⟩
  · obtain ⟨l, hok⟩ := hinv.heap (ne_nil_of_mem hmem)
    obtain ⟨m, -, -, -, -, -, hfree⟩ := hok.free hmem hinv.few
    exact ⟨m, _, hfree⟩
  · have hlen : ∀ b ∈ l, unit * units nbytes ≤ b.len → units nbytes ≤ s.heap.begin.size b.addr := fun b hb hle => by
      rw [← hok.linked.len (mem_cons_of_mem _ hb)] at hle
      exact Nat.le_of_mul_le_mul_left hle (by decide)
    obtain ⟨f, r, N, hfreep, hserved, hrun⟩ := hok.serves (by rwa [begin_base, hinv.base]) hb (units_pos nbytes)
      (hfit.imp (fun ⟨b, hb, hle⟩ => ⟨b, hb, hlen b hb hle⟩) id)
    refine ⟨r, N, fun fuel hfuel => by rw [malloc, hfreep, bind_some, hrun fuel hfuel], fun ap hap => ?_⟩
    rcases hserved.ok with ⟨hnone, -⟩ | ⟨q, l', hq, hok'⟩
    · rw [hnone] at hap
      cases hap
    · obtain rfl := some.inj (hq.symm.trans hap)
      have := le_units nbytes
      rw [Nat.add_sub_cancel, hok'.headers _ mem_cons_self]
      dsimp only
      omega

/-! ### A process that grows -/

/-- The end of the last region. -/
def top (l : List Block) : Nat := l.foldr (fun b t => max b.stop t) 0

theorem lt_top {l : List Block} {x : Nat} (h : x ∈ cells l) : x < top l := by
  induction l with
  | nil => exact (cells_nil.mp h).elim
  | cons b l ih =>
    rcases cells_cons.mp h with hx | hx
    · exact lt_of_lt_of_le hx.2 (le_max_left _ _)
    · exact lt_of_lt_of_le (ih hx) (le_max_right _ _)

/-- `sbrk` of a process whose memory begins at `2 * unit` and that may have less than `limit` bytes. -/
def growing (limit : Nat) : Sbrk := fun calls k =>
  if total (regions calls) + k.toNat < limit then some (max (2 * unit) (top (regions calls))) else none

theorem fresh_growing (limit : Nat) : Fresh (growing limit) unit := by
  intro calls k p hp
  obtain ⟨-, rfl⟩ := guarded hp
  refine ⟨?_, fun x hx => lt_of_lt_of_le (lt_top hx) (le_max_right _ _)⟩
  rw [← Nat.two_mul]
  exact le_max_left _ _

theorem bounded_growing : Bounded (growing (unit * 2 ^ 32)) := by
  intro calls k p hp
  exact (guarded hp).1

/-- Before the first call, with the header `base` at 16. -/
def empty : State := initial unit (fun _ => 0) fun _ => 0

/-- 100 bytes are an `int`. -/
theorem hundred_bytes_inside : ∃ fuel r, malloc (growing (unit * 2 ^ 32)) fuel empty.heap 100 = some r ∧
    Inside empty.heap 100 r :=
  (malloc_inside_iff (ok_begin rfl rfl) (fresh_growing _) bounded_growing 100).mpr (.inr (by decide))

/-- For 2^32 - 1 bytes `sbrk` is asked for 16, and the block has a size of 2^28 + 1 headers. -/
theorem huge_block_outside : ∃ r, malloc (growing (unit * 2 ^ 32)) 9 empty.heap (2 ^ 32 - 1) = some r ∧
    r.1.calls = [(16, some 32)] ∧ r.1.size 32 = 2 ^ 28 + 1 ∧ ¬Inside empty.heap (2 ^ 32 - 1) r := by
  have hend : (malloc (growing (unit * 2 ^ 32)) 9 empty.heap (2 ^ 32 - 1)).map
      (fun r => (r.2, r.1.calls, r.1.size 32)) = some (some 48, [(16, some 32)], 2 ^ 28 + 1) := by
    decide +kernel
  obtain ⟨r, hr, hfacts⟩ := map_eq_some_iff.mp hend
  simp only [Prod.mk.injEq] at hfacts
  obtain ⟨hap, hcalls, hsize⟩ := hfacts
  refine ⟨r, hr, hcalls, hsize, fun h => ?_⟩
  obtain ⟨b, hb, hx⟩ := h.2 48 hap 48 ⟨show 32 ≤ 48 by decide, by rw [show 48 - unit = 32 from rfl, hsize]; decide⟩
  rw [hcalls] at hb
  obtain rfl := mem_singleton.mp hb
  exact absurd hx.2 (by decide)

/-- Two blocks are allocated, and the first one is freed. -/
def twoBlocks : List Event := [.malloc 9 100, .malloc 9 8, .free 9 ⟨65440, 128⟩]

theorem two_blocks_integrity : ∃ s, Run (step (growing (unit * 2 ^ 32))) (Fits (growing (unit * 2 ^ 32))) empty
    twoBlocks s ∧ s.live = [⟨65408, 32⟩] ∧ ∃ l, Ok s.heap.begin l s.live := by
  have hend : (exec (step (growing (unit * 2 ^ 32))) (Fits (growing (unit * 2 ^ 32))) empty twoBlocks).map
      State.live = some [⟨65408, 32⟩] := by
    decide +kernel
  obtain ⟨s, hs, hlive⟩ := map_eq_some_iff.mp hend
  have hrun := run_of_exec hs
  obtain ⟨l, hok, -⟩ := heap_integrity (fresh_growing _) bounded_growing hrun
  exact ⟨s, hrun, hlive, l, hok⟩

/-- 33 blocks of 2^31 - 16 bytes, one behind the other, are allocated and freed. -/
def manyBlocks : List Event :=
  List.replicate 33 (.malloc 9 (2 ^ 31 - 32)) ++
    (List.range 33).map fun i => .free 9 ⟨32 + i * (2 ^ 31 - 16), 2 ^ 31 - 16⟩

/-- With 2^36 bytes and more, the size of the one free block is wrong: memory that `sbrk` has given is in no block. -/
theorem size_wraps : ∃ s, Fresh (growing (2 ^ 40)) unit ∧
    Run (step (growing (2 ^ 40))) (Fits (growing (2 ^ 40))) empty manyBlocks s ∧
    ¬∃ l, Ok s.heap.begin l s.live := by
  have hend : (exec (step (growing (2 ^ 40))) (Fits (growing (2 ^ 40))) empty manyBlocks).map
      (fun s => (s.live, [s.heap.freep, s.heap.base, s.heap.ptr 16, s.heap.ptr 32, s.heap.size 32], s.heap.calls.head?)) =
        some ([], [some 32, some 16, some 32, some 16, some 134217695], some (2147483632, some 68719476256)) := by
    decide +kernel
  obtain ⟨s, hs, hfacts⟩ := map_eq_some_iff.mp hend
  simp only [Prod.mk.injEq, List.cons.injEq, some.injEq, and_true] at hfacts
  obtain ⟨hlive, ⟨hfreep, hbase, hptr, hlast, hsize⟩, hcalls⟩ := hfacts
  refine ⟨s, fresh_growing _, run_of_exec hs, ?_⟩
  rintro ⟨l, hok⟩
  rw [Heap.begin, if_neg (by rw [hfreep]; exact some_ne_none _), hlive] at hok
  obtain ⟨tl, htl⟩ := List.head?_eq_some_iff.mp hcalls
  -- the last region is in no block of the list
  have hmem : 68719476256 ∈ cells (regions s.heap.calls) := by
    rw [htl]
    exact ⟨⟨68719476256, 2147483632⟩, mem_cons_self, by decide, by decide⟩
  obtain ⟨b, hb, hx⟩ := (hok.parts.cover _).mpr hmem
  rw [append_nil] at hb
  obtain ⟨-, hnext, hl⟩ := hok.linked
  have hgaps := hok.gaps
  rw [hbase] at hnext hl hgaps
  rw [hptr] at hnext
  cases l with
  | nil => cases hb
  | cons c l =>
    obtain ⟨hclen, hcptr, -⟩ := hl
    have hc : c.addr = 32 := hnext.symm
    rw [hc, hsize] at hclen
    rw [hc, hlast] at hcptr
    have hlow := (pairwise_cons.mp hgaps).1
    cases l with
    | nil =>
      obtain rfl := mem_singleton.mp hb
      have := hx.2
      unfold Block.stop at this
      unfold unit at hclen
      omega
    | cons d l => exact absurd (hlow d (by simp)) (by rw [← show 16 = d.addr from hcptr]; decide)

end Xv6Armv8.Umalloc
